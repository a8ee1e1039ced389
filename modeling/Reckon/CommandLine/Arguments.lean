import Reckon.CommandLine.Binding
import Reckon.Parser.Basic

/-!
# Arguments

The arguments of the program: at most one expression, bindings, and two options.

* `-v` and `--var` take a binding that is attached (`-va=1`, `-v=a=1`, `--var=a=1`), and every
  argument that follows, up to the next one that starts with a dash. A value that is attached
  behind an equals sign stays the only one. If the option is given, there must be a binding; it may
  belong to another occurrence of the option.
* `--max-depth` takes a number, attached behind an equals sign or as the next argument. Without a
  number it keeps its default.
* `--ast` takes nothing; what is attached to it is dropped.
* After `--` nothing is an option any more. A single dash never is one.

Arguments are collected first (`Arguments.collect`) and read then (`Arguments.ofList`).
-/

namespace Reckon

/-- Why the arguments make no sense. -/
inductive UsageError
  | unknownOption (arg : String)
  | unexpectedArgument (arg : String)
  | repeatedOption (name : String)
  | missingValue (name : String)
  | invalidBinding (e : BindingError)
  | invalidDepth (text : String)
deriving Repr, DecidableEq

def UsageError.message : UsageError → String
  | unknownOption arg => "unknown option " ++ arg
  | unexpectedArgument arg => "unexpected argument " ++ arg
  | repeatedOption name => "option " ++ name ++ " given more than once"
  | missingValue name => "option " ++ name ++ " needs a value"
  | invalidBinding e => e.message
  | invalidDepth text => "invalid depth " ++ Text.quote text

/-- What the program is to do. -/
structure Arguments where
  /-- The expression; without one, expressions are read line by line. -/
  expression : Option String
  bindings : List (String × Datum)
  /-- Show trees, not values. -/
  tree : Bool
  limit : Nat

namespace Arguments

/-! ## Collecting -/

/-- What an argument that is no option belongs to. -/
inductive Pending
  | expression
  | vars
  | depth
deriving Repr, DecidableEq

/-- The arguments by their roles, before they are read. -/
structure Collected where
  pending : Pending
  expression : Option String
  /-- The number of times that bindings were announced. -/
  varUses : Nat
  vars : List String
  /-- The number of times that a depth was announced. -/
  depthUses : Nat
  depths : List String
  treeUses : Nat

namespace Collected

def empty : Collected := ⟨.expression, none, 0, [], 0, [], 0⟩

/-- The expression; there is only one. -/
def addExpression (c : Collected) (arg : String) : Except UsageError Collected :=
  match c.expression with
  | none => .ok { c with expression := some arg }
  | some _ => .error (.unexpectedArgument arg)

def addVar (c : Collected) (value : String) : Collected := { c with vars := c.vars ++ [value] }

/-- The depth is one number, so the next argument belongs to something else. -/
def addDepth (c : Collected) (value : String) : Collected :=
  { c with pending := .expression, depths := c.depths ++ [value] }

/-- An argument that is no option. -/
def addPlain (c : Collected) (arg : String) : Except UsageError Collected :=
  match c.pending with
  | .expression => c.addExpression arg
  | .vars => .ok (c.addVar arg)
  | .depth => .ok (c.addDepth arg)

end Collected

/-- An attached value, without the equals signs at its front. -/
def attached (cs : List Char) : String := String.ofList (cs.dropWhile (· == '='))

/-- An option that starts with two dashes. -/
def longOption (c : Collected) (arg : String) : Except UsageError Collected :=
  let body := arg.toList.dropWhile (· == '-')
  let name := String.ofList (body.takeWhile (· != '='))
  let value := body.dropWhile (· != '=')
  if name = "var" then
    let c := { c with pending := .vars, varUses := c.varUses + 1 }
    if value.isEmpty then .ok c
    else .ok { c.addVar (attached value) with pending := .expression }
  else if name = "max-depth" then
    let c := { c with pending := .depth, depthUses := c.depthUses + 1 }
    if value.isEmpty then .ok c else .ok (c.addDepth (attached value))
  else if name = "ast" then .ok { c with pending := .expression, treeUses := c.treeUses + 1 }
  else .error (.unknownOption arg)

/-- An option that starts with one dash, by what is behind the dash. -/
def shortOption (c : Collected) (arg : String) : Except UsageError Collected :=
  match arg.toList.drop 1 with
  | 'v' :: value =>
    let c := { c with pending := .vars, varUses := c.varUses + 1 }
    if value.isEmpty then .ok c
    else if value.head? = some '=' then
      .ok { c.addVar (attached value) with pending := .expression }
    else .ok (c.addVar (attached value))
  | _ => .error (.unknownOption arg)

/-- Gives every argument its role. -/
def collect (c : Collected) : List String → Except UsageError Collected
  | [] => .ok c
  | arg :: rest =>
    match arg.toList with
    | ['-', '-'] => rest.foldlM Collected.addExpression c
    | '-' :: '-' :: _ => do collect (← longOption c arg) rest
    | '-' :: _ :: _ => do collect (← shortOption c arg) rest
    | _ => do collect (← c.addPlain arg) rest

/-! ## Reading -/

/-- A natural number below `2 ^ 64`, with an optional plus sign. -/
def depth? (text : String) : Option Nat :=
  let cs := match text.toList with
    | '+' :: r => r
    | cs => cs
  if Decimal.isDigits cs && Decimal.ofDigits cs < 0x10000000000000000 then
    some (Decimal.ofDigits cs)
  else none

/-- The limit of the depth. -/
def readDepth (c : Collected) : Except UsageError Nat :=
  match c.depths with
  | [] => .ok Parser.defaultLimit
  | text :: _ =>
    match depth? text with
    | some n => .ok n
    | none => .error (.invalidDepth text)

/-- The bindings, in the order in which they were given. -/
def readBindings (c : Collected) : Except UsageError (List (String × Datum)) :=
  c.vars.mapM fun text => (Binding.ofArg text).mapError .invalidBinding

/-- What a list of arguments asks for. -/
def ofList (args : List String) : Except UsageError Arguments := do
  let c ← collect .empty args
  if 0 < c.varUses ∧ c.vars.isEmpty then throw (.missingValue "--var")
  if 1 < c.depthUses then throw (.repeatedOption "--max-depth")
  if 1 < c.treeUses then throw (.repeatedOption "--ast")
  let bindings ← readBindings c
  let limit ← readDepth c
  return ⟨c.expression, bindings, 0 < c.treeUses, limit⟩

/-- The environment of the bindings. -/
def environment (a : Arguments) : Environment := .ofPairs a.bindings

end Arguments

end Reckon
