import Reckon.Environment
import Reckon.Evaluation.Operation
import Reckon.Expr.Basic

/-!
# Evaluation

An expression is evaluated in an environment, operands from left to right, and every operand
whether or not the operator needs it.

There are two ways to evaluate. As a value, what a name, an index or a member leads to has to be a
value and is turned into one. As the base of an index or of a member it stays the datum it is, so
that lists and records can be reached through one another.
-/

namespace Reckon

namespace Datum

/-- The value that a datum stands for. The name only serves the message. -/
def toValue (d : Datum) (name : String) : Except EvalError Value :=
  match d.toValue? with
  | some v => .ok v
  | none => .error (.unsupportedValue name d.kind)

/-- The item at a place that is counted from 0. -/
def itemAt {α : Type} (items : List α) (i : Int64) : Except EvalError α :=
  match if 0 ≤ i.toInt then items[i.toInt.toNat]? else none with
  | some a => .ok a
  | none => .error (.indexOutOfBounds i items.length)

/-- An item of a list, or a character of a string. -/
def item (d : Datum) (i : Int64) : Except EvalError Datum :=
  match d with
  | list items => itemAt items i
  | string s => (itemAt s.toList i).map char
  | d => .error (.notIndexable d.kind)

/-- The item under an index, which has to be an integer. -/
def select (d : Datum) (i : Value) : Except EvalError Datum :=
  match i with
  | .integer n => d.item n
  | v => .error (.invalidIndex v.kind)

/-- The member of a record under a name. -/
def member (d : Datum) (name : String) : Except EvalError Datum :=
  match d with
  | record fields =>
    match Fields.find? name fields with
    | some m => .ok m
    | none => .error (.undefinedMember name)
  | d => .error (.notARecord name d.kind)

end Datum

/-- What a name stands for. -/
def Environment.lookup (env : Environment) (name : String) : Except EvalError Datum :=
  match env.find? name with
  | some d => .ok d
  | none => .error (.undefinedIdentifier name)

namespace Expr

/-- What an item is called in messages. -/
def itemName : String := "list element"

mutual

/-- The value of an expression. -/
def evaluate (env : Environment) : Expr → Except EvalError Value
  | literal l => .ok l.value
  | identifier name => do (← env.lookup name).toValue name
  | paren e => e.evaluate env
  | unary op e => do
    let v ← e.evaluate env
    op.apply v
  | binary l op r => do
    let a ← l.evaluate env
    let b ← r.evaluate env
    op.apply a b
  | index base i => do
    let d ← base.resolve env
    let v ← i.evaluate env
    (← d.select v).toValue itemName
  | member base name => do
    let d ← base.resolve env
    (← d.member name).toValue name

/-- The datum that an expression leads to as the base of an index or of a member. -/
def resolve (env : Environment) : Expr → Except EvalError Datum
  | literal l => .ok (.ofValue l.value)
  | identifier name => env.lookup name
  | paren e => e.resolve env
  | unary op e => do
    let v ← e.evaluate env
    return .ofValue (← op.apply v)
  | binary l op r => do
    let a ← l.evaluate env
    let b ← r.evaluate env
    return .ofValue (← op.apply a b)
  | index base i => do
    let d ← base.resolve env
    let v ← i.evaluate env
    d.select v
  | member base name => do
    let d ← base.resolve env
    d.member name

end

end Expr

end Reckon
