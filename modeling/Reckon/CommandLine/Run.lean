import Reckon.Expression

/-!
# One run

What the program does with one expression: it shows the tree or the value. A failure carries the
chain of its causes, the outermost first.

The chain is kept and shown by an error library, which is no part of the program. The two formats
here are the ones that it documents. In one line the errors of the chain have colons between them
(`RunError.line`). In several lines the causes stand below the first error, numbered if there is
more than one (`RunError.report`). Causes of several lines would be indented, but there are none
(`RunError.unbroken_chain`).
-/

namespace Reckon

/-- Why a run failed. -/
inductive RunError
  | parse (source : String) (e : ParseError)
  | eval (source : String) (e : EvalError)
deriving Repr, DecidableEq

namespace RunError

/-- What was attempted. -/
def context : RunError → String
  | parse source _ => "could not parse " ++ Text.quote source
  | eval source _ => "could not evaluate " ++ Text.quote source

/-- What went wrong, each followed by its own cause. An illegal token is the cause of the parse
error that reports it. -/
def causes : RunError → List String
  | parse _ (.lex e) => [(ParseError.lex e).message, e.message]
  | parse _ e => [e.message]
  | eval _ e => [e.message]

/-- The context and the causes. -/
def chain (e : RunError) : List String := e.context :: e.causes

/-- The chain in one line, in the library's documented format for it. -/
def line (e : RunError) : String := ": ".intercalate e.chain

/-- The causes below each other, numbered if there are several. -/
def causeLines : List String → List String
  | [cause] => ["    " ++ cause]
  | causes => causes.mapIdx fun i cause => "    " ++ toString i ++ ": " ++ cause

/-- The report that ends the program, in the library's documented format of several lines. -/
def report (e : RunError) : String :=
  "Error: " ++ e.context ++ "\n\nCaused by:\n" ++ "\n".intercalate (causeLines e.causes) ++ "\n"

end RunError

/-- Shows the tree of a source or its value. -/
def run (source : String) (env : Environment) (limit : Nat) (tree : Bool) :
    Except RunError String :=
  match Expr.parseWithin limit source with
  | .error e => .error (.parse source e)
  | .ok e =>
    if tree then .ok e.display
    else
      match e.evaluate env with
      | .error err => .error (.eval source err)
      | .ok v => .ok v.text

end Reckon
