import Reckon.Evaluation.Basic
import Reckon.Parser.Grammar

/-!
# Expressions with their source

Parsing and evaluating in one go, and expressions that are parsed once and evaluated as often as
needed.
-/

namespace Reckon

/-- What may go wrong from a source to a value of some kind. -/
inductive Error
  | parse (e : ParseError)
  | eval (e : EvalError)
  | conversion (e : ConversionError)
deriving Repr, DecidableEq

def Error.message : Error → String
  | parse e => e.message
  | eval e => e.message
  | conversion e => e.message

/-- The value of a source in an environment. -/
def eval (source : String) (env : Environment) : Except Error Value :=
  match Expr.parse source with
  | .error e => .error (.parse e)
  | .ok e => (e.evaluate env).mapError .eval

/-- A parsed expression together with its source. -/
structure Expression where
  source : String
  expr : Expr
deriving BEq

namespace Expression

/-- The expression of a source, if its depth does not exceed the limit. -/
def ofSourceWithin (limit : Nat) (source : String) : Except ParseError Expression :=
  (Expr.parseWithin limit source).map (⟨source, ·⟩)

/-- The expression of a source. -/
def ofSource (source : String) : Except ParseError Expression :=
  ofSourceWithin Parser.defaultLimit source

/-- The value in an environment. -/
def eval (e : Expression) (env : Environment) : Except EvalError Value := e.expr.evaluate env

end Expression

end Reckon
