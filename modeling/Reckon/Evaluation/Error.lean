import Reckon.Datum
import Reckon.Operator

/-!
# Errors of evaluation

Why an expression has no value in an environment, and how that is said.
-/

namespace Reckon

/-- Why an evaluation failed. -/
inductive EvalError
  /-- The environment has nothing under this name. -/
  | undefinedIdentifier (name : String)
  /-- What the name stands for is no value. -/
  | unsupportedValue (name : String) (kind : DatumKind)
  /-- The operator has no meaning for an operand of this kind. -/
  | invalidOperand (op : UnaryOp) (kind : Kind)
  /-- The operator has no meaning for operands of these kinds. -/
  | invalidOperands (op : BinaryOp) (left right : Kind)
  | divisionByZero (op : BinaryOp)
  /-- The result does not fit into 64 bits, or a shift has no such amount. -/
  | overflow (op : Operator)
  /-- The operator has no value at all. -/
  | unsupportedOperator (op : BinaryOp)
  | indexOutOfBounds (i : Int64) (length : Nat)
  /-- Data of this kind have no items. -/
  | notIndexable (kind : DatumKind)
  /-- An index is no integer. -/
  | invalidIndex (kind : Kind)
  /-- The record has nothing under this name. -/
  | undefinedMember (name : String)
  /-- Data of this kind have no members. -/
  | notARecord (name : String) (kind : DatumKind)
deriving Repr, DecidableEq

def EvalError.message : EvalError → String
  | undefinedIdentifier name => "undefined identifier " ++ name
  | unsupportedValue name kind => "unsupported value type " ++ kind.text ++ " for " ++ name
  | invalidOperand op kind => "invalid operand for unary " ++ op.text ++ ": " ++ kind.text
  | invalidOperands op left right =>
    "invalid operands for " ++ op.text ++ ": " ++ left.text ++ ", " ++ right.text
  | divisionByZero op => "division by zero in " ++ op.text
  | overflow op => "integer overflow in " ++ op.text
  | unsupportedOperator op => "operator " ++ op.text ++ " cannot be evaluated"
  | indexOutOfBounds i length =>
    "index " ++ toString i.toInt ++ " out of bounds for length " ++ toString length
  | notIndexable kind => "cannot index into " ++ kind.text
  | invalidIndex kind => "index must be an integer, found " ++ kind.text
  | undefinedMember name => "undefined member " ++ name
  | notARecord name kind => "cannot access member " ++ name ++ " of " ++ kind.text

end Reckon
