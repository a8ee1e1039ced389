import Reckon.Evaluation.Error
import Reckon.Integer

/-!
# Operations on values

What each operator does to the values of its operands.

* Integers have 64 bits and a sign. A result outside that range is an error and never wraps, with
  two exceptions: a remainder always fits, and a shift to the left drops the bits that leave.
* A quotient is rounded toward zero, and a remainder has the sign of the dividend.
* Where an integer meets a float, it becomes the nearest float first.
* Dividing by zero is an error for floats too.
* No number is less than, equal to or greater than what is no number; only `!=` holds of it.
-/

namespace Reckon

/-! ## Integers -/

/-- The exact result of an operation, or an overflow in it. -/
def checked (op : Operator) (n : Int) : Except EvalError Value :=
  match int64? n with
  | some m => .ok (.integer m)
  | none => .error (.overflow op)

/-- The four basic operations on integers. -/
def ArithmeticOp.onIntegers (op : ArithmeticOp) (a b : Int64) : Except EvalError Value :=
  match op with
  | add => checked (.binary (.arithmetic op)) (a.toInt + b.toInt)
  | sub => checked (.binary (.arithmetic op)) (a.toInt - b.toInt)
  | mul => checked (.binary (.arithmetic op)) (a.toInt * b.toInt)
  | div =>
    if b = 0 then .error (.divisionByZero (.arithmetic op))
    else checked (.binary (.arithmetic op)) (a.toInt.tdiv b.toInt)

/-- A shift by an amount from 0 to 63. -/
def shift (op : IntegerOp) (f : Int64 → Int64 → Int64) (a b : Int64) : Except EvalError Value :=
  if 0 ≤ b.toInt ∧ b.toInt < 64 then .ok (.integer (f a b))
  else .error (.overflow (.binary (.integer op)))

/-- The operations that only integers have. -/
def IntegerOp.onIntegers (op : IntegerOp) (a b : Int64) : Except EvalError Value :=
  match op with
  | rem =>
    if b = 0 then .error (.divisionByZero (.integer op))
    else .ok (.integer (Int64.ofInt (a.toInt.tmod b.toInt)))
  | bitAnd => .ok (.integer (a &&& b))
  | bitOr => .ok (.integer (a ||| b))
  | bitXor => .ok (.integer (a ^^^ b))
  | shl => shift op (· <<< ·) a b
  | shr => shift op (· >>> ·) a b

/-! ## Floats -/

/-- The four basic operations on floats. -/
def ArithmeticOp.onFloats (op : ArithmeticOp) (a b : Float32) : Except EvalError Value :=
  match op with
  | add => .ok (.float (a + b))
  | sub => .ok (.float (a - b))
  | mul => .ok (.float (a * b))
  | div =>
    if b == Single.ofInt 0 then .error (.divisionByZero (.arithmetic op)) else .ok (.float (a / b))

/-- The nearest float. -/
def Value.promote (n : Int64) : Float32 := Single.ofInt n.toInt

/-! ## Prefix operators and operators between values -/

/-- An operator in front of a value. -/
def UnaryOp.apply : UnaryOp → Value → Except EvalError Value
  | plus, .integer n => .ok (.integer n)
  | plus, .float x => .ok (.float x)
  | minus, .integer n => checked (.unary minus) (-n.toInt)
  | minus, .float x => .ok (.float (-x))
  | not, .bool b => .ok (.bool !b)
  | op, v => .error (.invalidOperand op v.kind)

/-- Numbers are combined, and `+` joins strings too. -/
def ArithmeticOp.apply (op : ArithmeticOp) : Value → Value → Except EvalError Value
  | .integer a, .integer b => op.onIntegers a b
  | .float a, .float b => op.onFloats a b
  | .integer a, .float b => op.onFloats (Value.promote a) b
  | .float a, .integer b => op.onFloats a (Value.promote b)
  | .string a, .string b =>
    match op with
    | add => .ok (.string (a ++ b))
    | op => .error (.invalidOperands (.arithmetic op) .string .string)
  | a, b => .error (.invalidOperands (.arithmetic op) a.kind b.kind)

/-- Integers only. -/
def IntegerOp.apply (op : IntegerOp) : Value → Value → Except EvalError Value
  | .integer a, .integer b => op.onIntegers a b
  | a, b => .error (.invalidOperands (.integer op) a.kind b.kind)

/-- Truth values only. -/
def LogicalOp.apply (op : LogicalOp) : Value → Value → Except EvalError Value
  | .bool a, .bool b =>
    match op with
    | and => .ok (.bool (a && b))
    | or => .ok (.bool (a || b))
  | a, b => .error (.invalidOperands (.logical op) a.kind b.kind)

/-! ## Comparisons -/

/-- How two floats compare, if they do. -/
def compareFloats (a b : Float32) : Option Ordering :=
  if a < b then some .lt else if a == b then some .eq else if b < a then some .gt else none

/-- How two truth values compare. -/
def compareBools (a b : Bool) : Ordering := compare a.toNat b.toNat

namespace ComparisonOp

/-- The operator asks for equality or its opposite. -/
def isEquality : ComparisonOp → Bool
  | equal | notEqual => true
  | _ => false

/-- The operator holds of two operands that compare like this. -/
def holds : ComparisonOp → Option Ordering → Bool
  | greater, o => o == some .gt
  | less, o => o == some .lt
  | greaterEqual, o => o == some .gt || o == some .eq
  | lessEqual, o => o == some .lt || o == some .eq
  | equal, o => o == some .eq
  | notEqual, o => o != some .eq

/-- Numbers, strings and characters are compared with their like. Truth values only have equality.
Strings are compared by the code points of their characters. -/
def apply (op : ComparisonOp) (a b : Value) : Except EvalError Value :=
  let answer (o : Option Ordering) : Except EvalError Value := .ok (.bool (op.holds o))
  match a, b with
  | .integer x, .integer y => answer (some (compare x.toInt y.toInt))
  | .float x, .float y => answer (compareFloats x y)
  | .integer x, .float y => answer (compareFloats (Value.promote x) y)
  | .float x, .integer y => answer (compareFloats x (Value.promote y))
  | .string x, .string y => answer (some (compare x y))
  | .char x, .char y => answer (some (compare x.toNat y.toNat))
  | .bool x, .bool y =>
    if op.isEquality then answer (some (compareBools x y))
    else .error (.invalidOperands (.comparison op) .bool .bool)
  | a, b => .error (.invalidOperands (.comparison op) a.kind b.kind)

end ComparisonOp

/-- An operator between two values. -/
def BinaryOp.apply : BinaryOp → Value → Value → Except EvalError Value
  | arithmetic op, a, b => op.apply a b
  | integer op, a, b => op.apply a b
  | logical op, a, b => op.apply a b
  | comparison op, a, b => op.apply a b
  | comma, _, _ => .error (.unsupportedOperator comma)

end Reckon
