import Reckon.Token.Basic

/-!
# Operators

The prefix and the binary operators, the symbols they are written with, and how tightly binary
operators bind. Binary operators are grouped by what they work on, so that each group has an
evaluation of its own and no operator meets operands it has no meaning for.

Some symbols are written for both an operator in front of its operand and one between two
operands; the place decides which is meant.
-/

namespace Reckon

/-- The operators in front of an operand. -/
inductive UnaryOp
  | plus | minus | not | xor | bitNot
deriving Repr, DecidableEq

/-- The operators on numbers. -/
inductive ArithmeticOp
  | add | sub | mul | div
deriving Repr, DecidableEq

/-- The operators on integers only. -/
inductive IntegerOp
  | rem | bitAnd | bitOr | bitXor | shl | shr
deriving Repr, DecidableEq

/-- The operators on truth values. -/
inductive LogicalOp
  | and | or
deriving Repr, DecidableEq

/-- The operators that compare. -/
inductive ComparisonOp
  | greater | less | greaterEqual | lessEqual | equal | notEqual
deriving Repr, DecidableEq

/-- The operators between two operands. -/
inductive BinaryOp
  | arithmetic (op : ArithmeticOp)
  | integer (op : IntegerOp)
  | logical (op : LogicalOp)
  | comparison (op : ComparisonOp)
  /-- The comma joins expressions but has no value. -/
  | comma
deriving Repr, DecidableEq

/-- An operator of either sort. -/
inductive Operator
  | unary (op : UnaryOp)
  | binary (op : BinaryOp)
deriving Repr, DecidableEq

/-! ## Operators in front of an operand -/

namespace UnaryOp

def symbol : UnaryOp → Symbol
  | plus => .plus
  | minus => .minus
  | not => .bang
  | xor => .caret
  | bitNot => .tilde

def text (op : UnaryOp) : String := op.symbol.text

/-- The operator that a symbol stands for in front of an operand. -/
def ofSymbol? : Symbol → Option UnaryOp
  | .plus => some plus
  | .minus => some minus
  | .bang => some not
  | .caret => some xor
  | .tilde => some bitNot
  | _ => none

def ofKind? : TokenKind → Option UnaryOp
  | .symbol s => ofSymbol? s
  | _ => none

theorem ofSymbol?_eq_some_iff {s : Symbol} {op : UnaryOp} :
    ofSymbol? s = some op ↔ s = op.symbol := by
  cases op <;> cases s <;> decide

end UnaryOp

/-! ## Operators between two operands -/

namespace BinaryOp

def symbol : BinaryOp → Symbol
  | arithmetic .add => .plus
  | arithmetic .sub => .minus
  | arithmetic .mul => .star
  | arithmetic .div => .slash
  | integer .rem => .percent
  | integer .bitAnd => .amp
  | integer .bitOr => .pipe
  | integer .bitXor => .caret
  | integer .shl => .lessLess
  | integer .shr => .greaterGreater
  | logical .and => .ampAmp
  | logical .or => .pipePipe
  | comparison .greater => .greater
  | comparison .less => .less
  | comparison .greaterEqual => .greaterEqual
  | comparison .lessEqual => .lessEqual
  | comparison .equal => .equalEqual
  | comparison .notEqual => .bangEqual
  | comma => .comma

def text (op : BinaryOp) : String := op.symbol.text

/-- The operator that a symbol stands for between two operands. -/
def ofSymbol? : Symbol → Option BinaryOp
  | .plus => some (arithmetic .add)
  | .minus => some (arithmetic .sub)
  | .star => some (arithmetic .mul)
  | .slash => some (arithmetic .div)
  | .percent => some (integer .rem)
  | .amp => some (integer .bitAnd)
  | .pipe => some (integer .bitOr)
  | .caret => some (integer .bitXor)
  | .lessLess => some (integer .shl)
  | .greaterGreater => some (integer .shr)
  | .ampAmp => some (logical .and)
  | .pipePipe => some (logical .or)
  | .greater => some (comparison .greater)
  | .less => some (comparison .less)
  | .greaterEqual => some (comparison .greaterEqual)
  | .lessEqual => some (comparison .lessEqual)
  | .equalEqual => some (comparison .equal)
  | .bangEqual => some (comparison .notEqual)
  | .comma => some comma
  | _ => none

def ofKind? : TokenKind → Option BinaryOp
  | .symbol s => ofSymbol? s
  | _ => none

theorem ofSymbol?_eq_some_iff {s : Symbol} {op : BinaryOp} :
    ofSymbol? s = some op ↔ s = op.symbol := by
  rcases op with (_ | _ | _ | _) | (_ | _ | _ | _ | _ | _) | (_ | _) | (_ | _ | _ | _ | _ | _) | _
    <;> cases s <;> decide

/-! ## Rank -/

/-- How loosely an operator binds; operands of a smaller rank are taken first. -/
def rank : BinaryOp → Nat
  | arithmetic .mul | arithmetic .div | integer .rem => 3
  | arithmetic .add | arithmetic .sub => 4
  | integer .shl | integer .shr => 5
  | comparison .greater | comparison .less => 6
  | comparison .greaterEqual | comparison .lessEqual => 6
  | comparison .equal | comparison .notEqual => 7
  | integer .bitAnd => 8
  | integer .bitXor => 9
  | integer .bitOr => 10
  | logical .and => 11
  | logical .or => 12
  | comma => 15

/-- A bound that every operator stays below. -/
def loosest : Nat := 99

theorem rank_lt_loosest (op : BinaryOp) : op.rank < loosest := by
  rcases op with (_ | _ | _ | _) | (_ | _ | _ | _ | _ | _) | (_ | _) | (_ | _ | _ | _ | _ | _) | _
    <;> decide

end BinaryOp

/-- The operator in messages; one in front of its operand is told apart by a word. -/
def Operator.text : Operator → String
  | .unary op => "unary " ++ op.text
  | .binary op => op.text

end Reckon
