import Reckon.Literal
import Reckon.Operator

/-!
# Expressions

The tree of an expression. Parentheses are nodes of their own: they do not change what an
expression means, but they are shown.
-/

namespace Reckon

/-- An expression. -/
inductive Expr
  | literal (l : Literal)
  | identifier (name : String)
  | unary (op : UnaryOp) (e : Expr)
  | binary (l : Expr) (op : BinaryOp) (r : Expr)
  | paren (e : Expr)
  | index (base i : Expr)
  | member (base : Expr) (name : String)
deriving BEq

namespace Expr

/-- The literals of an expression, from left to right. -/
def literals : Expr → List Literal
  | literal l => [l]
  | identifier _ => []
  | unary _ e => e.literals
  | binary l _ r => l.literals ++ r.literals
  | paren e => e.literals
  | index b i => b.literals ++ i.literals
  | member b _ => b.literals

/-- The number of nodes, parentheses included. -/
def size : Expr → Nat
  | literal _ => 1
  | identifier _ => 1
  | unary _ e => e.size + 1
  | binary l _ r => l.size + r.size + 1
  | paren e => e.size + 1
  | index b i => b.size + i.size + 1
  | member b _ => b.size + 1

/-- The number of nodes on a longest path from the root to a leaf. -/
def height : Expr → Nat
  | literal _ => 1
  | identifier _ => 1
  | unary _ e => e.height + 1
  | binary l _ r => max l.height r.height + 1
  | paren e => e.height + 1
  | index b i => max b.height i.height + 1
  | member b _ => b.height + 1

/-! ## Operator-first notation -/

/-- A group in parentheses, its parts separated by spaces. -/
def group (parts : List String) : String := "(" ++ " ".intercalate parts ++ ")"

/-- The tree with each operator in front of its operands. Literals are shown as they were
written. -/
def display : Expr → String
  | literal l => l.raw
  | identifier name => name
  | unary op e => group [op.text, e.display]
  | binary l op r => group [op.text, l.display, r.display]
  | paren e => group ["group", e.display]
  | index b i => group ["index", b.display, i.display]
  | member b name => group [".", b.display, name]

end Expr

end Reckon
