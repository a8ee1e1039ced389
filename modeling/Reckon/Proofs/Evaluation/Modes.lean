import Reckon.Evaluation.Basic

/-!
# The two ways to evaluate

An expression is evaluated as a value or, as the base of an index or of a member, as a datum. Each
way is the other one with a step behind it: what a name, an index or a member leads to is turned
into a value, and what an operator or a literal yields is put back among the data.
-/

namespace Reckon.Expr

variable {env : Environment}

/-! ## Turning a datum into a value -/

theorem evaluate_identifier (name : String) :
    (identifier name).evaluate env = (identifier name).resolve env >>= (·.toValue name) := by
  rw [evaluate, resolve]

theorem evaluate_index (b i : Expr) :
    (index b i).evaluate env = (index b i).resolve env >>= (·.toValue itemName) := by
  rw [evaluate, resolve]
  simp only [bind_assoc]

theorem evaluate_member (b : Expr) (name : String) :
    (member b name).evaluate env = (member b name).resolve env >>= (·.toValue name) := by
  rw [evaluate, resolve, bind_assoc]

/-! ## Putting a value back among the data -/

theorem resolve_literal (l : Literal) :
    (literal l).resolve env = ((literal l).evaluate env).map Datum.ofValue := by
  rw [evaluate, resolve]
  rfl

theorem resolve_unary (op : UnaryOp) (e : Expr) :
    (unary op e).resolve env = ((unary op e).evaluate env).map Datum.ofValue := by
  rw [evaluate, resolve]
  cases e.evaluate env with
  | error err => rfl
  | ok v => cases op.apply v <;> rfl

theorem resolve_binary (l : Expr) (op : BinaryOp) (r : Expr) :
    (binary l op r).resolve env = ((binary l op r).evaluate env).map Datum.ofValue := by
  rw [evaluate, resolve]
  cases l.evaluate env with
  | error err => rfl
  | ok a =>
    cases r.evaluate env with
    | error err => rfl
    | ok b => cases op.apply a b <;> rfl

end Reckon.Expr
