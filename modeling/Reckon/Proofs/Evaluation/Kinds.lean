import Reckon.Proofs.Evaluation.Modes

/-!
# Kinds are known beforehand

The kind of an expression can be told from the kinds of its names (`Expr.kind?`), before any value
is known. In an environment of scalars this foretells the evaluation
(`Expr.evaluate_predicted`):

* an expression with a kind has a value of this kind, or it fails for a reason that lies in the
  values: a division by zero, an overflow or an index out of bounds
* an expression without a kind fails

The second half needs that every operand is evaluated, whatever the others are: an operand without
a kind can never be passed over.
-/

namespace Reckon

/-! ## Kinds of operations -/

/-- The kinds of numbers. -/
def Kind.isNumeric : Kind → Bool
  | integer | float => true
  | _ => false

/-- The kind of what an operator makes of an operand. -/
def UnaryOp.kind? : UnaryOp → Kind → Option Kind
  | plus, .integer | minus, .integer => some .integer
  | plus, .float | minus, .float => some .float
  | not, .bool => some .bool
  | _, _ => none

/-- Integers stay integers, and other numbers become floats. -/
def ArithmeticOp.kind? (op : ArithmeticOp) (a b : Kind) : Option Kind :=
  if a = .integer ∧ b = .integer then some .integer
  else if a.isNumeric ∧ b.isNumeric then some .float
  else if op = add ∧ a = .string ∧ b = .string then some .string
  else none

/-- The kinds that can be compared. -/
def ComparisonOp.kind? (op : ComparisonOp) (a b : Kind) : Option Kind :=
  if a.isNumeric ∧ b.isNumeric then some .bool
  else if a = .string ∧ b = .string then some .bool
  else if a = .char ∧ b = .char then some .bool
  else if op.isEquality ∧ a = .bool ∧ b = .bool then some .bool
  else none

/-- The kind of what an operator makes of two operands. -/
def BinaryOp.kind? (op : BinaryOp) (a b : Kind) : Option Kind :=
  match op with
  | arithmetic op => op.kind? a b
  | integer _ => if a = .integer ∧ b = .integer then some .integer else none
  | logical _ => if a = .bool ∧ b = .bool then some .bool else none
  | comparison op => op.kind? a b
  | comma => none

/-- The kind of an item. Among the scalars only strings have items, and only integers count them. -/
def Kind.item? (base i : Kind) : Option Kind :=
  if base = .string ∧ i = .integer then some .char else none

/-! ## Kinds of expressions -/

/-- The kind of an expression, if it has one, by the kinds of its names. -/
def Expr.kind? (kinds : String → Option Kind) : Expr → Option Kind
  | literal l => some l.value.kind
  | identifier name => kinds name
  | unary op e => (e.kind? kinds).bind op.kind?
  | binary l op r => (l.kind? kinds).bind fun a => (r.kind? kinds).bind fun b => op.kind? a b
  | paren e => e.kind? kinds
  | index base i => (base.kind? kinds).bind fun a => (i.kind? kinds).bind fun b => a.item? b
  | member _ _ => none

/-- The kind of the value that a datum stands for. -/
def Datum.scalarKind? : Datum → Option Kind
  | int _ => some .integer
  | uint n => if n.toNat < 0x8000000000000000 then some .integer else none
  | float _ => some .float
  | string _ => some .string
  | bool _ => some .bool
  | char _ => some .char
  | list _ | record _ => none

namespace Environment

/-- Every name stands for a scalar. -/
def Scalar (env : Environment) : Prop :=
  ∀ name d, env.find? name = some d → ∃ k, d.scalarKind? = some k

/-- The kinds of the names. -/
def kinds (env : Environment) (name : String) : Option Kind :=
  (env.find? name).bind Datum.scalarKind?

theorem Scalar.empty : Environment.empty.Scalar := fun _ _ h => by cases h

theorem Scalar.insert {env : Environment} (h : env.Scalar) (name : String) {d : Datum} {k : Kind}
    (hd : d.scalarKind? = some k) : (env.insert name d).Scalar := by
  intro other e he
  by_cases hn : other = name
  · subst hn
    rw [find?_insert_self] at he
    cases he
    exact ⟨k, hd⟩
  · rw [find?_insert_of_ne env hn] at he
    exact h other e he

end Environment

/-! ## Predictions -/

/-- The reason for the failure lies in the values and not in their kinds. -/
def EvalError.isRuntime : EvalError → Bool
  | divisionByZero _ | overflow _ | indexOutOfBounds _ _ => true
  | _ => false

/-- The result `r` is as the kind `k` foretells; `R` relates what is found to its kind. -/
def Predicted {α : Type} (R : α → Kind → Prop) (k : Option Kind) (r : Except EvalError α) : Prop :=
  match k with
  | some k => (∃ a, r = .ok a ∧ R a k) ∨ ∃ e, r = .error e ∧ e.isRuntime = true
  | none => ∃ e, r = .error e

namespace Predicted

variable {α β : Type} {R : α → Kind → Prop} {S : β → Kind → Prop}

theorem ok {a : α} {k : Kind} (h : R a k) : Predicted R (some k) (.ok a) := .inl ⟨a, rfl, h⟩

/-- A failure that lies in the values may always happen. -/
theorem runtime {e : EvalError} (h : e.isRuntime = true) (k : Option Kind) :
    Predicted R k (.error e) := by
  cases k with
  | some k => exact .inr ⟨e, rfl, h⟩
  | none => exact ⟨e, rfl⟩

theorem error (e : EvalError) : Predicted R none (.error e) := ⟨e, rfl⟩

/-- What goes on from a result is foretold by what goes on from its kind. -/
theorem bind {k : Option Kind} {r : Except EvalError α} {f : Kind → Option Kind}
    {g : α → Except EvalError β} (hr : Predicted R k r)
    (hg : ∀ a i, R a i → Predicted S (f i) (g a)) : Predicted S (k.bind f) (r >>= g) := by
  cases k with
  | some i =>
    rcases hr with ⟨a, rfl, ha⟩ | ⟨e, rfl, he⟩
    · exact hg a i ha
    · exact runtime he (f i)
  | none =>
    obtain ⟨e, rfl⟩ := hr
    exact error e

theorem map {k : Option Kind} {r : Except EvalError α} {f : α → β} (hr : Predicted R k r)
    (hf : ∀ a i, R a i → S (f a) i) : Predicted S k (r.map f) := by
  have hbind : r.map f = r >>= fun a => .ok (f a) := by cases r <;> rfl
  rw [hbind, ← Option.bind_fun_some k]
  exact hr.bind fun a i ha => ok (hf a i ha)

end Predicted

/-- The value is of this kind. -/
def Value.OfKind (v : Value) (k : Kind) : Prop := v.kind = k

/-- The datum is a scalar that stands for a value of this kind. -/
def Datum.OfKind (d : Datum) (k : Kind) : Prop := d.scalarKind? = some k

/-! ## Operators -/

theorem checked_predicted (op : Operator) (n : Int) :
    Predicted Value.OfKind (some .integer) (checked op n) := by
  unfold checked
  split
  · exact .ok rfl
  · exact .runtime rfl _

theorem shift_predicted (op : IntegerOp) (f : Int64 → Int64 → Int64) (a b : Int64) :
    Predicted Value.OfKind (some .integer) (shift op f a b) := by
  unfold shift
  split
  · exact .ok rfl
  · exact .runtime rfl _

theorem UnaryOp.apply_predicted (op : UnaryOp) (v : Value) :
    Predicted Value.OfKind (op.kind? v.kind) (op.apply v) := by
  cases op with
  | plus => cases v <;> first | exact .ok rfl | exact .error _
  | minus =>
    cases v with
    | integer n => exact checked_predicted _ _
    | float x => exact .ok rfl
    | _ => exact .error _
  | not => cases v <;> first | exact .ok rfl | exact .error _
  | xor => exact .error _
  | bitNot => exact .error _

theorem ArithmeticOp.onIntegers_predicted (op : ArithmeticOp) (a b : Int64) :
    Predicted Value.OfKind (some .integer) (op.onIntegers a b) := by
  cases op with
  | div =>
    rw [onIntegers]
    split
    · exact .runtime rfl _
    · exact checked_predicted _ _
  | _ => exact checked_predicted _ _

theorem ArithmeticOp.onFloats_predicted (op : ArithmeticOp) (a b : Float32) :
    Predicted Value.OfKind (some .float) (op.onFloats a b) := by
  cases op with
  | div =>
    rw [onFloats]
    split
    · exact .runtime rfl _
    · exact .ok rfl
  | _ => exact .ok rfl

theorem ArithmeticOp.apply_predicted (op : ArithmeticOp) (a b : Value) :
    Predicted Value.OfKind (op.kind? a.kind b.kind) (op.apply a b) := by
  cases a <;> cases b
  case integer.integer => exact op.onIntegers_predicted _ _
  case integer.float => exact op.onFloats_predicted _ _
  case float.integer => exact op.onFloats_predicted _ _
  case float.float => exact op.onFloats_predicted _ _
  case string.string => cases op <;> first | exact .ok rfl | exact .error _
  all_goals cases op <;> exact .error _

theorem IntegerOp.onIntegers_predicted (op : IntegerOp) (a b : Int64) :
    Predicted Value.OfKind (some .integer) (op.onIntegers a b) := by
  cases op with
  | rem =>
    rw [onIntegers]
    split
    · exact .runtime rfl _
    · exact .ok rfl
  | shl => exact shift_predicted _ _ _ _
  | shr => exact shift_predicted _ _ _ _
  | _ => exact .ok rfl

theorem ComparisonOp.apply_predicted (op : ComparisonOp) (a b : Value) :
    Predicted Value.OfKind (op.kind? a.kind b.kind) (op.apply a b) := by
  cases a <;> cases b <;> cases op <;> first | exact .ok rfl | exact .error _

theorem BinaryOp.apply_predicted (op : BinaryOp) (a b : Value) :
    Predicted Value.OfKind (op.kind? a.kind b.kind) (op.apply a b) := by
  cases op with
  | arithmetic op => exact op.apply_predicted a b
  | integer op =>
    cases a <;> cases b
    case integer.integer => exact op.onIntegers_predicted _ _
    all_goals exact .error _
  | logical op =>
    cases a <;> cases b
    case bool.bool => cases op <;> exact .ok rfl
    all_goals exact .error _
  | comparison op => exact op.apply_predicted a b
  | comma => exact .error _

/-! ## Data -/

namespace Datum

theorem ofValue_ofKind (v : Value) : (ofValue v).OfKind v.kind := by
  cases v <;> rfl

/-- A scalar stands for a value of its kind. -/
theorem OfKind.toValue? {d : Datum} {k : Kind} (h : d.OfKind k) :
    ∃ v, d.toValue? = some v ∧ v.OfKind k := by
  cases d with
  | uint n =>
    rw [OfKind, scalarKind?] at h
    split at h
    next hn =>
      cases h
      rw [Datum.toValue?, if_pos hn]
      exact ⟨_, rfl, rfl⟩
    · cases h
  | list items => cases h
  | record fields => cases h
  | _ => cases h; exact ⟨_, rfl, rfl⟩

theorem toValue_predicted {d : Datum} {k : Kind} (h : d.OfKind k) (name : String) :
    Predicted Value.OfKind (some k) (d.toValue name) := by
  obtain ⟨v, hv, hk⟩ := h.toValue?
  rw [toValue, hv]
  exact .ok hk

/-- Turning scalars into values keeps their kinds. -/
theorem predicted_toValue {k : Option Kind} {r : Except EvalError Datum}
    (h : Predicted OfKind k r) (name : String) :
    Predicted Value.OfKind k (r >>= (·.toValue name)) := by
  rw [← Option.bind_fun_some k]
  exact h.bind fun d i hd => toValue_predicted hd name

/-- Putting values back among the data keeps their kinds. -/
theorem predicted_ofValue {k : Option Kind} {r : Except EvalError Value}
    (h : Predicted Value.OfKind k r) : Predicted OfKind k (r.map ofValue) :=
  h.map fun v _ hv => hv ▸ ofValue_ofKind v

theorem itemAt_predicted {α : Type} {R : α → Kind → Prop} {k : Kind} {items : List α}
    (h : ∀ a ∈ items, R a k) (i : Int64) : Predicted R (some k) (itemAt items i) := by
  unfold itemAt
  split
  next a ha =>
    split at ha
    · exact .ok (h a (List.mem_of_getElem? ha))
    · cases ha
  · exact .runtime rfl _

/-- Only an integer counts the characters of a string, and no other scalar has items. -/
theorem select_predicted {d : Datum} {v : Value} {a b : Kind} (hd : d.OfKind a) (hv : v.OfKind b) :
    Predicted OfKind (a.item? b) (d.select v) := by
  cases hv
  cases v with
  | integer n =>
    cases d with
    | string s =>
      cases hd
      have hchar : Predicted (fun _ k => k = .char) (some .char) (itemAt s.toList n) :=
        itemAt_predicted (fun _ _ => rfl) n
      exact hchar.map fun c k hk => hk ▸ rfl
    | uint m =>
      rw [OfKind, scalarKind?] at hd
      split at hd
      · cases hd
        exact .error _
      · cases hd
    | list items => cases hd
    | record fields => cases hd
    | _ => cases hd; exact .error _
  | _ => cases a <;> exact .error _

/-- No scalar has members. -/
theorem member_predicted {d : Datum} {k : Kind} (h : d.OfKind k) (name : String) :
    Predicted OfKind none (d.member name) := by
  cases d with
  | record fields => cases h
  | _ => exact .error _

end Datum

/-! ## Every expression -/

theorem Environment.Scalar.lookup_predicted {env : Environment} (h : env.Scalar) (name : String) :
    Predicted Datum.OfKind (env.kinds name) (env.lookup name) := by
  unfold kinds lookup
  cases hd : env.find? name with
  | none => exact .error _
  | some d =>
    obtain ⟨k, hk⟩ := h name d hd
    rw [Option.bind_some, hk]
    exact .ok hk

namespace Expr

variable {env : Environment}

/-- Both ways to evaluate are foretold at once, because each one calls the other. -/
theorem predicted (h : env.Scalar) (e : Expr) :
    Predicted Value.OfKind (e.kind? env.kinds) (e.evaluate env) ∧
      Predicted Datum.OfKind (e.kind? env.kinds) (e.resolve env) := by
  induction e with
  | literal l => exact ⟨.ok rfl, .ok (Datum.ofValue_ofKind l.value)⟩
  | identifier name =>
    have hresolve := h.lookup_predicted name
    rw [evaluate_identifier]
    exact ⟨Datum.predicted_toValue hresolve name, hresolve⟩
  | unary op e ih =>
    -- as a datum it is the same value put back, so one prediction serves both ways
    have hevaluate : Predicted Value.OfKind ((unary op e).kind? env.kinds)
        ((unary op e).evaluate env) := by
      rw [evaluate]
      exact ih.1.bind fun v k hv => hv ▸ op.apply_predicted v
    rw [resolve_unary]
    exact ⟨hevaluate, Datum.predicted_ofValue hevaluate⟩
  | binary l op r ihl ihr =>
    have hevaluate : Predicted Value.OfKind ((binary l op r).kind? env.kinds)
        ((binary l op r).evaluate env) := by
      rw [evaluate]
      refine ihl.1.bind fun a i ha => ihr.1.bind fun b j hb => ?_
      rw [← ha, ← hb]
      exact op.apply_predicted a b
    rw [resolve_binary]
    exact ⟨hevaluate, Datum.predicted_ofValue hevaluate⟩
  | paren e ih => exact ih
  | index b i ihb ihi =>
    have hresolve : Predicted Datum.OfKind ((index b i).kind? env.kinds)
        ((index b i).resolve env) := by
      rw [resolve]
      exact ihb.2.bind fun d a hd => ihi.1.bind fun v k hv => Datum.select_predicted hd hv
    rw [evaluate_index]
    exact ⟨Datum.predicted_toValue hresolve itemName, hresolve⟩
  | member b name ih =>
    have hresolve : Predicted Datum.OfKind ((member b name).kind? env.kinds)
        ((member b name).resolve env) := by
      rw [resolve, kind?, ← Option.bind_fun_none (b.kind? env.kinds)]
      exact ih.2.bind fun d k hd => Datum.member_predicted hd name
    rw [evaluate_member]
    exact ⟨Datum.predicted_toValue hresolve name, hresolve⟩

/--
**Kinds foretell the evaluation.**

Where every name stands for a scalar, an expression with a kind has a value of this kind or fails
for a reason that lies in the values, and an expression without a kind fails.
-/
theorem evaluate_predicted (h : env.Scalar) (e : Expr) :
    (∀ k, e.kind? env.kinds = some k →
      (∃ v, e.evaluate env = .ok v ∧ v.kind = k) ∨
        ∃ err, e.evaluate env = .error err ∧ err.isRuntime = true) ∧
    (e.kind? env.kinds = none → ∃ err, e.evaluate env = .error err) := by
  have hp := (predicted h e).1
  constructor
  · intro k hk
    rw [hk] at hp
    exact hp
  · intro hk
    rw [hk] at hp
    exact hp

/-- A character of a string, counted by an integer without a sign. -/
theorem evaluate_predicted_item :
    let env := (Environment.empty.insert "s" (.string "ab")).insert "n" (.uint 1)
    let e := index (identifier "s") (identifier "n")
    env.Scalar ∧ e.kind? env.kinds = some .char ∧
      ((∃ v, e.evaluate env = .ok v ∧ v.kind = .char) ∨
        ∃ err, e.evaluate env = .error err ∧ err.isRuntime = true) := by
  intro env e
  have h : env.Scalar := (Environment.Scalar.empty.insert "s" rfl).insert "n" rfl
  have hk : e.kind? env.kinds = some .char := rfl
  exact ⟨h, hk, (evaluate_predicted h e).1 .char hk⟩

end Expr

end Reckon
