import Reckon.Proofs.Evaluation.Modes

/-!
# The names of an expression

An evaluation looks up the names of its expression (`Expr.names`) and nothing else. Members have
names too, but they are looked up in a record.

So two environments that agree on the names of an expression give it the same answer. This is shown
for more than agreement: for any relation that the operations on data and values keep
(`Compatible`), related data under the names lead to related answers (`Compatible.evaluate`).

And every name is looked up, since every operand is evaluated. So a name that stands for nothing is
an error, unless another one comes first, and an error of this kind tells of such a name
(`Requires`). Errors of operators and of items tell of no name at all (`Nameless`); what is true of
the names that the other errors tell of is handed on along an evaluation (`Tells`).
-/

namespace Reckon

/-- The names that an expression looks up, from left to right. -/
def Expr.names : Expr → List String
  | literal _ => []
  | identifier name => [name]
  | unary _ e => e.names
  | binary l _ r => l.names ++ r.names
  | paren e => e.names
  | index b i => b.names ++ i.names
  | member b _ => b.names

/-! ## Related answers -/

/-- Both answers are results that are related, or both are the same error. -/
inductive Related {ε α β : Type} (R : α → β → Prop) : Except ε α → Except ε β → Prop
  | ok {a : α} {b : β} (h : R a b) : Related R (.ok a) (.ok b)
  | error (e : ε) : Related R (.error e) (.error e)

namespace Related

variable {ε α β γ δ : Type} {R : α → β → Prop} {S : γ → δ → Prop}

theorem refl {R : α → α → Prop} (h : ∀ a, R a a) (x : Except ε α) : Related R x x := by
  cases x with
  | ok a => exact .ok (h a)
  | error e => exact .error e

theorem bind {x : Except ε α} {y : Except ε β} {f : α → Except ε γ} {g : β → Except ε δ}
    (h : Related R x y) (hfg : ∀ a b, R a b → Related S (f a) (g b)) :
    Related S (x >>= f) (y >>= g) := by
  cases h with
  | ok h => exact hfg _ _ h
  | error e => exact .error e

theorem map {x : Except ε α} {y : Except ε β} {f : α → γ} {g : β → δ} (h : Related R x y)
    (hfg : ∀ a b, R a b → S (f a) (g b)) : Related S (x.map f) (y.map g) := by
  cases h with
  | ok h => exact .ok (hfg _ _ h)
  | error e => exact .error e

theorem eq_iff {x y : Except ε α} : Related Eq x y ↔ x = y := by
  constructor
  · rintro (rfl | e) <;> rfl
  · rintro rfl
    exact refl (fun _ => rfl) x

end Related

/-- No operation tells related data apart, nor related values. -/
structure Compatible (R : Datum → Datum → Prop) (S : Value → Value → Prop) : Prop where
  same : ∀ v, S v v
  toValue : ∀ {d d'}, R d d' → ∀ name, Related S (d.toValue name) (d'.toValue name)
  ofValue : ∀ {v v'}, S v v' → R (.ofValue v) (.ofValue v')
  unary : ∀ {v v'} (op : UnaryOp), S v v' → Related S (op.apply v) (op.apply v')
  binary : ∀ {v v' w w'} (op : BinaryOp), S v v' → S w w' →
    Related S (op.apply v w) (op.apply v' w')
  select : ∀ {d d' v v'}, R d d' → S v v' → Related R (d.select v) (d'.select v')
  member : ∀ {d d'}, R d d' → ∀ name, Related R (d.member name) (d'.member name)

theorem Environment.lookup_related {R : Datum → Datum → Prop} {env env' : Environment}
    {name : String} (h : Option.Rel R (env.find? name) (env'.find? name)) :
    Related R (env.lookup name) (env'.lookup name) := by
  unfold lookup
  generalize env.find? name = d, env'.find? name = d' at h
  cases h with
  | some h => exact .ok h
  | none => exact .error _

/-- **Environments with related data under the names of an expression give it related answers.** -/
theorem Compatible.evaluate {R : Datum → Datum → Prop} {S : Value → Value → Prop}
    (hc : Compatible R S) {env env' : Environment} {e : Expr}
    (h : ∀ x ∈ e.names, Option.Rel R (env.find? x) (env'.find? x)) :
    Related S (e.evaluate env) (e.evaluate env') ∧ Related R (e.resolve env) (e.resolve env') := by
  induction e with
  | literal l =>
    rw [Expr.evaluate, Expr.evaluate, Expr.resolve, Expr.resolve]
    exact ⟨.ok (hc.same _), .ok (hc.ofValue (hc.same _))⟩
  | identifier name =>
    have hlookup := Environment.lookup_related (h name List.mem_cons_self)
    rw [Expr.evaluate_identifier, Expr.evaluate_identifier, Expr.resolve, Expr.resolve]
    exact ⟨hlookup.bind fun d d' hd => hc.toValue hd name, hlookup⟩
  | unary op e ih =>
    have happly : Related S ((Expr.unary op e).evaluate env) ((Expr.unary op e).evaluate env') := by
      rw [Expr.evaluate, Expr.evaluate]
      exact (ih h).1.bind fun v v' hv => hc.unary op hv
    rw [Expr.resolve_unary, Expr.resolve_unary]
    exact ⟨happly, happly.map fun v v' hv => hc.ofValue hv⟩
  | binary l op r ihl ihr =>
    have hl := (ihl fun x hx => h x (List.mem_append_left _ hx)).1
    have hr := (ihr fun x hx => h x (List.mem_append_right _ hx)).1
    have happly :
        Related S ((Expr.binary l op r).evaluate env) ((Expr.binary l op r).evaluate env') := by
      rw [Expr.evaluate, Expr.evaluate]
      exact hl.bind fun v v' hv => hr.bind fun w w' hw => hc.binary op hv hw
    rw [Expr.resolve_binary, Expr.resolve_binary]
    exact ⟨happly, happly.map fun v v' hv => hc.ofValue hv⟩
  | paren e ih =>
    rw [Expr.evaluate, Expr.evaluate, Expr.resolve, Expr.resolve]
    exact ih h
  | index b i ihb ihi =>
    have hb := (ihb fun x hx => h x (List.mem_append_left _ hx)).2
    have hi := (ihi fun x hx => h x (List.mem_append_right _ hx)).1
    have hselect : Related R ((Expr.index b i).resolve env) ((Expr.index b i).resolve env') := by
      rw [Expr.resolve, Expr.resolve]
      exact hb.bind fun d d' hd => hi.bind fun v v' hv => hc.select hd hv
    rw [Expr.evaluate_index, Expr.evaluate_index]
    exact ⟨hselect.bind fun d d' hd => hc.toValue hd _, hselect⟩
  | member b name ih =>
    have hmember :
        Related R ((Expr.member b name).resolve env) ((Expr.member b name).resolve env') := by
      rw [Expr.resolve, Expr.resolve]
      exact (ih h).2.bind fun d d' hd => hc.member hd name
    rw [Expr.evaluate_member, Expr.evaluate_member]
    exact ⟨hmember.bind fun d d' hd => hc.toValue hd _, hmember⟩

/-! ## Agreement -/

/-- Nothing tells the same apart. -/
theorem compatible_eq : Compatible Eq Eq where
  same _ := rfl
  toValue h _ := Related.eq_iff.mpr (h ▸ rfl)
  ofValue h := h ▸ rfl
  unary _ h := Related.eq_iff.mpr (h ▸ rfl)
  binary _ h h' := Related.eq_iff.mpr (h ▸ h' ▸ rfl)
  select h h' := Related.eq_iff.mpr (h ▸ h' ▸ rfl)
  member h _ := Related.eq_iff.mpr (h ▸ rfl)

/-- **Environments that agree on the names of an expression give it the same answer.** -/
theorem Expr.evaluate_congr {env env' : Environment} {e : Expr}
    (h : ∀ x ∈ e.names, env.find? x = env'.find? x) :
    e.evaluate env = e.evaluate env' ∧ e.resolve env = e.resolve env' := by
  have hrel : ∀ x ∈ e.names, Option.Rel Eq (env.find? x) (env'.find? x) := fun x hx => by
    rw [h x hx]
    cases env'.find? x with
    | none => exact .none
    | some d => exact .some rfl
  obtain ⟨hvalue, hdatum⟩ := compatible_eq.evaluate hrel
  exact ⟨Related.eq_iff.mp hvalue, Related.eq_iff.mp hdatum⟩

/-! ## Names in errors -/

/-- The name that an error tells of. -/
def EvalError.name? : EvalError → Option String
  | undefinedIdentifier name | unsupportedValue name _ => some name
  | undefinedMember name | notARecord name _ => some name
  | _ => none

/-- There is a result, or an error that tells of no name. -/
inductive Nameless {α : Type} : Except EvalError α → Prop
  | result (a : α) : Nameless (.ok a)
  | error {err : EvalError} (h : err.name? = none) : Nameless (.error err)

namespace Nameless

variable {α β : Type}

theorem map {r : Except EvalError α} (f : α → β) (h : Nameless r) : Nameless (r.map f) := by
  cases h with
  | result a => exact .result (f a)
  | error h => exact .error h

theorem checked (op : Operator) (n : Int) : Nameless (Reckon.checked op n) := by
  unfold Reckon.checked
  split
  · exact .result _
  · exact .error rfl

theorem shift (op : IntegerOp) (f : Int64 → Int64 → Int64) (a b : Int64) :
    Nameless (Reckon.shift op f a b) := by
  unfold Reckon.shift
  split
  · exact .result _
  · exact .error rfl

theorem unary (op : UnaryOp) (v : Value) : Nameless (op.apply v) := by
  unfold UnaryOp.apply
  split
  case h_3 => exact .checked _ _
  all_goals first | exact .result _ | exact .error rfl

theorem onIntegers (op : ArithmeticOp) (a b : Int64) : Nameless (op.onIntegers a b) := by
  cases op with
  | div =>
    rw [ArithmeticOp.onIntegers]
    split
    · exact .error rfl
    · exact .checked _ _
  | _ => exact .checked _ _

theorem onFloats (op : ArithmeticOp) (a b : Float32) : Nameless (op.onFloats a b) := by
  cases op with
  | div =>
    rw [ArithmeticOp.onFloats]
    split
    · exact .error rfl
    · exact .result _
  | _ => exact .result _

theorem binary (op : BinaryOp) (a b : Value) : Nameless (op.apply a b) := by
  cases op with
  | arithmetic op =>
    rw [BinaryOp.apply]
    unfold ArithmeticOp.apply
    split
    case h_1 => exact .onIntegers op _ _
    case h_2 | h_3 | h_4 => exact .onFloats op _ _
    case h_5 =>
      split
      · exact .result _
      · exact .error rfl
    case h_6 => exact .error rfl
  | integer op =>
    rw [BinaryOp.apply]
    unfold IntegerOp.apply
    split
    · cases op with
      | rem =>
        rw [IntegerOp.onIntegers]
        split
        · exact .error rfl
        · exact .result _
      | shl => exact .shift _ _ _ _
      | shr => exact .shift _ _ _ _
      | _ => exact .result _
    · exact .error rfl
  | logical op =>
    rw [BinaryOp.apply]
    unfold LogicalOp.apply
    split
    · cases op <;> exact .result _
    · exact .error rfl
  | comparison op =>
    rw [BinaryOp.apply]
    unfold ComparisonOp.apply
    split
    case h_7 =>
      split
      · exact .result _
      · exact .error rfl
    case h_8 => exact .error rfl
    all_goals exact .result _
  | comma => exact .error rfl

theorem itemAt (items : List α) (i : Int64) : Nameless (Datum.itemAt items i) := by
  unfold Datum.itemAt
  split
  · exact .result _
  · exact .error rfl

theorem select (d : Datum) (v : Value) : Nameless (d.select v) := by
  unfold Datum.select
  split
  · unfold Datum.item
    split
    · exact .itemAt _ _
    · exact (itemAt _ _).map _
    · exact .error rfl
  · exact .error rfl

end Nameless

/-- An error that tells of a name tells of one with this property. -/
def Tells (P : String → Prop) {α : Type} (r : Except EvalError α) : Prop :=
  ∀ err, r = .error err → ∀ x ∈ err.name?, P x

namespace Tells

variable {P : String → Prop} {α β : Type} {r : Except EvalError α}

theorem of_nameless (h : Nameless r) : Tells P r := by
  rintro err rfl x hx
  cases h with
  | error hnone => simp [hnone] at hx

theorem bind {f : α → Except EvalError β} (h : Tells P r) (hf : ∀ a, Tells P (f a)) :
    Tells P (r >>= f) := by
  cases r with
  | ok a => exact hf a
  | error err =>
    rintro _ ⟨⟩ x hx
    exact h err rfl x hx

theorem map {f : α → β} (h : Tells P r) : Tells P (r.map f) := by
  cases r with
  | ok a => nofun
  | error err =>
    rintro _ ⟨⟩ x hx
    exact h err rfl x hx

theorem toValue {name : String} (h : P name) (d : Datum) : Tells P (d.toValue name) := by
  rintro err herr x hx
  unfold Datum.toValue at herr
  split at herr <;> cases herr
  cases hx
  exact h

theorem member {name : String} (h : P name) (d : Datum) : Tells P (d.member name) := by
  rintro err herr x hx
  unfold Datum.member at herr
  split at herr
  · split at herr <;> cases herr
    cases hx
    exact h
  · cases herr
    cases hx
    exact h

theorem lookup {env : Environment} {name : String} (h : P name) : Tells P (env.lookup name) := by
  rintro err herr x hx
  unfold Environment.lookup at herr
  split at herr <;> cases herr
  cases hx
  exact h

end Tells

/-! ## Names that stand for nothing -/

/-- The error is about a name that stands for nothing. -/
def EvalError.isUnbound : EvalError → Bool
  | undefinedIdentifier _ => true
  | _ => false

/-- A result is there only if all the names stand for something, and an error about a name that
stands for nothing is about one of them. -/
inductive Requires {α : Type} (env : Environment) (names : List String) : Except EvalError α → Prop
  | found {a : α} (h : ∀ x ∈ names, env.find? x ≠ none) : Requires env names (.ok a)
  | unbound {x : String} (h : x ∈ names) (hx : env.find? x = none) :
    Requires env names (.error (.undefinedIdentifier x))
  | other {err : EvalError} (h : err.isUnbound = false) : Requires env names (.error err)

namespace Requires

variable {α β : Type} {env : Environment} {xs ys : List String}

theorem bind {r : Except EvalError α} {f : α → Except EvalError β} (h : Requires env xs r)
    (hf : ∀ a, Requires env ys (f a)) : Requires env (xs ++ ys) (r >>= f) := by
  cases h with
  | unbound h hx => exact .unbound (List.mem_append_left _ h) hx
  | other h => exact .other h
  | @found a hxs =>
    have hfa := hf a
    show Requires env (xs ++ ys) (f a)
    generalize f a = s at hfa
    cases hfa with
    | found hys =>
      refine .found fun x hx => ?_
      rcases List.mem_append.mp hx with hx | hx
      · exact hxs x hx
      · exact hys x hx
    | unbound h hx => exact .unbound (List.mem_append_right _ h) hx
    | other h => exact .other h

/-- What goes on without a look-up requires no more names. -/
theorem andThen {r : Except EvalError α} {f : α → Except EvalError β} (h : Requires env xs r)
    (hf : ∀ a, Requires env [] (f a)) : Requires env xs (r >>= f) :=
  List.append_nil xs ▸ h.bind hf

theorem map {r : Except EvalError α} (f : α → β) (h : Requires env xs r) :
    Requires env xs (r.map f) := by
  cases h with
  | found h => exact .found h
  | unbound h hx => exact .unbound h hx
  | other h => exact .other h

/-! ### Operations look up nothing -/

theorem result (a : α) : Requires env [] (.ok a) := .found (by simp)

theorem of_nameless {r : Except EvalError α} (h : Nameless r) : Requires env [] r := by
  cases h with
  | result a => exact .result a
  | @error err h =>
    refine .other ?_
    cases err with
    | undefinedIdentifier name => cases h
    | _ => rfl

theorem toValue (d : Datum) (name : String) : Requires env [] (d.toValue name) := by
  unfold Datum.toValue
  split
  · exact .result _
  · exact .other rfl

theorem member (d : Datum) (name : String) : Requires env [] (d.member name) := by
  unfold Datum.member
  split
  · split
    · exact .result _
    · exact .other rfl
  · exact .other rfl

end Requires

/-- **An evaluation looks up all the names of its expression, and reports no other name.** -/
theorem Expr.requires (env : Environment) (e : Expr) :
    Requires env e.names (e.evaluate env) ∧ Requires env e.names (e.resolve env) := by
  induction e with
  | literal l =>
    rw [evaluate, resolve]
    exact ⟨.result _, .result _⟩
  | identifier name =>
    have hlookup : Requires env [name] (env.lookup name) := by
      unfold Environment.lookup
      split
      next d hd => exact .found (List.forall_mem_singleton.mpr (by simp [hd]))
      next hnone => exact .unbound List.mem_cons_self hnone
    rw [evaluate_identifier, resolve]
    exact ⟨hlookup.andThen fun d => .toValue d name, hlookup⟩
  | unary op e ih =>
    have happly : Requires env e.names ((Expr.unary op e).evaluate env) := by
      rw [evaluate]
      exact ih.1.andThen fun v => .of_nameless (.unary op v)
    rw [resolve_unary]
    exact ⟨happly, happly.map _⟩
  | binary l op r ihl ihr =>
    have happly : Requires env (l.names ++ r.names) ((Expr.binary l op r).evaluate env) := by
      rw [evaluate]
      exact ihl.1.bind fun v => ihr.1.andThen fun w => .of_nameless (.binary op v w)
    rw [resolve_binary]
    exact ⟨happly, happly.map _⟩
  | paren e ih =>
    rw [evaluate, resolve]
    exact ih
  | index b i ihb ihi =>
    have hselect : Requires env (b.names ++ i.names) ((Expr.index b i).resolve env) := by
      rw [resolve]
      exact ihb.2.bind fun d => ihi.1.andThen fun v => .of_nameless (.select d v)
    rw [evaluate_index]
    exact ⟨hselect.andThen fun d => .toValue d _, hselect⟩
  | member b name ih =>
    have hmember : Requires env b.names ((Expr.member b name).resolve env) := by
      rw [resolve]
      exact ih.2.andThen fun d => .member d name
    rw [evaluate_member]
    exact ⟨hmember.andThen fun d => .toValue d _, hmember⟩

end Reckon
