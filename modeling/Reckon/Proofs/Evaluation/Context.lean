import Reckon.Proofs.Binary.Widening
import Reckon.Proofs.Evaluation.Names

/-!
# Expressions in contexts

A part of an expression may be evaluated beforehand: its value can take its place as a literal, or
under a name that does not occur (`Context.evaluate_fill_bound`). The answer is the same, values and
errors alike.

There is one exception, and it concerns a message. Where the part is a base and leads to an integer
without a sign, an error that tells the kind of the base tells of an integer with a sign instead:
values have no other kind of integer.
-/

namespace Reckon

/-! ## A datum and its value -/

namespace Datum

/-- The datum that holds a value stands for this value. -/
theorem toValue_ofValue (v : Value) (name : String) : (ofValue v).toValue name = .ok v := by
  cases v with
  | float x =>
    show Except.ok (Value.float (Double.narrow (Single.widen x))) = _
    rw [Double.narrow_widen]
  | _ => rfl

end Datum

/-- What leads to a value leads to a datum that stands for it. -/
theorem Expr.exists_resolve {env : Environment} {e : Expr} {v : Value}
    (h : e.evaluate env = .ok v) :
    ∃ d name, e.resolve env = .ok d ∧ Datum.toValue d name = .ok v := by
  have hdatum : ∀ {r : Except EvalError Datum} {name : String},
      r >>= (·.toValue name) = .ok v → ∃ d name, r = .ok d ∧ Datum.toValue d name = .ok v := by
    intro r name hr
    cases r with
    | error err => cases hr
    | ok d => exact ⟨d, name, rfl, hr⟩
  induction e with
  | literal l =>
    rw [evaluate] at h
    rw [resolve]
    cases h
    exact ⟨_, "", rfl, Datum.toValue_ofValue _ _⟩
  | identifier name =>
    rw [evaluate_identifier] at h
    exact hdatum h
  | unary op e ih =>
    rw [resolve_unary, h]
    exact ⟨_, "", rfl, Datum.toValue_ofValue v _⟩
  | binary l op r ihl ihr =>
    rw [resolve_binary, h]
    exact ⟨_, "", rfl, Datum.toValue_ofValue v _⟩
  | paren e ih =>
    rw [evaluate] at h
    rw [resolve]
    exact ih h
  | index b i ihb ihi =>
    rw [evaluate_index] at h
    exact hdatum h
  | member b name ih =>
    rw [evaluate_member] at h
    exact hdatum h

/-! ## Answers that differ in a kind -/

/-- Two errors about a base, an integer without a sign and one with a sign. -/
inductive EvalError.SignLost : EvalError → EvalError → Prop
  | notIndexable : SignLost (.notIndexable .unsigned) (.notIndexable (.scalar .integer))
  | notARecord (name : String) :
    SignLost (.notARecord name .unsigned) (.notARecord name (.scalar .integer))

/-- The answers are the same, but if `p` holds, the second may be an error that has lost the
sign. -/
def SameUnless {α : Type} (p : Prop) (r r' : Except EvalError α) : Prop :=
  r' = r ∨ p ∧ ∃ err err', r = .error err ∧ r' = .error err' ∧ err.SignLost err'

namespace SameUnless

variable {α β : Type} {p q : Prop} {r r' : Except EvalError α}

theorem of_eq (h : r' = r) : SameUnless p r r' := .inl h

theorem mono (h : SameUnless p r r') (hpq : p → q) : SameUnless q r r' :=
  h.imp_right (.imp_left hpq)

/-- What goes on in one way goes on from answers that are the same. -/
theorem bind (h : SameUnless p r r') (f : α → Except EvalError β) :
    SameUnless p (r >>= f) (r' >>= f) := by
  rcases h with rfl | ⟨hp, err, err', rfl, rfl, hlost⟩
  · exact .inl rfl
  · exact .inr ⟨hp, err, err', rfl, rfl, hlost⟩

theorem map (h : SameUnless p r r') (f : α → β) : SameUnless p (r.map f) (r'.map f) := by
  rcases h with rfl | ⟨hp, err, err', rfl, rfl, hlost⟩
  · exact .inl rfl
  · exact .inr ⟨hp, err, err', rfl, rfl, hlost⟩

/-- Where the first steps have one answer, the next ones count. -/
theorem bind_right (x : Except EvalError β) {f f' : β → Except EvalError α}
    (h : ∀ b, SameUnless p (f b) (f' b)) : SameUnless p (x >>= f) (x >>= f') := by
  cases x with
  | error err => exact .inl rfl
  | ok b => exact h b

end SameUnless

/-- The datum is an integer without a sign. -/
def Datum.IsUnsigned (d : Datum) : Prop := ∃ n, d = .uint n

namespace Datum

variable {d : Datum} {v : Value} {name : String}

theorem exists_integer {n : UInt64} (h : (uint n).toValue name = .ok v) : ∃ m, v = .integer m := by
  rw [toValue, toValue?] at h
  by_cases hn : n.toNat < 0x8000000000000000
  · rw [if_pos hn] at h
    cases h
    exact ⟨_, rfl⟩
  · rw [if_neg hn] at h
    cases h

/-- As the base of an index, a value can stand for the datum, but for the name of its kind. -/
theorem select_sameUnless (h : d.toValue name = .ok v) (i : Value) :
    SameUnless d.IsUnsigned (d.select i) ((ofValue v).select i) := by
  cases d with
  | uint n =>
    obtain ⟨m, rfl⟩ := exists_integer h
    cases i with
    | integer k => exact .inr ⟨⟨n, rfl⟩, _, _, rfl, rfl, .notIndexable⟩
    | _ => exact .inl rfl
  | list items => cases h
  | record fields => cases h
  | _ => cases h; cases i <;> exact .inl rfl

theorem member_sameUnless (h : d.toValue name = .ok v) (x : String) :
    SameUnless d.IsUnsigned (d.member x) ((ofValue v).member x) := by
  cases d with
  | uint n =>
    obtain ⟨m, rfl⟩ := exists_integer h
    exact .inr ⟨⟨n, rfl⟩, _, _, rfl, rfl, .notARecord x⟩
  | list items => cases h
  | record fields => cases h
  | _ => cases h; exact .inl rfl

end Datum

/-! ## Contexts -/

/-- An expression with a hole. -/
inductive Context
  | hole
  | unary (op : UnaryOp) (k : Context)
  | left (k : Context) (op : BinaryOp) (r : Expr)
  | right (l : Expr) (op : BinaryOp) (k : Context)
  | paren (k : Context)
  | base (k : Context) (i : Expr)
  | item (b : Expr) (k : Context)
  | member (k : Context) (name : String)

namespace Context

/-- The expression with `e` in the hole. -/
def fill : Context → Expr → Expr
  | hole, e => e
  | unary op k, e => .unary op (k.fill e)
  | left k op r, e => .binary (k.fill e) op r
  | right l op k, e => .binary l op (k.fill e)
  | paren k, e => .paren (k.fill e)
  | base k i, e => .index (k.fill e) i
  | item b k, e => .index b (k.fill e)
  | member k name, e => .member (k.fill e) name

/-- The names that are looked up outside of the hole. -/
def names : Context → List String
  | hole => []
  | unary _ k => k.names
  | left k _ r => k.names ++ r.names
  | right l _ k => l.names ++ k.names
  | paren k => k.names
  | base k i => k.names ++ i.names
  | item b k => b.names ++ k.names
  | member k _ => k.names

theorem mem_names_fill {k : Context} {x : String} (h : x ∈ k.names) (e : Expr) :
    x ∈ (k.fill e).names := by
  induction k with
  | hole => cases h
  | unary op k ih => exact ih h
  | left k op r ih => exact List.mem_append.mpr ((List.mem_append.mp h).imp_left ih)
  | right l op k ih => exact List.mem_append.mpr ((List.mem_append.mp h).imp_right ih)
  | paren k ih => exact ih h
  | base k i ih => exact List.mem_append.mpr ((List.mem_append.mp h).imp_left ih)
  | item b k ih => exact List.mem_append.mpr ((List.mem_append.mp h).imp_right ih)
  | member k name ih => exact ih h

/-- There is nothing around the hole but parentheses. -/
def isBare : Context → Bool
  | hole => true
  | paren k => k.isBare
  | _ => false

/-- The hole is the base of an index or of a member, perhaps in parentheses. -/
def inBase : Context → Bool
  | hole => false
  | unary _ k | left k _ _ | right _ _ k | paren k | item _ k => k.inBase
  | base k _ | member k _ => k.isBare || k.inBase

theorem resolve_fill_of_isBare {k : Context} (h : k.isBare = true) (e : Expr) (env : Environment) :
    (k.fill e).resolve env = e.resolve env := by
  induction k with
  | hole => rfl
  | paren k ih =>
    rw [fill, Expr.resolve]
    exact ih h
  | _ => cases h

section

variable {env env' : Environment} {e e' : Expr} {v : Value} {d : Datum} {name : String}

/-- What follows a base, if the hole is the base and `d` is there, or `v` instead of it. -/
theorem base_sameUnless {α : Type} {k : Context} (hd : e.resolve env = .ok d)
    (hd' : e'.resolve env' = .ok (.ofValue v)) {f : Datum → Except EvalError α}
    (hf : SameUnless d.IsUnsigned (f d) (f (.ofValue v)))
    (h : k.isBare = true ∨ SameUnless (k.inBase = true ∧ d.IsUnsigned)
      ((k.fill e).resolve env) ((k.fill e').resolve env')) :
    SameUnless ((k.isBare || k.inBase) = true ∧ d.IsUnsigned)
      ((k.fill e).resolve env >>= f) ((k.fill e').resolve env' >>= f) := by
  rcases h with hbare | h
  · rw [resolve_fill_of_isBare hbare, resolve_fill_of_isBare hbare, hd, hd']
    exact hf.mono fun hu => ⟨Bool.or_eq_true_iff.mpr (.inl hbare), hu⟩
  · exact (h.bind f).mono (.imp_left fun hb => Bool.or_eq_true_iff.mpr (.inr hb))

/-- **From the hole, answers that are the same go on to be so.** -/
theorem fill_sameUnless (hd : e.resolve env = .ok d) (hdv : d.toValue name = .ok v)
    (hv : e.evaluate env = .ok v) (hv' : e'.evaluate env' = .ok v)
    (hd' : e'.resolve env' = .ok (.ofValue v)) {k : Context}
    (hk : ∀ x ∈ k.names, env.find? x = env'.find? x) :
    SameUnless (k.inBase = true ∧ d.IsUnsigned) ((k.fill e).evaluate env)
        ((k.fill e').evaluate env') ∧
      (k.isBare = true ∨ SameUnless (k.inBase = true ∧ d.IsUnsigned) ((k.fill e).resolve env)
        ((k.fill e').resolve env')) := by
  induction k with
  | hole => exact ⟨.inl (hv'.trans hv.symm), .inl rfl⟩
  | unary op k ih =>
    have happly : SameUnless (k.inBase = true ∧ d.IsUnsigned)
        ((Expr.unary op (k.fill e)).evaluate env) ((Expr.unary op (k.fill e')).evaluate env') := by
      rw [Expr.evaluate, Expr.evaluate]
      exact (ih hk).1.bind _
    rw [fill, fill, Expr.resolve_unary, Expr.resolve_unary]
    exact ⟨happly, .inr (happly.map _)⟩
  | left k op r ih =>
    obtain ⟨hl, hr⟩ := List.forall_mem_append.mp hk
    have happly : SameUnless (k.inBase = true ∧ d.IsUnsigned)
        ((Expr.binary (k.fill e) op r).evaluate env)
        ((Expr.binary (k.fill e') op r).evaluate env') := by
      rw [Expr.evaluate, Expr.evaluate, (Expr.evaluate_congr hr).1]
      exact (ih hl).1.bind _
    rw [fill, fill, Expr.resolve_binary, Expr.resolve_binary]
    exact ⟨happly, .inr (happly.map _)⟩
  | right l op k ih =>
    obtain ⟨hl, hr⟩ := List.forall_mem_append.mp hk
    have happly : SameUnless (k.inBase = true ∧ d.IsUnsigned)
        ((Expr.binary l op (k.fill e)).evaluate env)
        ((Expr.binary l op (k.fill e')).evaluate env') := by
      rw [Expr.evaluate, Expr.evaluate, (Expr.evaluate_congr hl).1]
      exact .bind_right _ fun a => (ih hr).1.bind _
    rw [fill, fill, Expr.resolve_binary, Expr.resolve_binary]
    exact ⟨happly, .inr (happly.map _)⟩
  | paren k ih =>
    rw [fill, fill, Expr.evaluate, Expr.evaluate, Expr.resolve, Expr.resolve]
    exact ih hk
  | base k i ih =>
    obtain ⟨hb, hi⟩ := List.forall_mem_append.mp hk
    have hselect : SameUnless ((k.isBare || k.inBase) = true ∧ d.IsUnsigned)
        ((Expr.index (k.fill e) i).resolve env) ((Expr.index (k.fill e') i).resolve env') := by
      rw [Expr.resolve, Expr.resolve, ← (Expr.evaluate_congr hi).1]
      exact base_sameUnless hd hd' (.bind_right _ fun w => Datum.select_sameUnless hdv w) (ih hb).2
    rw [fill, fill, Expr.evaluate_index, Expr.evaluate_index]
    exact ⟨hselect.bind _, .inr hselect⟩
  | item b k ih =>
    obtain ⟨hb, hi⟩ := List.forall_mem_append.mp hk
    have hselect : SameUnless (k.inBase = true ∧ d.IsUnsigned)
        ((Expr.index b (k.fill e)).resolve env) ((Expr.index b (k.fill e')).resolve env') := by
      rw [Expr.resolve, Expr.resolve, (Expr.evaluate_congr hb).2]
      exact .bind_right _ fun a => (ih hi).1.bind _
    rw [fill, fill, Expr.evaluate_index, Expr.evaluate_index]
    exact ⟨hselect.bind _, .inr hselect⟩
  | member k name ih =>
    have hmember : SameUnless ((k.isBare || k.inBase) = true ∧ d.IsUnsigned)
        ((Expr.member (k.fill e) name).resolve env)
        ((Expr.member (k.fill e') name).resolve env') := by
      rw [Expr.resolve, Expr.resolve]
      exact base_sameUnless hd hd' (Datum.member_sameUnless hdv name) (ih hk).2
    rw [fill, fill, Expr.evaluate_member, Expr.evaluate_member]
    exact ⟨hmember.bind _, .inr hmember⟩

end

/--
**A value can be taken for the part of an expression that has it.**

Let a part of an expression have the value `v`. A literal that holds `v` can stand in its place, and
so can a name that the expression does not look up, if this name is bound to `v`. The expression has
the same value then, or the same error. Only if the part is a base, perhaps in parentheses, and
leads to an integer without a sign, an error that tells the kind of the base may tell of an integer
with a sign instead.
-/
theorem evaluate_fill_bound (k : Context) (e : Expr) (env : Environment) (v : Value)
    (hv : e.evaluate env = .ok v) :
    (∀ kind raw, SameUnless (k.inBase = true ∧ ∃ n, e.resolve env = .ok (.uint n))
      ((k.fill e).evaluate env) ((k.fill (.literal ⟨kind, raw, v⟩)).evaluate env)) ∧
    ∀ x, x ∉ (k.fill e).names →
      SameUnless (k.inBase = true ∧ ∃ n, e.resolve env = .ok (.uint n)) ((k.fill e).evaluate env)
        ((k.fill (.identifier x)).evaluate (env.insert x (.ofValue v))) := by
  obtain ⟨d, name, hd, hdv⟩ := Expr.exists_resolve hv
  have hunsigned : k.inBase = true ∧ d.IsUnsigned →
      k.inBase = true ∧ ∃ n, e.resolve env = .ok (.uint n) := by
    rintro ⟨hbase, n, rfl⟩
    exact ⟨hbase, n, hd⟩
  constructor
  · intro kind raw
    exact (fill_sameUnless hd hdv hv rfl rfl fun _ _ => rfl).1.mono hunsigned
  · intro x hx
    have hlookup : (Expr.identifier x).resolve (env.insert x (.ofValue v)) = .ok (.ofValue v) := by
      rw [Expr.resolve, Environment.lookup, Environment.find?_insert_self]
    have hvalue : (Expr.identifier x).evaluate (env.insert x (.ofValue v)) = .ok v := by
      rw [Expr.evaluate_identifier, hlookup]
      exact Datum.toValue_ofValue v x
    refine (fill_sameUnless hd hdv hv hvalue hlookup fun y hy => ?_).1.mono hunsigned
    have hne : y ≠ x := fun h => hx (h ▸ mem_names_fill hy e)
    exact (env.find?_insert_of_ne hne _).symm

/-- In `(u)[0]` an integer without a sign is told apart from its value, and in no other way. -/
theorem evaluate_fill_bound_unsigned :
    let env : Environment := Environment.empty.insert "u" (.uint 5)
    let k : Context := .base (.paren .hole) (.literal ⟨.integer, "0", .integer 0⟩)
    let u : Expr := .identifier "u"
    u.evaluate env = .ok (.integer 5) ∧
      (∀ kind raw, SameUnless (k.inBase = true ∧ ∃ n, u.resolve env = .ok (.uint n))
        ((k.fill u).evaluate env) ((k.fill (.literal ⟨kind, raw, .integer 5⟩)).evaluate env)) ∧
      "x" ∉ (k.fill u).names ∧
      SameUnless (k.inBase = true ∧ ∃ n, u.resolve env = .ok (.uint n)) ((k.fill u).evaluate env)
        ((k.fill (.identifier "x")).evaluate (env.insert "x" (.ofValue (.integer 5)))) ∧
      (k.fill u).evaluate env = .error (.notIndexable .unsigned) := by
  intro env k u
  have hvalue : u.evaluate env = .ok (.integer 5) := rfl
  have hfresh : "x" ∉ (k.fill u).names := by decide
  obtain ⟨hliteral, hname⟩ := evaluate_fill_bound k u env (.integer 5) hvalue
  exact ⟨hvalue, hliteral, hfresh, hname "x" hfresh, rfl⟩

end Context

end Reckon
