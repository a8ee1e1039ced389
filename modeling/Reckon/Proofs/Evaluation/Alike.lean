import Reckon.Proofs.Binary.Zeros
import Reckon.Proofs.Evaluation.Names

/-!
# Data that are equal as numbers

The equality of data compares floats as numbers: it makes no difference between the two zeros. A
name may stand for either of two such data (`Datum.Alike`), also inside of lists and records: the
answer is the same error, or a value that is equal in this sense (`compatible_alike`).
-/

namespace Reckon

/-- The same value, or floats that are equal as numbers. -/
inductive Value.Alike : Value → Value → Prop
  | same (v : Value) : Alike v v
  | float {x y : Float32} (h : Single.Alike x y) : Alike (float x) (float y)

namespace Datum

mutual

/-- The same datum, but for floats that are equal as numbers. -/
inductive Alike : Datum → Datum → Prop
  | same (d : Datum) : Alike d d
  | float {x y : Float} (h : Double.Alike x y) : Alike (float x) (float y)
  | list {as bs : List Datum} (h : AlikeItems as bs) : Alike (list as) (list bs)
  | record {as bs : List (String × Datum)} (h : AlikeFields as bs) : Alike (record as) (record bs)

/-- Lists are alike item by item. -/
inductive AlikeItems : List Datum → List Datum → Prop
  | nil : AlikeItems [] []
  | cons {a b : Datum} {as bs : List Datum} (h : Alike a b) (hs : AlikeItems as bs) :
    AlikeItems (a :: as) (b :: bs)

/-- Records are alike if they have the same names, and data that are alike under each. -/
inductive AlikeFields : List (String × Datum) → List (String × Datum) → Prop
  | nil : AlikeFields [] []
  | cons {name : String} {a b : Datum} {as bs : List (String × Datum)} (h : Alike a b)
    (hs : AlikeFields as bs) : AlikeFields ((name, a) :: as) ((name, b) :: bs)

end

mutual

/-- Data that are equal are alike. -/
theorem alike_of_beq : ∀ (a b : Datum), a.beq b = true → Alike a b
  | int a, b, h => by
    cases b with
    | int b => rw [eq_of_beq h]; exact .same _
    | _ => cases h
  | uint a, b, h => by
    cases b with
    | uint b => rw [eq_of_beq h]; exact .same _
    | _ => cases h
  | float x, b, h => by
    cases b with
    | float y => exact .float (.inr h)
    | _ => cases h
  | string s, b, h => by
    cases b with
    | string t => rw [eq_of_beq h]; exact .same _
    | _ => cases h
  | bool a, b, h => by
    cases b with
    | bool b => rw [eq_of_beq h]; exact .same _
    | _ => cases h
  | char c, b, h => by
    cases b with
    | char d => rw [eq_of_beq h]; exact .same _
    | _ => cases h
  | list as, b, h => by
    cases b with
    | list bs => exact .list (alikeItems_of_beq as bs h)
    | _ => cases h
  | record as, b, h => by
    cases b with
    | record bs => exact .record (alikeFields_of_beq as bs h)
    | _ => cases h

theorem alikeItems_of_beq : ∀ (as bs : List Datum), beqItems as bs = true → AlikeItems as bs
  | [], bs, h => by
    cases bs with
    | nil => exact .nil
    | cons b bs => cases h
  | a :: as, bs, h => by
    cases bs with
    | nil => cases h
    | cons b bs =>
      obtain ⟨ha, has⟩ := Bool.and_eq_true_iff.mp h
      exact .cons (alike_of_beq a b ha) (alikeItems_of_beq as bs has)

theorem alikeFields_of_beq :
    ∀ (as bs : List (String × Datum)), beqFields as bs = true → AlikeFields as bs
  | [], bs, h => by
    cases bs with
    | nil => exact .nil
    | cons b bs => cases h
  | (n, a) :: as, bs, h => by
    cases bs with
    | nil => cases h
    | cons b bs =>
      obtain ⟨ha, has⟩ := Bool.and_eq_true_iff.mp h
      obtain ⟨hn, ha⟩ := Bool.and_eq_true_iff.mp ha
      obtain ⟨m, b⟩ := b
      obtain rfl : n = m := eq_of_beq hn
      exact .cons (alike_of_beq a b ha) (alikeFields_of_beq as bs has)

end

theorem AlikeItems.length_eq {as bs : List Datum} (h : AlikeItems as bs) :
    as.length = bs.length := by
  induction as generalizing bs with
  | nil => cases h; rfl
  | cons a as ih =>
    cases h with
    | cons h hs => exact congrArg (· + 1) (ih hs)

theorem AlikeItems.getElem? {as bs : List Datum} (h : AlikeItems as bs) (n : Nat) :
    Option.Rel Alike as[n]? bs[n]? := by
  induction as generalizing bs n with
  | nil => cases h; exact .none
  | cons a as ih =>
    cases h with
    | cons h hs =>
      cases n with
      | zero => exact .some h
      | succ n => exact ih hs n

theorem AlikeFields.find? {as bs : List (String × Datum)} (h : AlikeFields as bs) (name : String) :
    Option.Rel Alike (Fields.find? name as) (Fields.find? name bs) := by
  induction as generalizing bs with
  | nil => cases h; exact .none
  | cons a as ih =>
    cases h with
    | cons h hs =>
      rw [Fields.find?, Fields.find?]
      split
      · exact .some h
      · exact ih hs

end Datum

/-! ## Operations -/

namespace Value.Alike

variable {v v' w w' : Value}

theorem unary (op : UnaryOp) (h : Alike v v') : Related Alike (op.apply v) (op.apply v') := by
  cases h with
  | same v => exact .refl .same _
  | float h =>
    cases op with
    | plus => exact .ok (.float h)
    | minus => exact .ok (.float h.neg)
    | _ => exact .error _

theorem onFloats (op : ArithmeticOp) {x x' y y' : Float32} (h : Single.Alike x x')
    (h' : Single.Alike y y') : Related Alike (op.onFloats x y) (op.onFloats x' y') := by
  cases op with
  | add => exact .ok (.float (h.add h'))
  | sub => exact .ok (.float (h.sub h'))
  | mul => exact .ok (.float (h.mul h'))
  | div =>
    rw [ArithmeticOp.onFloats, ArithmeticOp.onFloats, ← h'.beq_eq (.inl rfl)]
    split
    · exact .error _
    next hy => exact .ok (.float (h.div h' (Bool.eq_false_iff.mpr hy)))

theorem compareFloats_eq {x x' y y' : Float32} (h : Single.Alike x x') (h' : Single.Alike y y') :
    compareFloats x y = compareFloats x' y' := by
  unfold compareFloats
  simp only [h.lt_iff h', h.beq_eq h', h'.lt_iff h]

theorem arithmetic (op : ArithmeticOp) (h : Alike v v') (h' : Alike w w') :
    Related Alike (op.apply v w) (op.apply v' w') := by
  cases h with
  | same v =>
    cases h' with
    | same w => exact .refl .same _
    | float h' =>
      cases v with
      | integer n => exact onFloats op (.inl rfl) h'
      | float x => exact onFloats op (.inl rfl) h'
      | _ => exact .error _
  | float h =>
    cases h' with
    | float h' => exact onFloats op h h'
    | same w =>
      cases w with
      | integer n => exact onFloats op h (.inl rfl)
      | float x => exact onFloats op h (.inl rfl)
      | _ => exact .error _

theorem comparison (op : ComparisonOp) (h : Alike v v') (h' : Alike w w') :
    op.apply v w = op.apply v' w' := by
  have hfloats : ∀ {x x' y y' : Float32}, Single.Alike x x' → Single.Alike y y' →
      op.apply (.float x) (.float y) = op.apply (.float x') (.float y') := by
    intro x x' y y' h h'
    simp only [ComparisonOp.apply, compareFloats_eq h h']
  cases h with
  | same v =>
    cases h' with
    | same w => rfl
    | float h' =>
      cases v with
      | integer n => exact hfloats (.inl rfl) h'
      | float x => exact hfloats (.inl rfl) h'
      | _ => rfl
  | float h =>
    cases h' with
    | float h' => exact hfloats h h'
    | same w =>
      cases w with
      | integer n => exact hfloats h (.inl rfl)
      | float x => exact hfloats h (.inl rfl)
      | _ => rfl

/-- An operator that takes no floats sees their kind only. -/
theorem other {op : BinaryOp} (hl : ∀ x x' w, op.apply (.float x) w = op.apply (.float x') w)
    (hr : ∀ v y y', op.apply v (.float y) = op.apply v (.float y')) (h : Alike v v')
    (h' : Alike w w') : Related Alike (op.apply v w) (op.apply v' w') := by
  have hleft : op.apply v w = op.apply v' w := by
    cases h with
    | same v => rfl
    | float h => exact hl _ _ _
  have hright : op.apply v' w = op.apply v' w' := by
    cases h' with
    | same w => rfl
    | float h' => exact hr _ _ _
  rw [hleft, hright]
  exact .refl .same _

theorem binary (op : BinaryOp) (h : Alike v v') (h' : Alike w w') :
    Related Alike (op.apply v w) (op.apply v' w') := by
  cases op with
  | arithmetic op => exact arithmetic op h h'
  | comparison op =>
    rw [BinaryOp.apply, BinaryOp.apply, comparison op h h']
    exact .refl .same _
  | integer op => exact other (fun _ _ _ => rfl) (fun v _ _ => by cases v <;> rfl) h h'
  | logical op => exact other (fun _ _ _ => rfl) (fun v _ _ => by cases v <;> rfl) h h'
  | comma => exact .error _

end Value.Alike

namespace Datum.Alike

variable {d d' : Datum} {v v' : Value}

theorem ofValue (h : Value.Alike v v') : Alike (.ofValue v) (.ofValue v') := by
  cases h with
  | same v => exact .same _
  | float h => exact .float h.widen

theorem toValue (h : Alike d d') (name : String) :
    Related Value.Alike (d.toValue name) (d'.toValue name) := by
  cases h with
  | same d => exact .refl .same _
  | float h => exact .ok (.float h.narrow)
  | list h => exact .error _
  | record h => exact .error _

theorem itemAt {as bs : List Datum} (h : AlikeItems as bs) (i : Int64) :
    Related Alike (Datum.itemAt as i) (Datum.itemAt bs i) := by
  have hitem := h.getElem? i.toInt.toNat
  unfold Datum.itemAt
  rw [h.length_eq]
  by_cases hi : 0 ≤ i.toInt
  · rw [if_pos hi, if_pos hi]
    generalize as[i.toInt.toNat]? = x, bs[i.toInt.toNat]? = y at hitem
    cases hitem with
    | some h => exact .ok h
    | none => exact .error _
  · rw [if_neg hi, if_neg hi]
    exact .error _

theorem select (h : Alike d d') (h' : Value.Alike v v') :
    Related Alike (d.select v) (d'.select v') := by
  cases h' with
  | float h' => exact .error _
  | same v =>
    cases v with
    | integer n =>
      cases h with
      | same d => exact .refl .same _
      | float h => exact .error _
      | list h => exact itemAt h n
      | record h => exact .error _
    | _ => exact .error _

theorem member (h : Alike d d') (name : String) :
    Related Alike (d.member name) (d'.member name) := by
  cases h with
  | same d => exact .refl .same _
  | float h => exact .error _
  | list h => exact .error _
  | @record as bs h =>
    have hfind := h.find? name
    rw [Datum.member, Datum.member]
    generalize Fields.find? name as = x, Fields.find? name bs = y at hfind
    cases hfind with
    | some h => exact .ok h
    | none => exact .error _

end Datum.Alike

/-- **No operation tells data apart that are equal as numbers.** -/
theorem compatible_alike : Compatible Datum.Alike Value.Alike where
  same := .same
  toValue h name := h.toValue name
  ofValue := .ofValue
  unary op h := h.unary op
  binary op h h' := h.binary op h'
  select h h' := h.select h'
  member h name := h.member name

end Reckon
