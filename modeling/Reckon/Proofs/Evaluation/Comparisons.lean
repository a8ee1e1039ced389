import Reckon.Evaluation.Basic
import Reckon.Proofs.Binary.Order
import Reckon.Proofs.Text.ByteOrder

/-!
# Comparisons agree with one another

All six operators put one question to their operands, how the two compare (`Value.order?`), and
each of them reads its own answer out of the reply. The laws between the operators are laws of these
answers. The reply is turned around when the operands are swapped, and there is none between kinds
that are not compared. It can be that neither operand is less and the two are not equal, but only
where one of them is a float that is no number.
-/

namespace Reckon

/-! ## How values compare -/

namespace Value

/-- The value is a float that is no number. -/
def isNaN : Value → Bool
  | float x => x.isNaN
  | _ => false

/-- How two values compare, if they do; nothing at all if their kinds are not compared. -/
def order? : Value → Value → Option (Option Ordering)
  | integer x, integer y => some (some (compare x.toInt y.toInt))
  | float x, float y => some (compareFloats x y)
  | integer x, float y => some (compareFloats (promote x) y)
  | float x, integer y => some (compareFloats x (promote y))
  | string x, string y => some (some (compare x y))
  | char x, char y => some (some (compare x.toNat y.toNat))
  | bool x, bool y => some (some (compareBools x y))
  | _, _ => none

/-- Swapped operands compare the other way around. -/
theorem order?_swap (a b : Value) : order? b a = (order? a b).map (Option.map Ordering.swap) := by
  cases a with
  | integer x =>
    cases b with
    | integer y => exact congrArg (some ∘ some) Std.OrientedOrd.eq_swap
    | float y => exact congrArg some (compareFloats_swap _ _)
    | _ => rfl
  | float x =>
    cases b with
    | integer y | float y => exact congrArg some (compareFloats_swap _ _)
    | _ => rfl
  | string x =>
    cases b with
    | string y => exact congrArg (some ∘ some) Std.OrientedOrd.eq_swap
    | _ => rfl
  | char x =>
    cases b with
    | char y => exact congrArg (some ∘ some) Std.OrientedOrd.eq_swap
    | _ => rfl
  | bool x =>
    cases b with
    | bool y => exact congrArg (some ∘ some) Std.OrientedOrd.eq_swap
    | _ => rfl

/-- Values of kinds that are compared do compare, unless one of them is no number. -/
theorem eq_none_iff_of_order? {a b : Value} {o : Option Ordering} (h : order? a b = some o) :
    o = none ↔ a.isNaN = true ∨ b.isNaN = true := by
  have hpromote (n : Int64) : (promote n).isNaN = false := Single.isNaN_ofInt n.toInt
  cases a <;> cases b <;> simp only [order?, Option.some.injEq, reduceCtorEq] at h <;> subst h <;>
    simp only [isNaN, compareFloats_eq_none_iff, hpromote, reduceCtorEq, Bool.false_eq_true,
      false_or, or_false]

/-! ## Kinds that are compared exactly -/

/-- The first value is less than the second, or they compare as equal. -/
def Le (a b : Value) : Prop := ∃ o : Ordering, order? a b = some (some o) ∧ o.isLE = true

/-- Neither floats, which are rounded, nor truth values, which have no order. -/
def IsExact (a : Value) : Prop := a.kind ∈ [Kind.integer, .string, .char]

section Exact

variable {a b c : Value}

/-- Of two values of such a kind, only equal ones compare as equal. -/
theorem IsExact.order? (ha : a.IsExact) (hb : b.kind = a.kind) :
    ∃ o : Ordering, Value.order? a b = some (some o) ∧ (o = .eq ↔ a = b) := by
  cases a <;> simp only [IsExact, kind, List.mem_cons, reduceCtorEq, List.not_mem_nil, or_self] at ha
    <;> cases b <;> cases hb
  case integer x y =>
    exact ⟨_, rfl, Std.LawfulEqOrd.compare_eq_iff_eq.trans (by simp [Int64.toInt_inj])⟩
  case string x y => exact ⟨_, rfl, Std.LawfulEqOrd.compare_eq_iff_eq.trans (by simp)⟩
  case char x y =>
    exact ⟨_, rfl, Std.LawfulEqOrd.compare_eq_iff_eq.trans (by simp [Char.toNat_inj])⟩

theorem IsExact.le_refl (ha : a.IsExact) : a.Le a := by
  obtain ⟨o, ho, heq⟩ := ha.order? rfl
  refine ⟨o, ho, ?_⟩
  rw [heq.mpr rfl]
  rfl

theorem IsExact.le_trans (ha : a.IsExact) (hb : b.kind = a.kind) (hc : c.kind = a.kind)
    (hab : a.Le b) (hbc : b.Le c) : a.Le c := by
  obtain ⟨o, ho, hle⟩ := hab
  obtain ⟨o', ho', hle'⟩ := hbc
  cases a <;> simp only [IsExact, kind, List.mem_cons, reduceCtorEq, List.not_mem_nil, or_self] at ha
    <;> cases b <;> cases hb <;> cases c <;> cases hc <;> cases ho <;> cases ho' <;>
    exact ⟨_, rfl, Std.TransOrd.isLE_trans hle hle'⟩

/-- What compares both ways compares as equal. -/
theorem IsExact.le_antisymm (ha : a.IsExact) (hb : b.kind = a.kind) (hab : a.Le b)
    (hba : b.Le a) : a = b := by
  obtain ⟨o, ho, heq⟩ := ha.order? hb
  obtain ⟨o', ho', hle⟩ := hab
  obtain ⟨o'', ho'', hge⟩ := hba
  rw [order?_swap, ho] at ho''
  rw [ho] at ho'
  cases ho'
  cases ho''
  refine heq.mp ?_
  cases o with
  | lt => cases hge
  | eq => rfl
  | gt => cases hle

theorem IsExact.le_total (ha : a.IsExact) (hb : b.kind = a.kind) : a.Le b ∨ b.Le a := by
  obtain ⟨o, ho, -⟩ := ha.order? hb
  have ho' := order?_swap a b
  rw [ho] at ho'
  cases o with
  | lt => exact .inl ⟨.lt, ho, rfl⟩
  | eq => exact .inl ⟨.eq, ho, rfl⟩
  | gt => exact .inr ⟨.lt, ho', rfl⟩

end Exact

end Value

/-! ## What an operator makes of it -/

namespace ComparisonOp

variable {op : ComparisonOp} {a b v : Value}

/-- Only equality is asked of two truth values. -/
def Admits (op : ComparisonOp) (a b : Value) : Prop :=
  op.isEquality = true ∨ ¬ (a.kind = .bool ∧ b.kind = .bool)

instance : Decidable (op.Admits a b) := inferInstanceAs (Decidable (_ ∨ _))

/-- An operator answers by how its operands compare, or refuses their kinds. -/
theorem apply_eq (op : ComparisonOp) (a b : Value) :
    op.apply a b =
      match Value.order? a b with
      | some o =>
        if op.Admits a b then .ok (.bool (op.holds o))
        else .error (.invalidOperands (.comparison op) a.kind b.kind)
      | none => .error (.invalidOperands (.comparison op) a.kind b.kind) := by
  cases a <;> cases b <;> simp [apply, Value.order?, Admits, Value.kind]

theorem apply_eq_ok_iff :
    op.apply a b = .ok v ↔
      ∃ o, Value.order? a b = some o ∧ op.Admits a b ∧ v = .bool (op.holds o) := by
  rw [apply_eq]
  cases Value.order? a b with
  | none => simp
  | some o => by_cases h : op.Admits a b <;> simp [h, eq_comm]

theorem holds_lessEqual (o : Ordering) : lessEqual.holds (some o) = o.isLE := by
  cases o <;> rfl

end ComparisonOp

/-! ## Trees -/

namespace Expr

/-- The comparison of two trees has this answer. -/
def Compares (env : Environment) (l : Expr) (op : ComparisonOp) (r : Expr) (t : Bool) : Prop :=
  (binary l (.comparison op) r).evaluate env = .ok (.bool t)

/-- The comparison of two trees has a value. -/
def Comparable (env : Environment) (l : Expr) (op : ComparisonOp) (r : Expr) : Prop :=
  ∃ v, (binary l (.comparison op) r).evaluate env = .ok v

variable {env : Environment} {l r m : Expr} {a b c : Value} {op : ComparisonOp} {t : Bool}

section Values

variable (hl : l.evaluate env = .ok a) (hr : r.evaluate env = .ok b)

include hl hr

theorem evaluate_comparison :
    (binary l (.comparison op) r).evaluate env = op.apply a b := by
  rw [evaluate, hl, hr]
  rfl

theorem compares_iff :
    Compares env l op r t ↔ ∃ o, Value.order? a b = some o ∧ op.Admits a b ∧ t = op.holds o := by
  rw [Compares, evaluate_comparison hl hr, ComparisonOp.apply_eq_ok_iff]
  simp only [Value.bool.injEq]

theorem comparable_iff :
    Comparable env l op r ↔ (∃ o, Value.order? a b = some o) ∧ op.Admits a b := by
  simp only [Comparable, evaluate_comparison hl hr, ComparisonOp.apply_eq_ok_iff]
  constructor
  · rintro ⟨v, o, ho, hop, -⟩
    exact ⟨⟨o, ho⟩, hop⟩
  · rintro ⟨⟨o, ho⟩, hop⟩
    exact ⟨_, o, ho, hop, rfl⟩

end Values

/-- The comparisons of two trees with one another, the values of the trees at hand. -/
structure Coherent (env : Environment) (l r : Expr) (a b : Value) : Prop where
  answers : ∀ op, Comparable env l op r ↔ ∃ t, Compares env l op r t
  equalities : Comparable env l .equal r ↔ Comparable env l .notEqual r
  orderings : ∀ op ∈ [ComparisonOp.less, .greater, .lessEqual, .greaterEqual],
    (Comparable env l op r ↔
      Comparable env l .equal r ∧ ¬ (a.kind = .bool ∧ b.kind = .bool))
  notEqual : ∀ t, Compares env l .notEqual r t ↔ Compares env l .equal r !t
  lessEqual : ∀ s t, Compares env l .less r s → Compares env l .equal r t →
    Compares env l .lessEqual r (s || t)
  greaterEqual : ∀ s t, Compares env l .greater r s → Compares env l .equal r t →
    Compares env l .greaterEqual r (s || t)
  flip : ∀ t, Compares env l .less r t ↔ Compares env r .greater l t
  symm : ∀ t, Compares env l .equal r t ↔ Compares env r .equal l t
  exclusive : ∀ s t u, Compares env l .less r s → Compares env l .equal r t →
    Compares env l .greater r u → [s, t, u].count true ≤ 1
  exhaustive : ∀ s t u, Compares env l .less r s → Compares env l .equal r t →
    Compares env l .greater r u →
    ([s, t, u].count true = 1 ↔ ¬ (a.isNaN = true ∨ b.isNaN = true))

/-- `<=` on three trees whose values are of one kind without rounding. -/
structure Ordered (env : Environment) (l r m : Expr) (a b : Value) : Prop where
  refl : Compares env l .lessEqual l true
  antisymm : Compares env l .lessEqual r true → Compares env r .lessEqual l true → a = b
  trans : Compares env l .lessEqual r true → Compares env r .lessEqual m true →
    Compares env l .lessEqual m true
  total : Compares env l .lessEqual r true ∨ Compares env r .lessEqual l true
  equal : Compares env l .equal r true ↔ a = b

section Values

variable (hl : l.evaluate env = .ok a) (hr : r.evaluate env = .ok b)

include hl hr

/-- Swapped trees are compared by the reply turned around. -/
theorem compares_swap {op op' : ComparisonOp} (hop : op.isEquality = op'.isEquality)
    (hholds : ∀ o, op'.holds (o.map Ordering.swap) = op.holds o) :
    Compares env l op r t ↔ Compares env r op' l t := by
  have hadmits : op.Admits a b ↔ op'.Admits b a := by
    rw [ComparisonOp.Admits, ComparisonOp.Admits, hop, and_comm]
  rw [compares_iff hl hr, compares_iff hr hl, Value.order?_swap a b, hadmits]
  constructor
  · rintro ⟨o, ho, had, rfl⟩
    exact ⟨_, by rw [ho]; rfl, had, (hholds o).symm⟩
  · rintro ⟨o', ho', had, rfl⟩
    obtain ⟨o, ho, rfl⟩ := Option.map_eq_some_iff.mp ho'
    exact ⟨o, ho, had, hholds o⟩

/-- The answers of two operators are read out of one reply. -/
theorem exists_reply {op op' : ComparisonOp} {s t : Bool} (hs : Compares env l op r s)
    (ht : Compares env l op' r t) :
    ∃ o, Value.order? a b = some o ∧ op.Admits a b ∧ s = op.holds o ∧ t = op'.holds o := by
  obtain ⟨o, ho, had, rfl⟩ := (compares_iff hl hr).mp hs
  obtain ⟨o', ho', -, rfl⟩ := (compares_iff hl hr).mp ht
  rw [ho] at ho'
  cases ho'
  exact ⟨o, ho, had, rfl, rfl⟩

theorem coherent : Coherent env l r a b where
  answers op := by
    rw [comparable_iff hl hr]
    simp only [compares_iff hl hr]
    constructor
    · rintro ⟨⟨o, ho⟩, had⟩
      exact ⟨_, o, ho, had, rfl⟩
    · rintro ⟨t, o, ho, had, -⟩
      exact ⟨⟨o, ho⟩, had⟩
  equalities := by
    rw [comparable_iff hl hr, comparable_iff hl hr]
    exact and_congr_right fun _ => iff_of_true (.inl rfl) (.inl rfl)
  orderings op hop := by
    have hordering : op.isEquality = false := by
      fin_cases hop <;> rfl
    have hequal : ComparisonOp.Admits .equal a b := .inl rfl
    rw [comparable_iff hl hr, comparable_iff hl hr, ComparisonOp.Admits, hordering]
    simp [hequal]
  notEqual t := by
    rw [compares_iff hl hr, compares_iff hl hr]
    refine exists_congr fun o => and_congr_right fun _ => ?_
    refine and_congr (iff_of_true (.inl rfl) (.inl rfl)) ?_
    show t = (!(o == some .eq)) ↔ (!t) = (o == some .eq)
    rw [Bool.not_eq_eq_eq_not]
  lessEqual s t hs ht := by
    obtain ⟨o, ho, had, rfl, rfl⟩ := exists_reply hl hr hs ht
    exact (compares_iff hl hr).mpr ⟨o, ho, had, rfl⟩
  greaterEqual s t hs ht := by
    obtain ⟨o, ho, had, rfl, rfl⟩ := exists_reply hl hr hs ht
    exact (compares_iff hl hr).mpr ⟨o, ho, had, rfl⟩
  flip t := compares_swap hl hr rfl fun o => by
    cases o with
    | none => rfl
    | some o => cases o <;> rfl
  symm t := compares_swap hl hr rfl fun o => by
    cases o with
    | none => rfl
    | some o => cases o <;> rfl
  exclusive s t u hs ht hu := by
    obtain ⟨o, ho, -, rfl, rfl⟩ := exists_reply hl hr hs ht
    obtain ⟨o', ho', -, -, rfl⟩ := exists_reply hl hr hs hu
    rw [ho] at ho'
    cases ho'
    cases o with
    | none => decide
    | some o => cases o <;> decide
  exhaustive s t u hs ht hu := by
    obtain ⟨o, ho, -, rfl, rfl⟩ := exists_reply hl hr hs ht
    obtain ⟨o', ho', -, -, rfl⟩ := exists_reply hl hr hs hu
    rw [ho] at ho'
    cases ho'
    rw [← Value.eq_none_iff_of_order? ho]
    cases o with
    | none => decide
    | some o => cases o <;> decide

theorem compares_lessEqual_iff (ha : a.IsExact) :
    Compares env l .lessEqual r true ↔ a.Le b := by
  have hadmits : ComparisonOp.Admits .lessEqual a b := by
    refine .inr fun ⟨hbool, _⟩ => ?_
    rw [Value.IsExact, hbool] at ha
    exact absurd ha (by decide)
  rw [compares_iff hl hr]
  constructor
  · rintro ⟨o, ho, -, hholds⟩
    cases o with
    | none => cases hholds
    | some o => exact ⟨o, ho, by rw [hholds, ComparisonOp.holds_lessEqual]⟩
  · rintro ⟨o, ho, hle⟩
    exact ⟨some o, ho, hadmits, by rw [ComparisonOp.holds_lessEqual, hle]⟩

theorem compares_equal_iff (ha : a.IsExact) (hb : b.kind = a.kind) :
    Compares env l .equal r true ↔ a = b := by
  obtain ⟨o, ho, heq⟩ := ha.order? hb
  rw [compares_iff hl hr, ← heq]
  constructor
  · rintro ⟨o', ho', -, hholds⟩
    rw [ho] at ho'
    cases ho'
    simpa [ComparisonOp.holds] using hholds
  · rintro rfl
    exact ⟨_, ho, .inl rfl, rfl⟩

theorem ordered (hm : m.evaluate env = .ok c) (ha : a.IsExact) (hb : b.kind = a.kind)
    (hc : c.kind = a.kind) : Ordered env l r m a b := by
  have hexact : b.IsExact := by
    rw [Value.IsExact, hb]
    exact ha
  have hrefl := compares_lessEqual_iff hl hl ha
  have hlr := compares_lessEqual_iff hl hr ha
  have hrl := compares_lessEqual_iff hr hl hexact
  have hrm := compares_lessEqual_iff hr hm hexact
  have hlm := compares_lessEqual_iff hl hm ha
  constructor
  case refl => exact hrefl.mpr ha.le_refl
  case antisymm => exact fun h h' => ha.le_antisymm hb (hlr.mp h) (hrl.mp h')
  case trans => exact fun h h' => hlm.mpr (ha.le_trans hb hc (hlr.mp h) (hrm.mp h'))
  case total => exact (ha.le_total hb).imp hlr.mpr hrl.mpr
  case equal => exact compares_equal_iff hl hr ha hb

end Values

section Strings

variable {x y : String} (hl : l.evaluate env = .ok (.string x))
  (hr : r.evaluate env = .ok (.string y))

include hl hr

theorem compares_strings_iff :
    Compares env l op r t ↔ t = op.holds (some (compare x y)) := by
  have hadmits : op.Admits (.string x) (.string y) := .inr fun hbool => Kind.noConfusion hbool.1
  rw [compares_iff hl hr]
  constructor
  · rintro ⟨o, ⟨⟩, -, rfl⟩
    rfl
  · rintro rfl
    exact ⟨_, rfl, hadmits, rfl⟩

theorem compares_less_strings :
    Compares env l .less r t ↔ t = decide (Text.codePoints x < Text.codePoints y) := by
  rw [compares_strings_iff hl hr, Bool.eq_iff_iff, Bool.eq_iff_iff (b := decide _),
    decide_eq_true_iff, ← Text.compare_eq_lt_iff]
  simp [ComparisonOp.holds]

theorem compares_lessEqual_strings :
    Compares env l .lessEqual r t ↔ t = decide (Text.codePoints x ≤ Text.codePoints y) := by
  rw [compares_strings_iff hl hr, ComparisonOp.holds_lessEqual, Bool.eq_iff_iff,
    Bool.eq_iff_iff (b := decide _), decide_eq_true_iff, Text.isLE_compare_iff]

end Strings

/--
**Comparisons agree with one another.**

Where two trees have values, equality and its opposite are both answered or both refused, and the
four operators that ask for an order are answered just where equality is, except between two truth
values. `!=` is the opposite of `==`, `<=` is `<` or `==` and `>=` is `>` or `==`. Swapping the trees
turns `<` into `>` and keeps `==`. Of `<`, `==` and `>` at most one holds, and one does unless one of
the values is a float that is no number.

On integers, on strings and on characters `<=` is a linear order, and `==` is equality of values. On
strings it is the lexicographic order of code points, which is the one of bytes in UTF-8.
-/
theorem evaluate_comparisons (hl : l.evaluate env = .ok a) (hr : r.evaluate env = .ok b) :
    Coherent env l r a b ∧
      (∀ m c, m.evaluate env = .ok c → a.kind ∈ [Kind.integer, .string, .char] →
        b.kind = a.kind → c.kind = a.kind → Ordered env l r m a b) ∧
      ∀ x y, a = .string x → b = .string y →
        (∀ t, Compares env l .less r t ↔ t = decide (Text.codePoints x < Text.codePoints y)) ∧
        (∀ t, Compares env l .lessEqual r t ↔
          t = decide (Text.codePoints x ≤ Text.codePoints y)) ∧
        (Text.codePoints x < Text.codePoints y ↔ Text.bytes x < Text.bytes y) ∧
        (Text.codePoints x ≤ Text.codePoints y ↔ Text.bytes x ≤ Text.bytes y) := by
  refine ⟨coherent hl hr, fun m c hm => ordered hl hr hm, ?_⟩
  rintro x y rfl rfl
  exact ⟨fun t => compares_less_strings hl hr, fun t => compares_lessEqual_strings hl hr,
    (Text.bytes_lt_iff x y).symm, (Text.bytes_le_iff x y).symm⟩

/-- A letter with an accent comes after all letters without one. -/
theorem evaluate_comparisons_accent :
    let word (s : String) : Expr := .literal ⟨.string, "\"" ++ s ++ "\"", .string s⟩
    Compares .empty (word "z") .less (word "é") true ∧
      Compares .empty (word "é") .greater (word "z") true ∧
      Compares .empty (word "z") .lessEqual (word "éa") true := by
  intro word
  have hz : (word "z").evaluate .empty = .ok (.string "z") := rfl
  have he : (word "é").evaluate .empty = .ok (.string "é") := rfl
  have hea : (word "éa").evaluate .empty = .ok (.string "éa") := rfl
  obtain ⟨hcoherent, hordered, hstrings⟩ := evaluate_comparisons hz he
  obtain ⟨hless, hle, -⟩ := hstrings "z" "é" rfl rfl
  have hlt : Compares .empty (word "z") .less (word "é") true := (hless true).mpr (by decide)
  have hfirst : Compares .empty (word "z") .lessEqual (word "é") true := (hle true).mpr (by decide)
  have hsecond : Compares .empty (word "é") .lessEqual (word "éa") true :=
    ((evaluate_comparisons he hea).2.2 "é" "éa" rfl rfl).2.1 true |>.mpr (by decide)
  exact ⟨hlt, (hcoherent.flip true).mp hlt,
    (hordered _ _ hea (by decide) rfl rfl).trans hfirst hsecond⟩

end Expr

end Reckon
