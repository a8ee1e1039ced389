import Mathlib.Algebra.Ring.Int.Defs
import Mathlib.Algebra.Ring.Nat
import Reckon.Proofs.Evaluation.Modes

/-!
# Integers are exact or refused

An expression that is built of integers has a value over all integers, where nothing overflows
(`Expr.exact`). An evaluation yields this value, or it refuses to: a node fails if its divisor is
zero, if its exact value does not fit into 64 bits, or if it shifts by an amount that 64 bits do not
have (`BinaryOp.Fails`). The error is that of the first node that fails, operands before what is
made of them and left operands before right ones (`Expr.evaluate_integers`).

What is said about a node behind one that fails does not matter, so the exact value is total: a
quotient by zero counts as zero, and no node but the division looks at it.
-/

namespace Reckon

/-! ## 64 bits -/

/-- The integer fits into 64 bits with a sign. -/
def Fits (n : Int) : Prop := -0x8000000000000000 ≤ n ∧ n < 0x8000000000000000

theorem fits_toInt (m : Int64) : Fits m.toInt := ⟨m.le_toInt, m.toInt_lt⟩

theorem toInt_ofInt {n : Int} (h : Fits n) : (Int64.ofInt n).toInt = n :=
  Int64.toInt_ofInt_of_le h.1 h.2

/-! ## Exact values -/

namespace UnaryOp

/-- What the operator makes of an integer. -/
def exact : UnaryOp → Int → Int
  | minus, a => -a
  | _, a => a

/-- The operator fails on the integer. -/
inductive Fails : UnaryOp → (a : Int) → EvalError → Prop
  | overflow {a : Int} (h : ¬ Fits (-a)) : Fails minus a (.overflow (.unary minus))

end UnaryOp

/-- A quotient is rounded toward zero. -/
def ArithmeticOp.exact : ArithmeticOp → Int → Int → Int
  | add, a, b => a + b
  | sub, a, b => a - b
  | mul, a, b => a * b
  | div, a, b => a.tdiv b

/-- Operations on bits work on the 64 bits of the two's complement. A shift to the right is a
quotient rounded down, and one to the left a product modulo `2 ^ 64`, between `-2 ^ 63` and
`2 ^ 63`. -/
def IntegerOp.exact : IntegerOp → Int → Int → Int
  | rem, a, b => a - b * a.tdiv b
  | bitAnd, a, b => (BitVec.ofInt 64 a &&& BitVec.ofInt 64 b).toInt
  | bitOr, a, b => (BitVec.ofInt 64 a ||| BitVec.ofInt 64 b).toInt
  | bitXor, a, b => (BitVec.ofInt 64 a ^^^ BitVec.ofInt 64 b).toInt
  | shl, a, s => (a * 2 ^ s.toNat).bmod (2 ^ 64)
  | shr, a, s => a.fdiv (2 ^ s.toNat)

namespace BinaryOp

/-- What the operator makes of two integers. Only operators on numbers make an integer of them. -/
def exact : BinaryOp → Int → Int → Int
  | arithmetic op => op.exact
  | integer op => op.exact
  | _ => fun _ _ => 0

/-- The operator fails on the two integers. -/
inductive Fails : BinaryOp → (a b : Int) → EvalError → Prop
  | zeroDivisor {op : BinaryOp} {a : Int} (h : op = arithmetic .div ∨ op = integer .rem) :
      Fails op a 0 (.divisionByZero op)
  | overflow {op : ArithmeticOp} {a b : Int} (h : ¬ Fits (op.exact a b)) :
      Fails (arithmetic op) a b (.overflow (.binary (arithmetic op)))
  | amount {op : IntegerOp} {a s : Int} (h : op = .shl ∨ op = .shr) (hs : ¬ (0 ≤ s ∧ s < 64)) :
      Fails (integer op) a s (.overflow (.binary (integer op)))

end BinaryOp

/-- The integer that a datum stands for. -/
def Datum.integer? : Datum → Option Int
  | int n => some n.toInt
  | uint n => if n.toNat < 0x8000000000000000 then some n.toNat else none
  | _ => none

namespace Expr

/-- The expression is built of integer literals, names of integers, parentheses and the operators on
integers. -/
inductive OnIntegers (env : Environment) : Expr → Prop
  | literal {l : Literal} {n : Int64} (h : l.value = .integer n) : OnIntegers env (literal l)
  | identifier {name : String} {d : Datum} {n : Int} (h : env.find? name = some d)
      (hd : d.integer? = some n) : OnIntegers env (identifier name)
  | paren {e : Expr} (he : OnIntegers env e) : OnIntegers env (paren e)
  | plus {e : Expr} (he : OnIntegers env e) : OnIntegers env (unary .plus e)
  | minus {e : Expr} (he : OnIntegers env e) : OnIntegers env (unary .minus e)
  | arithmetic {op : ArithmeticOp} {l r : Expr} (hl : OnIntegers env l) (hr : OnIntegers env r) :
      OnIntegers env (binary l (.arithmetic op) r)
  | integer {op : IntegerOp} {l r : Expr} (hl : OnIntegers env l) (hr : OnIntegers env r) :
      OnIntegers env (binary l (.integer op) r)

/-- The exact value of an expression that is built of integers. -/
def exact (env : Environment) : Expr → Int
  | literal l =>
    match l.value with
    | .integer n => n.toInt
    | _ => 0
  | identifier name => ((env.find? name).bind Datum.integer?).getD 0
  | unary op e => op.exact (e.exact env)
  | binary l op r => op.exact (l.exact env) (r.exact env)
  | paren e => e.exact env
  | index _ _ => 0
  | member _ _ => 0

/-- The node at the root fails, if the exact values of its operands are what it meets. -/
def Fails (env : Environment) : Expr → EvalError → Prop
  | unary op e, err => op.Fails (e.exact env) err
  | binary l op r, err => op.Fails (l.exact env) (r.exact env) err
  | _, _ => False

/-- All nodes of an expression, operands before what is made of them and left before right. -/
def postorder : Expr → List Expr
  | literal l => [literal l]
  | identifier name => [identifier name]
  | unary op e => e.postorder ++ [unary op e]
  | binary l op r => l.postorder ++ (r.postorder ++ [binary l op r])
  | paren e => e.postorder ++ [paren e]
  | index b i => b.postorder ++ (i.postorder ++ [index b i])
  | member b name => b.postorder ++ [member b name]

/-- None of the nodes fails. -/
def NoneFails (env : Environment) (nodes : List Expr) : Prop :=
  ∀ x ∈ nodes, ∀ err, ¬ x.Fails env err

/-- The first of the nodes that fails does so with this error. -/
def FirstFails (env : Environment) (nodes : List Expr) (err : EvalError) : Prop :=
  ∃ before x after, nodes = before ++ x :: after ∧ NoneFails env before ∧ x.Fails env err

end Expr

/-! ## Exact or refused -/

/-- The result is the exact value `n`, or it is an error in a failure. -/
inductive Settles (n : Int) (fails : EvalError → Prop) : Except EvalError Value → Prop
  | exact {m : Int64} (hm : m.toInt = n) (h : ∀ err, ¬ fails err) :
      Settles n fails (.ok (.integer m))
  | refused {err : EvalError} (h : fails err) : Settles n fails (.error err)

theorem Settles.congr {n : Int} {fails fails' : EvalError → Prop} {r : Except EvalError Value}
    (h : Settles n fails r) (hf : ∀ err, fails err ↔ fails' err) : Settles n fails' r := by
  cases h with
  | exact hm h => exact .exact hm fun err => mt (hf err).mpr (h err)
  | refused h => exact .refused ((hf _).mp h)

/-! ### Operators -/

/-- An exact value is handed out just if it fits. -/
theorem checked_settles {op : Operator} {n : Int} {fails : EvalError → Prop}
    (h : ∀ err, fails err ↔ ¬ Fits n ∧ err = .overflow op) : Settles n fails (checked op n) := by
  unfold checked int64?
  split
  next m hm =>
    obtain ⟨hfits, rfl⟩ := Option.ite_some_none_eq_some.mp hm
    exact .exact (toInt_ofInt hfits) fun err herr => ((h err).mp herr).1 hfits
  next hnone =>
    have hfits : ¬ Fits n := fun hfits => by simp [show _ ∧ _ from hfits] at hnone
    exact .refused ((h _).mpr ⟨hfits, rfl⟩)

theorem UnaryOp.minus_settles (a : Int64) :
    Settles (-a.toInt) (UnaryOp.minus.Fails a.toInt) (UnaryOp.minus.apply (.integer a)) := by
  refine checked_settles fun err => ⟨?_, ?_⟩
  · rintro ⟨h⟩
    exact ⟨h, rfl⟩
  · rintro ⟨h, rfl⟩
    exact .overflow h

theorem UnaryOp.plus_settles (a : Int64) :
    Settles a.toInt (UnaryOp.plus.Fails a.toInt) (UnaryOp.plus.apply (.integer a)) :=
  .exact rfl fun _ h => nomatch h

theorem int64_eq_zero_iff {b : Int64} : b = 0 ↔ b.toInt = 0 := by
  rw [← Int64.toInt_inj]
  rfl

/-- An operation without a divisor fails in an overflow only. -/
theorem ArithmeticOp.fails_iff {op : ArithmeticOp} {a b : Int} (h : op = div → b ≠ 0)
    (err : EvalError) :
    (BinaryOp.arithmetic op).Fails a b err ↔
      ¬ Fits (op.exact a b) ∧ err = .overflow (.binary (.arithmetic op)) := by
  constructor
  · intro herr
    cases herr with
    | zeroDivisor hop =>
      rcases hop with hop | hop
      · exact absurd rfl (h (BinaryOp.arithmetic.inj hop))
      · cases hop
    | overflow hfits => exact ⟨hfits, rfl⟩
  · rintro ⟨hfits, rfl⟩
    exact .overflow hfits

theorem ArithmeticOp.onIntegers_settles (op : ArithmeticOp) (a b : Int64) :
    Settles (op.exact a.toInt b.toInt) ((BinaryOp.arithmetic op).Fails a.toInt b.toInt)
      (op.onIntegers a b) := by
  cases op with
  | div =>
    rw [onIntegers]
    split
    next hb =>
      rw [int64_eq_zero_iff.mp hb]
      exact .refused (.zeroDivisor (.inl rfl))
    next hb => exact checked_settles (fails_iff fun _ => mt int64_eq_zero_iff.mpr hb)
  | _ => exact checked_settles (fails_iff (by simp))

/-- A remainder is not farther from zero than the dividend and on the same side of it. -/
theorem fits_tmod (a : Int64) (b : Int) : Fits (a.toInt.tmod b) := by
  have hle : (a.toInt.tmod b).natAbs ≤ a.toInt.natAbs := by
    rw [Int.natAbs_tmod]
    exact Nat.mod_le _ _
  have hpos : 0 ≤ a.toInt → 0 ≤ a.toInt.tmod b := Int.tmod_nonneg b
  have hneg : 0 ≤ -a.toInt → 0 ≤ -a.toInt.tmod b := by
    rw [← Int.neg_tmod]
    exact Int.tmod_nonneg b
  obtain ⟨hlow, hhigh⟩ := fits_toInt a
  unfold Fits
  omega

theorem toInt_tmod (a : Int64) (b : Int) :
    (Int64.ofInt (a.toInt.tmod b)).toInt = a.toInt - b * a.toInt.tdiv b := by
  rw [toInt_ofInt (fits_tmod a b), Int.tmod_def]

/-! ### Shifts -/

/-- An amount that 64 bits have is taken as it is. -/
theorem toNat_smod {s : Int64} (h : 0 ≤ s.toInt ∧ s.toInt < 64) :
    (s.toBitVec.smod 64).toNat = s.toInt.toNat := by
  have hsmod : s.toBitVec.smod 64 = s.toBitVec := by
    refine BitVec.eq_of_toInt_eq ?_
    rw [BitVec.toInt_smod]
    exact Int.fmod_eq_of_lt h.1 h.2
  have hnonneg : 0 ≤ s.toBitVec.toInt := h.1
  have hint : s.toBitVec.toInt = s.toInt := rfl
  rw [hsmod, ← hint]
  rw [BitVec.toInt_eq_toNat_cond] at hnonneg ⊢
  split at hnonneg <;> split <;> omega

theorem toInt_shiftLeft (a : Int64) {s : Int64} (h : 0 ≤ s.toInt ∧ s.toInt < 64) :
    (a <<< s).toInt = (a.toInt * 2 ^ s.toInt.toNat).bmod (2 ^ 64) := by
  have hbits : (a <<< s).toBitVec = a.toBitVec <<< (s.toBitVec.smod 64).toNat := rfl
  rw [← Int64.toInt_toBitVec, hbits, toNat_smod h, BitVec.toInt_shiftLeft, Nat.shiftLeft_eq,
    ← Int64.toInt_toBitVec a, BitVec.toInt_eq_toNat_bmod]
  push_cast
  rw [Int.bmod_mul_bmod]

theorem toInt_shiftRight (a : Int64) {s : Int64} (h : 0 ≤ s.toInt ∧ s.toInt < 64) :
    (a >>> s).toInt = a.toInt.fdiv (2 ^ s.toInt.toNat) := by
  have hbits : (a >>> s).toBitVec = a.toBitVec.sshiftRight (s.toBitVec.smod 64).toNat := rfl
  have hpow : (0 : Int) < 2 ^ s.toInt.toNat := Int.pow_pos (by decide)
  rw [← Int64.toInt_toBitVec, hbits, toNat_smod h, BitVec.toInt_sshiftRight,
    Int.shiftRight_eq_div_pow, Int.fdiv_eq_ediv_of_nonneg _ (Int.le_of_lt hpow), Int.natCast_pow]
  rfl

theorem IntegerOp.fails_iff {op : IntegerOp} {a b : Int} (h : op = rem → b ≠ 0) (err : EvalError) :
    (BinaryOp.integer op).Fails a b err ↔
      ((op = shl ∨ op = shr) ∧ ¬ (0 ≤ b ∧ b < 64)) ∧ err = .overflow (.binary (.integer op)) := by
  constructor
  · intro herr
    cases herr with
    | zeroDivisor hop =>
      rcases hop with hop | hop
      · cases hop
      · exact absurd rfl (h (BinaryOp.integer.inj hop))
    | amount hop hb => exact ⟨⟨hop, hb⟩, rfl⟩
  · rintro ⟨⟨hop, hb⟩, rfl⟩
    exact .amount hop hb

theorem shift_settles {op : IntegerOp} {f : Int64 → Int64 → Int64} {n : Int} (a b : Int64)
    (hop : op = .shl ∨ op = .shr) (hf : 0 ≤ b.toInt ∧ b.toInt < 64 → (f a b).toInt = n) :
    Settles n ((BinaryOp.integer op).Fails a.toInt b.toInt) (shift op f a b) := by
  have hrem : op = .rem → b.toInt ≠ 0 := by
    rintro rfl
    rcases hop with hop | hop <;> cases hop
  unfold shift
  split
  next hb =>
    refine .exact (hf hb) fun err herr => ?_
    exact ((IntegerOp.fails_iff hrem err).mp herr).1.2 hb
  next hb => exact .refused (.amount hop hb)

/-- The bits of an integer are those of its value. -/
theorem ofInt_toInt (a : Int64) : BitVec.ofInt 64 a.toInt = a.toBitVec := by
  rw [← Int64.toInt_toBitVec, BitVec.ofInt_toInt]

/-- An operation on bits does not fail. -/
theorem IntegerOp.not_fails {op : IntegerOp} {a b : Int}
    (hop : op = bitAnd ∨ op = bitOr ∨ op = bitXor) (err : EvalError) :
    ¬ (BinaryOp.integer op).Fails a b err := by
  intro herr
  have hrem : op = rem → b ≠ 0 := by
    rintro rfl
    simp at hop
  have hshift := ((fails_iff hrem err).mp herr).1.1
  rcases hop with rfl | rfl | rfl <;> simp at hshift

theorem IntegerOp.onIntegers_settles (op : IntegerOp) (a b : Int64) :
    Settles (op.exact a.toInt b.toInt) ((BinaryOp.integer op).Fails a.toInt b.toInt)
      (op.onIntegers a b) := by
  cases op with
  | rem =>
    rw [onIntegers]
    split
    next hb =>
      rw [int64_eq_zero_iff.mp hb]
      exact .refused (.zeroDivisor (.inr rfl))
    next hb =>
      refine .exact (toInt_tmod a b.toInt) fun err herr => ?_
      have hshift := ((fails_iff (fun _ => mt int64_eq_zero_iff.mpr hb) err).mp herr).1.1
      simp at hshift
  | bitAnd =>
    refine .exact ?_ (not_fails (.inl rfl))
    rw [exact, ofInt_toInt, ofInt_toInt]
    rfl
  | bitOr =>
    refine .exact ?_ (not_fails (.inr (.inl rfl)))
    rw [exact, ofInt_toInt, ofInt_toInt]
    rfl
  | bitXor =>
    refine .exact ?_ (not_fails (.inr (.inr rfl)))
    rw [exact, ofInt_toInt, ofInt_toInt]
    rfl
  | shl => exact shift_settles a b (.inl rfl) (toInt_shiftLeft a)
  | shr => exact shift_settles a b (.inr rfl) (toInt_shiftRight a)

/-- The quotient would not fit, but the remainder does. -/
example : IntegerOp.rem.onIntegers Int64.minValue (-1) = .ok (.integer 0) := by rfl

/-- The divisor decides which error a failure is. -/
theorem BinaryOp.Fails.error_eq {op : BinaryOp} {a b : Int} {err : EvalError}
    (h : op.Fails a b err) :
    err = if (op = arithmetic .div ∨ op = integer .rem) ∧ b = 0 then .divisionByZero op
      else .overflow (.binary op) := by
  cases h with
  | zeroDivisor hop => rw [if_pos ⟨hop, rfl⟩]
  | overflow hn =>
    refine (if_neg ?_).symm
    rintro ⟨hop | hop, rfl⟩
    · cases hop
      -- A quotient by zero counts as zero, which fits.
      refine hn ?_
      rw [ArithmeticOp.exact, Int.tdiv_zero]
      exact fits_toInt 0
    · cases hop
  | amount hop =>
    refine (if_neg ?_).symm
    rintro ⟨hop' | hop', -⟩
    · cases hop'
    · cases hop'
      simp at hop

/-! ### Names -/

/-- The upper half of the unsigned integers is not met. -/
theorem toInt_toInt64 {n : UInt64} (h : n.toNat < 0x8000000000000000) :
    n.toInt64.toInt = n.toNat := by
  have hbits : n.toInt64.toInt = n.toBitVec.toInt := rfl
  rw [hbits, BitVec.toInt_eq_toNat_of_lt (Nat.mul_lt_mul_of_pos_left h Nat.two_pos)]
  rfl

theorem Datum.toValue_settles {d : Datum} {n : Int} (hd : d.integer? = some n) (name : String)
    {fails : EvalError → Prop} (h : ∀ err, ¬ fails err) : Settles n fails (d.toValue name) := by
  cases d with
  | int m =>
    cases hd
    exact .exact rfl h
  | uint m =>
    obtain ⟨hm, rfl⟩ := Option.ite_some_none_eq_some.mp hd
    have hvalue : (uint m).toValue? = some (.integer m.toInt64) := if_pos hm
    rw [toValue, hvalue]
    exact .exact (toInt_toInt64 hm) h
  | _ => cases hd

/-! ## The first failure -/

namespace Expr

variable {env : Environment}

theorem Fails.unique {x : Expr} {err err' : EvalError} (h : x.Fails env err)
    (h' : x.Fails env err') : err = err' := by
  cases x with
  | unary op e =>
    cases h
    cases h'
    rfl
  | binary l op r => exact (BinaryOp.Fails.error_eq h).trans (BinaryOp.Fails.error_eq h').symm
  | _ => cases h

theorem firstFails_nil {err : EvalError} : ¬ FirstFails env [] err := by
  rintro ⟨before, x, after, h, -⟩
  simp at h

/-- Either the head fails, or it does not and the first failure stands behind it. -/
theorem firstFails_cons {x : Expr} {nodes : List Expr} {err : EvalError} :
    FirstFails env (x :: nodes) err ↔
      x.Fails env err ∨ (∀ err', ¬ x.Fails env err') ∧ FirstFails env nodes err := by
  constructor
  · rintro ⟨before, y, after, h, hbefore, hy⟩
    cases before with
    | nil =>
      obtain ⟨rfl, rfl⟩ := List.cons.inj h
      exact .inl hy
    | cons z before =>
      obtain ⟨rfl, rfl⟩ := List.cons.inj h
      obtain ⟨hx, hbefore⟩ := List.forall_mem_cons.mp hbefore
      exact .inr ⟨hx, before, y, after, rfl, hbefore, hy⟩
  · rintro (hx | ⟨hx, before, y, after, rfl, hbefore, hy⟩)
    · exact ⟨[], x, nodes, rfl, by simp [NoneFails], hx⟩
    · exact ⟨x :: before, y, after, rfl, List.forall_mem_cons.mpr ⟨hx, hbefore⟩, hy⟩

theorem firstFails_singleton {x : Expr} {err : EvalError} :
    FirstFails env [x] err ↔ x.Fails env err := by
  rw [firstFails_cons]
  exact or_iff_left fun h => firstFails_nil h.2

theorem noneFails_iff {nodes : List Expr} :
    NoneFails env nodes ↔ ∀ err, ¬ FirstFails env nodes err := by
  constructor
  · rintro h err ⟨before, x, after, rfl, -, hx⟩
    exact h x (by simp) err hx
  · intro h
    induction nodes with
    | nil => simp [NoneFails]
    | cons x nodes ih =>
      have hx : ∀ err, ¬ x.Fails env err := fun err hx => h err (firstFails_cons.mpr (.inl hx))
      have hnodes : NoneFails env nodes :=
        ih fun err hnodes => h err (firstFails_cons.mpr (.inr ⟨hx, hnodes⟩))
      exact List.forall_mem_cons.mpr ⟨hx, hnodes⟩

theorem firstFails_append {xs ys : List Expr} {err : EvalError} :
    FirstFails env (xs ++ ys) err ↔
      FirstFails env xs err ∨ (∀ err', ¬ FirstFails env xs err') ∧ FirstFails env ys err := by
  rw [← noneFails_iff]
  induction xs with
  | nil => simp [firstFails_nil, NoneFails]
  | cons x xs ih =>
    have hcons : NoneFails env (x :: xs) ↔ (∀ err', ¬ x.Fails env err') ∧ NoneFails env xs :=
      List.forall_mem_cons
    rw [List.cons_append, firstFails_cons, firstFails_cons, ih, hcons, and_or_left, or_assoc,
      and_assoc]

/-- The nodes of an operand come before the node that it belongs to. -/
theorem firstFails_root {xs : List Expr} {x : Expr} {err : EvalError} :
    FirstFails env (xs ++ [x]) err ↔
      FirstFails env xs err ∨ (∀ err', ¬ FirstFails env xs err') ∧ x.Fails env err := by
  rw [firstFails_append, firstFails_singleton]

theorem FirstFails.unique {nodes : List Expr} {err err' : EvalError}
    (h : FirstFails env nodes err) (h' : FirstFails env nodes err') : err = err' := by
  induction nodes with
  | nil => exact absurd h firstFails_nil
  | cons x nodes ih =>
    rcases firstFails_cons.mp h with hx | ⟨hx, h⟩
    · rcases firstFails_cons.mp h' with hx' | ⟨hx', -⟩
      · exact hx.unique hx'
      · exact absurd hx (hx' err)
    · rcases firstFails_cons.mp h' with hx' | ⟨-, h'⟩
      · exact absurd hx' (hx err')
      · exact ih h h'

end Expr

/-! ## Evaluation -/

/-- One step behind another settles if each of them does. -/
theorem Settles.bind {n m : Int} {fails fails' : EvalError → Prop} {r : Except EvalError Value}
    {k : Value → Except EvalError Value} (h : Settles n fails r)
    (hk : ∀ a : Int64, a.toInt = n → Settles m fails' (k (.integer a))) :
    Settles m (fun err => fails err ∨ (∀ err', ¬ fails err') ∧ fails' err) (r >>= k) := by
  cases h with
  | exact ha hf =>
    refine (hk _ ha).congr fun err => ?_
    exact ⟨fun herr => .inr ⟨hf, herr⟩, fun herr => (herr.resolve_left (hf err)).2⟩
  | refused herr => exact .refused (.inl herr)

namespace Expr

variable {env : Environment}

/-- The evaluation of an expression yields its exact value, or the error of the first node that
fails. -/
def Settled (env : Environment) (e : Expr) : Prop :=
  Settles (e.exact env) (FirstFails env e.postorder) (e.evaluate env)

theorem Settled.paren {e : Expr} (he : e.Settled env) : (paren e).Settled env := by
  rw [Settled, evaluate, exact, postorder]
  refine Settles.congr he fun err => ?_
  rw [firstFails_root]
  exact ⟨.inl, fun herr => herr.resolve_right And.right⟩

theorem Settled.unary {op : UnaryOp} {e : Expr} (he : e.Settled env)
    (hop : ∀ a : Int64, Settles (op.exact a.toInt) (op.Fails a.toInt) (op.apply (.integer a))) :
    (unary op e).Settled env := by
  have happly (a : Int64) (ha : a.toInt = e.exact env) :
      Settles ((Expr.unary op e).exact env) ((Expr.unary op e).Fails env)
        (op.apply (.integer a)) := by
    have h := hop a
    rw [ha] at h
    exact h
  rw [Settled, evaluate, postorder]
  exact (Settles.bind he happly).congr fun err => firstFails_root.symm

theorem Settled.binary {op : BinaryOp} {l r : Expr} (hl : l.Settled env) (hr : r.Settled env)
    (hop : ∀ a b : Int64, Settles (op.exact a.toInt b.toInt) (op.Fails a.toInt b.toInt)
      (op.apply (.integer a) (.integer b))) :
    (binary l op r).Settled env := by
  have happly (a b : Int64) (ha : a.toInt = l.exact env) (hb : b.toInt = r.exact env) :
      Settles ((Expr.binary l op r).exact env) ((Expr.binary l op r).Fails env)
        (op.apply (.integer a) (.integer b)) := by
    have h := hop a b
    rw [ha, hb] at h
    exact h
  have hright (a : Int64) (ha : a.toInt = l.exact env) :
      Settles ((Expr.binary l op r).exact env)
        (FirstFails env (r.postorder ++ [Expr.binary l op r]))
        (do let b ← r.evaluate env; op.apply (.integer a) b) :=
    (Settles.bind hr fun b hb => happly a b ha hb).congr fun err => firstFails_root.symm
  rw [Settled, evaluate, postorder]
  exact (Settles.bind hl hright).congr fun err => firstFails_append.symm

/-- By induction on what is built of integers. -/
theorem OnIntegers.settled {e : Expr} (h : e.OnIntegers env) : e.Settled env := by
  induction h with
  | @literal l n h =>
    rw [Settled, evaluate, h, exact, h]
    exact .exact rfl fun err => mt firstFails_singleton.mp not_false
  | @identifier name d n h hd =>
    have hexact : (Expr.identifier name).exact env = n := by simp [Expr.exact, h, hd]
    rw [Settled, evaluate, Environment.lookup, h, hexact]
    exact Datum.toValue_settles hd name fun err => mt firstFails_singleton.mp not_false
  | paren _ ih => exact ih.paren
  | plus _ ih => exact ih.unary UnaryOp.plus_settles
  | minus _ ih => exact ih.unary UnaryOp.minus_settles
  | arithmetic _ _ ihl ihr => exact ihl.binary ihr (ArithmeticOp.onIntegers_settles _)
  | integer _ _ ihl ihr => exact ihl.binary ihr (IntegerOp.onIntegers_settles _)

/--
**Integers are exact or refused.**

An expression that is built of integers has its exact value just if no node fails. Otherwise its
error is that of the first node that fails, operands before what is made of them.
-/
theorem evaluate_integers {e : Expr} (h : e.OnIntegers env) :
    (∀ v, e.evaluate env = .ok v ↔
      NoneFails env e.postorder ∧ ∃ n : Int64, n.toInt = e.exact env ∧ v = .integer n) ∧
    ∀ err, e.evaluate env = .error err ↔ FirstFails env e.postorder err := by
  have hsettled : Settles _ _ _ := h.settled
  rw [noneFails_iff]
  generalize e.evaluate env = r at hsettled
  cases hsettled with
  | @exact m hm hnone =>
    refine ⟨fun v => ⟨?_, ?_⟩, fun err => ⟨?_, ?_⟩⟩
    · rintro ⟨⟩
      exact ⟨hnone, m, hm, rfl⟩
    · rintro ⟨-, n, hn, rfl⟩
      rw [Int64.toInt_inj.mp (hm.trans hn.symm)]
    · exact nofun
    · exact fun herr => absurd herr (hnone err)
  | @refused err' herr' =>
    refine ⟨fun v => ⟨nofun, ?_⟩, fun err => ⟨?_, ?_⟩⟩
    · rintro ⟨hnone, -⟩
      exact absurd herr' (hnone err')
    · rintro ⟨⟩
      exact herr'
    · exact fun herr => by rw [herr'.unique herr]

/-- Of `(1 << s) + 1 / 0` the shift is met first, and 64 bits cannot be shifted by 64. -/
theorem evaluate_integers_amountFirst :
    let shifted := binary (literal ⟨.integer, "1", .integer 1⟩) (.integer .shl) (identifier "s")
    let quotient := binary (literal ⟨.integer, "1", .integer 1⟩) (.arithmetic .div)
      (literal ⟨.integer, "0", .integer 0⟩)
    (binary (paren shifted) (.arithmetic .add) quotient).evaluate
        (Environment.empty.insert "s" (.uint 64)) =
      .error (.overflow (.binary (.integer .shl))) := by
  intro shifted quotient
  have hs : (Environment.empty.insert "s" (.uint 64)).find? "s" = some (.uint 64) :=
    Environment.find?_insert_self _ _ _
  have hshifted : shifted.OnIntegers (Environment.empty.insert "s" (.uint 64)) :=
    .integer (.literal rfl) (.identifier hs rfl)
  have hquotient : quotient.OnIntegers (Environment.empty.insert "s" (.uint 64)) :=
    .arithmetic (.literal rfl) (.literal rfl)
  have hamount : (identifier "s").exact (Environment.empty.insert "s" (.uint 64)) = 64 := by
    simp [exact, hs, Datum.integer?]
  refine ((evaluate_integers (.arithmetic (.paren hshifted) hquotient)).2 _).mpr
    ⟨[literal ⟨.integer, "1", .integer 1⟩, identifier "s"], shifted,
      paren shifted :: (quotient.postorder ++
        [binary (paren shifted) (.arithmetic .add) quotient]), rfl, ?_, ?_⟩
  · simp [NoneFails, Fails]
  · refine .amount (.inl rfl) ?_
    rw [hamount]
    decide

end Expr

end Reckon
