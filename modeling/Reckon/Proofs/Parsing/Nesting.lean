import Mathlib.Tactic.Ring
import Reckon.Proofs.Parsing.Depth
import Reckon.Proofs.Parsing.Language

/-!
# How deep accepted expressions are

The limit of the depth bounds the levels that are entered at one time, and this is not how deep the
tree is (`Expr.nesting`). The levels of a left operand have been given back when an operator behind
it puts the operand one level down, and so have those of parentheses when an index follows. A tree
may therefore be deeper than the limit (`Expr.nesting_exceeds_limit`).

It is not arbitrarily deep. What the limit does not count is, at each level, a row of operators
that is no longer than the levels that are left, parentheses and an index. So the nesting of an
accepted expression is bounded by the square of the limit (`Expr.nesting_of_parseWithin`).
-/

namespace Reckon.Expr

/-- The largest number of operators, parentheses and indices on a way from the root to a leaf. -/
def nesting : Expr → Nat
  | literal _ | identifier _ => 0
  | unary _ e | paren e => 1 + e.nesting
  | binary l _ r => 1 + max l.nesting r.nesting
  | index b i => 1 + max b.nesting i.nesting
  | member b _ => b.nesting

/-- An expression is accepted with a limit of as many levels as it needs. -/
theorem parseWithin_need_of_wellFormed {source : String} {t : Expr} (ht : t.WellFormed)
    (hw : (Token.tokens source).map Token.word = t.flatten) :
    parseWithin t.need source = .ok t :=
  (parseWithin_need (parseWithin_of_wellFormed (Nat.le_refl _) ht hw)).2

/-- Every well-formed expression is accepted in some writing with as many levels as it needs. -/
theorem exists_parseWithin_need {t : Expr} (ht : t.WellFormed) :
    ∃ source, parseWithin t.need source = .ok t := by
  obtain ⟨source, hsource⟩ := exists_source ht
  exact ⟨source, parseWithin_need_of_wellFormed ht hsource⟩

/-- In `-a + b` the left operand has given its level back when the operator behind it is met. -/
theorem nesting_exceeds_limit :
    ∃ t, parseWithin 1 "-a + b" = .ok t ∧ ¬ t.nesting ≤ 1 := by
  let t : Expr := .binary (.unary .minus (.identifier "a")) (.arithmetic .add) (.identifier "b")
  have ht : t.WellFormed := .binary (.unary (wellFormed_letter (c := 'a') rfl) rfl)
    (wellFormed_letter (c := 'b') rfl) (by decide) (by decide)
  exact ⟨t, parseWithin_need_of_wellFormed ht (by decide +kernel), by decide⟩

/-! ## The bound -/

/-- How deep an expression that needs `n` levels may be. -/
def reach : Nat → Nat
  | 0 => 0
  | n + 1 => reach n + (n + 3)

theorem two_mul_reach (n : Nat) : 2 * reach n = n * (n + 5) := by
  induction n with
  | zero => rfl
  | succ n ih =>
    rw [reach, Nat.mul_add, ih]
    ring

/-- What needs no level is not nested. -/
theorem nesting_of_need_zero {e : Expr} (h : e.need = 0) : e.nesting = 0 := by
  induction e with
  | literal l => rfl
  | identifier name => rfl
  | unary op e ih => rw [need] at h; omega
  | binary l op r ihl ihr => rw [need] at h; omega
  | paren e ih => rw [need] at h; omega
  | index b i ihb ihi => rw [need] at h; omega
  | member b name ih => exact ih h

/-- The expression is not nested deeper than its levels explain, apart from the operators down its
left side and from what can stand at one level. -/
structure Shallow (e : Expr) : Prop where
  all : ∀ {n : Nat}, e.need ≤ n + 1 → e.nesting ≤ reach n + 2 + e.spine
  primary : e.isPrimary = true → ∀ {n : Nat}, e.need ≤ n + 1 → e.nesting ≤ reach n + 1

theorem Shallow.nesting_le {e : Expr} (h : Shallow e) {n : Nat} (hn : e.need ≤ n) :
    e.nesting ≤ reach n := by
  cases n with
  | zero => exact Nat.le_of_eq (nesting_of_need_zero (Nat.le_zero.mp hn))
  | succ n =>
    have hall := h.all hn
    have hspine := e.spine_le_need
    rw [reach]
    omega

/-- **Well-formed expressions are shallow.** -/
theorem WellFormed.shallow {e : Expr} (h : e.WellFormed) : Shallow e := by
  induction h with
  | literal hs hl => exact ⟨fun _ => Nat.zero_le _, fun _ _ _ => Nat.zero_le _⟩
  | identifier hs ht hf => exact ⟨fun _ => Nat.zero_le _, fun _ _ _ => Nat.zero_le _⟩
  | @unary op e he hr ih =>
    refine ⟨fun {n} hn => ?_, fun hp => Bool.noConfusion hp⟩
    rw [need] at hn
    have hle : e.nesting ≤ reach n := ih.nesting_le (by omega)
    rw [nesting]
    omega
  | @binary l r op hl hr hlop hrop ihl ihr =>
    refine ⟨fun {n} hn => ?_, fun hp => Bool.noConfusion hp⟩
    rw [need] at hn
    -- the left operand may need as many levels as the whole, but has one operator less
    have hleft : l.nesting ≤ reach n + 2 + l.spine := ihl.all (by omega)
    have hright : r.nesting ≤ reach n := ihr.nesting_le (by omega)
    rw [nesting, spine]
    omega
  | @paren e he ih =>
    have hle : ∀ {n : Nat}, (Expr.paren e).need ≤ n + 1 → (Expr.paren e).nesting ≤ reach n + 1 := by
      intro n hn
      rw [need] at hn
      have hinner : e.nesting ≤ reach n := ih.nesting_le (by omega)
      rw [nesting]
      omega
    exact ⟨fun hn => Nat.le_trans (hle hn) (Nat.le_succ _), fun _ => hle⟩
  | @index b i hb hp hi ihb ihi =>
    -- parentheses in front of the index are not counted by the limit any more
    refine ⟨fun {n} hn => ?_, fun hp => Bool.noConfusion hp⟩
    rw [need] at hn
    have hbase : b.nesting ≤ reach n + 1 := ihb.primary hp (by omega)
    have hindex : i.nesting ≤ reach n := ihi.nesting_le (by omega)
    rw [nesting]
    omega
  | @member b name hb hp hs ih =>
    refine ⟨fun {n} hn => ?_, fun hp => Bool.noConfusion hp⟩
    have hbase : b.nesting ≤ reach n + 1 := ih.primary hp hn
    rw [nesting]
    omega

/-- **The limit of the depth bounds how deep an accepted expression is, by its square.** -/
theorem nesting_of_parseWithin {source : String} {d : Nat} {t : Expr}
    (h : parseWithin d source = .ok t) : 2 * t.nesting ≤ d * (d + 5) := by
  have hle : t.nesting ≤ reach d :=
    (wellFormed_of_parseWithin h).shallow.nesting_le (parseWithin_need h).1
  calc 2 * t.nesting ≤ 2 * reach d := Nat.mul_le_mul_left 2 hle
    _ = d * (d + 5) := two_mul_reach d

/-- One level lets through an operator, an index and parentheses on one way. -/
theorem nesting_of_parseWithin_tight :
    ∃ t, parseWithin 1 "(a)[b] + c" = .ok t ∧ 2 * t.nesting = 1 * (1 + 5) ∧
      2 * t.nesting ≤ 1 * (1 + 5) := by
  let t : Expr := .binary (.index (.paren (.identifier "a")) (.identifier "b")) (.arithmetic .add)
    (.identifier "c")
  have ht : t.WellFormed := .binary
    (.index (.paren (wellFormed_letter (c := 'a') rfl)) rfl (wellFormed_letter (c := 'b') rfl))
    (wellFormed_letter (c := 'c') rfl) (by decide) (by decide)
  have hparse : parseWithin 1 "(a)[b] + c" = .ok t :=
    parseWithin_need_of_wellFormed ht (by decide +kernel)
  exact ⟨t, hparse, by decide, nesting_of_parseWithin hparse⟩

/-! ## The bound is met -/

/-- The expression with `n` operators in a row behind it. -/
def chain (e : Expr) : Nat → Expr
  | 0 => e
  | n + 1 => binary (e.chain n) (.arithmetic .add) (identifier "a")

/-- An expression that needs `n` levels and is as deep as these allow. -/
def deepest : Nat → Expr
  | 0 => identifier "a"
  | n + 1 => (index (paren (deepest n)) (identifier "a")).chain (n + 1)

section

variable {e : Expr}

theorem spine_chain (h : e.spine = 0) (n : Nat) : (e.chain n).spine = n := by
  induction n with
  | zero => exact h
  | succ n ih => rw [chain, spine, ih]

theorem need_chain (h : e.spine = 0) (n : Nat) : (e.chain n).need = max e.need n := by
  induction n with
  | zero => exact (Nat.max_zero _).symm
  | succ n ih =>
    rw [chain, need, need, spine_chain h, ih]
    omega

theorem nesting_chain (n : Nat) : (e.chain n).nesting = e.nesting + n := by
  induction n with
  | zero => rfl
  | succ n ih =>
    rw [chain, nesting, nesting, ih]
    omega

theorem WellFormed.chain (h : e.WellFormed) (hr : e.rank = 0) (n : Nat) :
    (e.chain n).WellFormed := by
  induction n with
  | zero => exact h
  | succ n ih =>
    refine .binary ih (wellFormed_letter (c := 'a') rfl) ?_ (by decide)
    cases n with
    | zero =>
      rw [Expr.chain, hr]
      exact Nat.zero_le _
    | succ n => exact Nat.le_refl _

end

theorem deepest_wellFormed (n : Nat) : (deepest n).WellFormed := by
  induction n with
  | zero => exact wellFormed_letter (c := 'a') rfl
  | succ n ih =>
    exact WellFormed.chain (.index (.paren ih) rfl (wellFormed_letter (c := 'a') rfl)) rfl _

theorem need_deepest (n : Nat) : (deepest n).need = n := by
  induction n with
  | zero => rfl
  | succ n ih =>
    rw [deepest, need_chain rfl, need, need, need, ih]
    omega

theorem nesting_deepest (n : Nat) : (deepest n).nesting = reach n := by
  induction n with
  | zero => rfl
  | succ n ih =>
    rw [deepest, nesting_chain, nesting, nesting, nesting, ih, reach]
    omega

/-- **Every limit lets an expression through that is as deep as the bound says.** -/
theorem exists_nesting_eq (d : Nat) :
    ∃ source t, parseWithin d source = .ok t ∧ 2 * t.nesting = d * (d + 5) := by
  obtain ⟨source, hparse⟩ := exists_parseWithin_need (deepest_wellFormed d)
  rw [need_deepest] at hparse
  exact ⟨source, deepest d, hparse, by rw [nesting_deepest, two_mul_reach]⟩

end Reckon.Expr
