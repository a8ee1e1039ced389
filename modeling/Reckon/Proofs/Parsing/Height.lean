import Reckon.Proofs.Parsing.Nesting

/-!
# How high accepted trees are

The height of a tree counts members too, which the limit of the depth does not. But at each level
there is room for one of them only, in the place where an index may stand: behind parentheses, a
member is no more than an index that costs no level. So a member is replaced by an index
(`Expr.indexed`), and then the bound on how deep expressions are nested is a bound on the height;
what is left over is the leaf at the end of a path and a member that it may have.

The bound is exact: for every limit there is a source whose tree is as high as it says.
-/

namespace Reckon.Expr

/-! ## Members as indices -/

/-- The expression with an index in the place of each member, and without the members of operands
that need no level. -/
def indexed : Expr → Expr
  | literal l => literal l
  | identifier name => identifier name
  | unary op e => unary op e.indexed
  | binary l op r => binary l.indexed op r.indexed
  | paren e => paren e.indexed
  | index b i => index b.indexed i.indexed
  | member b _ => if b.need = 0 then b.indexed else index b.indexed (identifier "a")

/-- The indices that are put in cost no level. -/
theorem levels_indexed (e : Expr) : e.indexed.need = e.need ∧ e.indexed.spine = e.spine := by
  induction e with
  | literal l => exact ⟨rfl, rfl⟩
  | identifier name => exact ⟨rfl, rfl⟩
  | unary op e ih =>
    rw [indexed, need, need, ih.1]
    exact ⟨rfl, rfl⟩
  | binary l op r ihl ihr =>
    rw [indexed, need, need, spine, spine, ihl.1, ihl.2, ihr.1]
    exact ⟨rfl, rfl⟩
  | paren e ih =>
    rw [indexed, need, need, ih.1]
    exact ⟨rfl, rfl⟩
  | index b i ihb ihi =>
    rw [indexed, need, need, ihb.1, ihi.1]
    exact ⟨rfl, rfl⟩
  | member b name ih =>
    have hspine := b.spine_le_need
    rw [indexed, need, show (member b name).spine = 0 from rfl]
    split
    · exact ⟨ih.1, by omega⟩
    · rw [need, need, ih.1]
      exact ⟨by omega, rfl⟩

/-- No binary operator comes to stand at the root. -/
theorem rank_indexed (e : Expr) : e.indexed.rank = e.rank := by
  cases e with
  | member b name =>
    rw [indexed]
    split
    next hn =>
      have hspine : b.indexed.spine = 0 := by
        have := b.spine_le_need
        have := b.levels_indexed.2
        omega
      cases hb : b.indexed with
      | binary l op r => rw [hb] at hspine; cases hspine
      | _ => rfl
    · rfl
  | _ => rfl

theorem isPrimary_indexed {e : Expr} (h : e.isPrimary = true) : e.indexed.isPrimary = true := by
  cases e with
  | literal l => rfl
  | identifier name => rfl
  | paren e => rfl
  | _ => cases h

theorem WellFormed.indexed {e : Expr} (h : e.WellFormed) : e.indexed.WellFormed := by
  induction h with
  | literal hs hl => exact .literal hs hl
  | identifier hs ht hf => exact .identifier hs ht hf
  | @unary op e he hr ih => exact .unary ih (e.rank_indexed.trans hr)
  | @binary l r op hl hr hlop hrop ihl ihr =>
    exact .binary ihl ihr (l.rank_indexed ▸ hlop) (r.rank_indexed ▸ hrop)
  | paren he ih => exact .paren ih
  | index hb hp hi ihb ihi => exact .index ihb (isPrimary_indexed hp) ihi
  | member hb hp hs ih =>
    rw [Expr.indexed]
    split
    · exact ih
    · exact .index ih (isPrimary_indexed hp) (wellFormed_letter (c := 'a') rfl)

/-- An operand that needs no level is a leaf. -/
theorem height_of_isPrimary {e : Expr} (h : e.isPrimary = true) (hn : e.need = 0) :
    e.height = 1 := by
  cases e with
  | literal l => rfl
  | identifier name => rfl
  | paren e => rw [need] at hn; omega
  | _ => cases h

/-- A tree is no higher than it is nested with its members as indices, apart from a leaf and its
member. -/
theorem WellFormed.height_le {e : Expr} (h : e.WellFormed) :
    e.height ≤ e.indexed.nesting + 2 := by
  induction h with
  | literal hs hl => exact Nat.le_succ 1
  | identifier hs ht hf => exact Nat.le_succ 1
  | unary he hr ih => rw [height, Expr.indexed, nesting]; omega
  | binary hl hr hlop hrop ihl ihr => rw [height, Expr.indexed, nesting]; omega
  | paren he ih => rw [height, Expr.indexed, nesting]; omega
  | index hb hp hi ihb ihi => rw [height, Expr.indexed, nesting]; omega
  | member hb hp hs ih =>
    rw [height, Expr.indexed]
    split
    next hn => rw [height_of_isPrimary hp hn]; omega
    next hn => rw [nesting]; omega

/-! ## The bound is met -/

/-- An expression that needs `n` levels and is as high as these allow. -/
def tallest : Nat → Expr
  | 0 => member (identifier "a") "a"
  | n + 1 => (member (paren (tallest n)) "a").chain (n + 1)

theorem height_pos (e : Expr) : 0 < e.height := by
  cases e <;> exact Nat.zero_lt_succ _

theorem height_chain (e : Expr) (n : Nat) : (e.chain n).height = e.height + n := by
  have hpos := e.height_pos
  induction n with
  | zero => rfl
  | succ n ih =>
    rw [chain, height, height, ih]
    omega

/-- A member of any operand. -/
theorem WellFormed.member_letter {e : Expr} (h : e.WellFormed) (hp : e.isPrimary = true) :
    (Expr.member e "a").WellFormed :=
  .member h hp ⟨'a', [], rfl, rfl, by simp⟩

theorem tallest_wellFormed (n : Nat) : (tallest n).WellFormed := by
  induction n with
  | zero => exact (wellFormed_letter (c := 'a') rfl).member_letter rfl
  | succ n ih => exact WellFormed.chain ((WellFormed.paren ih).member_letter rfl) rfl _

theorem need_tallest (n : Nat) : (tallest n).need = n := by
  induction n with
  | zero => rfl
  | succ n ih =>
    rw [tallest, need_chain rfl, need, need, ih]
    omega

theorem height_tallest (n : Nat) : (tallest n).height = reach n + 2 := by
  induction n with
  | zero => rfl
  | succ n ih =>
    rw [tallest, height_chain, height, height, ih, reach]
    omega

theorem reach_add_two (n : Nat) : reach n + 2 = (n + 1) * (n + 4) / 2 := by
  have hdouble : 2 * (reach n + 2) = (n + 1) * (n + 4) := by
    rw [Nat.mul_add, two_mul_reach]
    ring
  omega

/--
**The height of an accepted tree is bounded by the limit of the depth, and the bound is exact.**
-/
theorem height_parseWithin (d : Nat) :
    (∀ source t, parseWithin d source = .ok t → t.height ≤ (d + 1) * (d + 4) / 2) ∧
      ∃ source t, parseWithin d source = .ok t ∧ t.height = (d + 1) * (d + 4) / 2 := by
  rw [← reach_add_two]
  constructor
  · intro source t h
    have ht := wellFormed_of_parseWithin h
    have hneed : t.indexed.need ≤ d := t.levels_indexed.1 ▸ (parseWithin_need h).1
    calc t.height ≤ t.indexed.nesting + 2 := ht.height_le
      _ ≤ reach d + 2 := Nat.add_le_add_right (ht.indexed.shallow.nesting_le hneed) 2
  · obtain ⟨source, hparse⟩ := exists_parseWithin_need (tallest_wellFormed d)
    rw [need_tallest] at hparse
    exact ⟨source, tallest d, hparse, height_tallest d⟩

/-- Two members, parentheses and an operator are as high as one level allows. -/
theorem height_parseWithin_one :
    ∃ t, parseWithin 1 "(a.a).a + a" = .ok t ∧ t.height = 5 ∧
      t.height ≤ (1 + 1) * (1 + 4) / 2 := by
  let t : Expr := .binary (.member (.paren (.member (.identifier "a") "a")) "a") (.arithmetic .add)
    (.identifier "a")
  have hletter : (identifier "a").WellFormed := wellFormed_letter (c := 'a') rfl
  have hbase : (paren (.member (.identifier "a") "a")).WellFormed :=
    .paren (hletter.member_letter rfl)
  have ht : t.WellFormed := .binary (hbase.member_letter rfl) hletter (by decide) (by decide)
  have hparse : parseWithin 1 "(a.a).a + a" = .ok t :=
    parseWithin_need_of_wellFormed ht (by decide +kernel)
  exact ⟨t, hparse, rfl, (height_parseWithin 1).1 _ t hparse⟩

end Reckon.Expr
