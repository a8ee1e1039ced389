import Mathlib.Data.Nat.Find
import Reckon.Proofs.Parsing.Lookahead

/-!
# The limit of the depth

How many levels the parser enters for an expression is a number that can be read off the tree
(`Expr.need`). A level is given back where an operand, parentheses or an index end, but the levels
of a row of operators add up until the row has ended: its second operator is one level below the
first. So what counts in front of a right operand is how many operators its row has entered so far,
and these are the binary operators down the left side of the tree (`Expr.spine`).

The limit decides nothing else. A source has a threshold: below it the parser finds no room, and
from there on its answer is always the same, be it an expression or an error
(`Expr.parseWithin_threshold`).
-/

namespace Reckon

namespace Expr

/-! ## Levels of an expression -/

/-- The number of binary operators from the root down the left side. -/
def spine : Expr → Nat
  | binary l _ _ => l.spine + 1
  | _ => 0

/-- The number of levels that are entered while the expression is read. -/
def need : Expr → Nat
  | literal _ | identifier _ => 0
  | unary _ e | paren e => 1 + e.need
  | binary l _ r => max l.need (l.spine + 1 + r.need)
  | index b i => max b.need (1 + i.need)
  | member b _ => b.need

theorem spine_le_need (e : Expr) : e.spine ≤ e.need := by
  cases e with
  | binary l op r =>
    rw [spine, need]
    omega
  | _ => exact Nat.zero_le _

/-- What a single token is needs no level. -/
theorem need_ofToken {t : Token} {e : Expr} (h : ofToken t = .ok e) : e.need = 0 ∧ e.spine = 0 := by
  unfold ofToken at h
  split at h
  · cases h
    exact ⟨rfl, rfl⟩
  · split at h
    · cases h
      exact ⟨rfl, rfl⟩
    · cases h

end Expr

namespace Parser

/-! ## Runs with just enough room -/

/-- The same place with another limit. -/
def setLimit (p : Parser) (d : Nat) : Parser := { p with limit := d }

theorem CanOpen.setLimit {p : Parser} {d : Nat} (h : p.CanOpen) (hd : p.depth + 1 ≤ d) :
    (p.setLimit d).CanOpen := ⟨hd, h.2⟩

/-- A run of the rule that accepts `e` enters `n` levels. -/
def Rule.Needs : Rule → (e : Expr) → (n : Nat) → Prop
  | .binary _, e, n => e.need = n
  | .row _ l, e, n => e.need = max l.need (l.spine + n)
  | .unary, e, n | .operand, e, n => e.need = n ∧ e.spine = 0
  | .behind b, e, n => e.need = max b.need n ∧ (b.spine = 0 → e.spine = 0)

/-- The rule accepts `e` with room for `n` levels, and with any limit that leaves as much room. -/
structure Within (rule : Rule) (p : Parser) (e : Expr) (q : Parser) (n : Nat) : Prop where
  needs : rule.Needs e n
  room : p.depth + n ≤ p.limit
  parses : ∀ d, p.depth + n ≤ d → Parses rule (p.setLimit d) e (q.setLimit d)

/--
**A run enters the levels that the tree says, and any limit that has room for them will do.**
-/
theorem Parses.within {rule : Rule} {p q : Parser} {e : Expr} (h : Parses rule p e q)
    (hp : p.depth ≤ p.limit) : ∃ n, Within rule p e q n := by
  induction h with
  | @binary bound p q r l e hu hr ihu ihr =>
    have hdepth : q.depth = p.depth := hu.levels
    have hlimit := hu.onward.limit
    obtain ⟨n, ⟨hneed, hspine⟩, hroom, hparses⟩ := ihu hp
    obtain ⟨m, hrow, hroom', hparses'⟩ := ihr (by omega)
    refine ⟨max n m, ?_, by omega, fun d hd => ?_⟩
    · show e.need = max n m
      rw [hrow, hneed, hspine, Nat.zero_add]
    · exact .binary (hparses d (by omega)) (hparses' d (by omega))
  | @rowEnd bound p l h =>
    refine ⟨0, ?_, hp, fun d _ => .rowEnd h⟩
    exact (Nat.max_eq_left l.spine_le_need).symm
  | @rowFold bound p q s l r e op h hopen hr hs ihr ihs =>
    have hdepth : q.depth = p.depth + 1 := hr.levels
    have hlimit : q.limit = p.limit := hr.onward.limit
    obtain ⟨n, hneed, hroom, hparses⟩ := ihr hopen.1
    obtain ⟨m, hrow, hroom', hparses'⟩ := ihs (by have := hopen.1; omega)
    replace hneed : r.need = n := hneed
    replace hroom : p.depth + 1 + n ≤ p.limit := hroom
    refine ⟨1 + max n m, ?_, by omega, fun d hd => ?_⟩
    · -- the operator is one more level for its right operand and for the rest of the row
      have htree : e.need = max (max l.need (l.spine + 1 + r.need)) (l.spine + 1 + m) := hrow
      show e.need = max l.need (l.spine + (1 + max n m))
      omega
    · exact .rowFold h (hopen.setLimit (by omega))
        (hparses d (show p.depth + 1 + n ≤ d by omega)) (hparses' d (by omega))
  | plain h ho ih =>
    obtain ⟨n, hneeds, hroom, hparses⟩ := ih hp
    exact ⟨n, hneeds, hroom, fun d hd => .plain h (hparses d hd)⟩
  | @unary p q e op h hopen hu ih =>
    obtain ⟨n, ⟨hneed, -⟩, hroom, hparses⟩ := ih hopen.1
    replace hroom : p.depth + 1 + n ≤ p.limit := hroom
    refine ⟨1 + n, ⟨congrArg (1 + ·) hneed, rfl⟩, by omega, fun d hd => ?_⟩
    exact .unary (p := p.setLimit d) h (hopen.setLimit (by omega))
      (hparses d (show p.depth + 1 + n ≤ d by omega))
  | @paren p q s e t h hopen he hk hq ht ihe iht =>
    -- what stands behind the parentheses finds their level given back
    have hdepth : q.advance.leave.depth = p.depth := congrArg (· - 1) he.levels
    have hlimit : q.advance.leave.limit = p.limit := he.onward.limit
    obtain ⟨n, hneed, hroom, hparses⟩ := ihe hopen.1
    obtain ⟨m, ⟨hbehind, hspine⟩, hroom', hparses'⟩ := iht (by omega)
    replace hneed : e.need = n := hneed
    replace hroom : p.depth + 1 + n ≤ p.limit := hroom
    refine ⟨max (1 + n) m, ⟨?_, hspine rfl⟩, by omega, fun d hd => ?_⟩
    · rw [hbehind, Expr.need, hneed]
    · exact .paren h (hopen.setLimit (by omega))
        (hparses d (show p.depth + 1 + n ≤ d by omega)) hk hq (hparses' d (by omega))
  | @token p s e t h hadvance he ht ih =>
    obtain ⟨hneed, hspine⟩ := Expr.need_ofToken he
    obtain ⟨n, ⟨hbehind, hspine'⟩, hroom, hparses⟩ := ih hp
    refine ⟨n, ⟨?_, hspine' hspine⟩, hroom, fun d hd => .token h hadvance he (hparses d hd)⟩
    rw [hbehind, hneed, Nat.zero_max]
  | @index p q b i h hopen hi hk hq ih =>
    obtain ⟨n, hneed, hroom, hparses⟩ := ih hopen.1
    replace hroom : p.depth + 1 + n ≤ p.limit := hroom
    refine ⟨1 + n, ⟨?_, fun _ => rfl⟩, by omega, fun d hd => ?_⟩
    · exact congrArg (fun k => max b.need (1 + k)) hneed
    · exact .index (p := p.setLimit d) h (hopen.setLimit (by omega))
        (hparses d (show p.depth + 1 + n ≤ d by omega)) hk hq
  | member h hadvance hk hq =>
    exact ⟨0, ⟨(Nat.max_zero _).symm, fun _ => rfl⟩, hp, fun d _ => .member h hadvance hk hq⟩
  | bare hb hd => exact ⟨0, ⟨(Nat.max_zero _).symm, id⟩, hp, fun d _ => .bare hb hd⟩

/-! ## More room -/

/-- Except for the limit, the error of a state depends on its place. -/
theorem Cause.error_congr {c : Cause} {q q' : Parser} (hc : c ≠ .tooDeep)
    (ht : q'.tokens = q.tokens) (hs : q'.stop = q.stop) : c.error q' = c.error q := by
  have hpeek : q'.peek = q.peek := by rw [peek, peek, ht, hs]
  cases c with
  | tooDeep => exact absurd rfl hc
  | badLiteral kind lexeme => rfl
  | _ => rw [Cause.error, Cause.error, hpeek]

/-- States further on in the same tokens are at the same place if as many tokens are left. -/
theorem Onward.tokens_eq {p p' q q' : Parser} (h : Onward p q) (h' : Onward p' q')
    (ht : p'.tokens = p.tokens) (hl : q'.tokens.length = q.tokens.length) : q'.tokens = q.tokens :=
  (List.suffix_of_suffix_length_le (ht ▸ h'.suffix) h.suffix (Nat.le_of_eq hl)).eq_of_length hl

theorem agree_setLimit (p : Parser) (d : Nat) : Agree 0 0 p (p.setLimit d) :=
  ⟨Nat.zero_le _, rfl, rfl⟩

/-- With a larger limit the answer is the same, unless there was no room. -/
theorem parse_setLimit {p : Parser} {d : Nat} (h : p.limit ≤ d) :
    p.parse.1 = .error (.tooDeep p.limit) ∨ (p.setLimit d).parse.1 = p.parse.1 := by
  have hroom : Roomier p (p.setLimit d) := Nat.sub_le_sub_right h _
  cases hparse : p.parse.1 with
  | ok e =>
    right
    obtain ⟨hlegal, r, hrun, heof⟩ := parse_eq_ok_iff.mp hparse
    obtain ⟨r', hrun', hr⟩ := hrun.transfer (Nat.zero_le _) (p.agree_setLimit d) hroom
    exact parse_eq_ok_iff.mpr ⟨hlegal, r', hrun', hr.kind.trans heof⟩
  | error e =>
    obtain ⟨c, q, rfl, hrejects⟩ := parse_fst_eq_error_iff.mp hparse
    by_cases hc : c = .tooDeep
    · left
      rw [hc, Cause.error, hrejects.onward.limit]
    · -- the two runs end at the same place, so the errors report the same token
      right
      obtain ⟨q', hrejects', hq, -⟩ :=
        hrejects.transfer (absurd · hc) (Nat.zero_le _) (p.agree_setLimit d) hroom
      have htokens := hrejects.onward.tokens_eq hrejects'.onward rfl (by simpa using hq.length.symm)
      have hstop := hrejects'.onward.stop.trans hrejects.onward.stop.symm
      exact parse_fst_eq_error_iff.mpr ⟨c, q', (Cause.error_congr hc htokens hstop).symm, hrejects'⟩

/-- An error of the depth reports the limit, and there are more tokens than levels. -/
theorem parse_tooDeep {p : Parser} {k : Nat} (h : p.parse.1 = .error (.tooDeep k)) :
    k = p.limit ∧ p.limit < p.depth + p.tokens.length := by
  obtain ⟨c, q, he, hrejects⟩ := parse_fst_eq_error_iff.mp h
  cases c with
  | tooDeep =>
    cases he
    refine ⟨hrejects.onward.limit, ?_⟩
    cases hrejects with
    | inside _ hf => exact hf.limit_lt
  | _ => cases he

end Parser

namespace Expr

/-! ## The threshold -/

theorem setLimit_ofSource (source : String) (k d : Nat) :
    (Parser.ofSource source k).setLimit d = Parser.ofSource source d := rfl

/-- An error of the depth reports the limit, and there are more tokens than levels. -/
theorem parseWithin_tooDeep {source : String} {d k : Nat}
    (h : parseWithin d source = .error (.tooDeep k)) :
    k = d ∧ d < (Token.tokens source).length := by
  obtain ⟨hk, hlt⟩ := Parser.parse_tooDeep h
  exact ⟨hk, Nat.lt_of_lt_of_eq hlt (Nat.zero_add _)⟩

/-- With a larger limit the answer is the same, unless there was no room. -/
theorem parseWithin_mono {source : String} {k d : Nat} (h : k ≤ d) :
    parseWithin k source = .error (.tooDeep k) ∨ parseWithin d source = parseWithin k source := by
  have hmono := Parser.parse_setLimit (p := Parser.ofSource source k) h
  rwa [setLimit_ofSource] at hmono

/-- An expression is accepted as soon as there is room for the levels that it needs. -/
theorem parseWithin_need {source : String} {d : Nat} {t : Expr} (h : parseWithin d source = .ok t) :
    t.need ≤ d ∧ parseWithin t.need source = .ok t := by
  obtain ⟨hlegal, q, hrun, heof⟩ := Parser.parse_eq_ok_iff.mp h
  obtain ⟨n, hneed, hroom, hparses⟩ := hrun.within (Nat.zero_le d)
  replace hneed : t.need = n := hneed
  replace hroom : 0 + n ≤ d := hroom
  have hparse := hparses n (Nat.le_of_eq (Nat.zero_add n))
  rw [setLimit_ofSource] at hparse
  rw [hneed]
  exact ⟨by omega, Parser.parse_eq_ok_iff.mpr ⟨hlegal, _, hparse, heof⟩⟩

/--
**The limit of the depth is a threshold and nothing else.**

For each source there is a number of levels, not larger than the number of its tokens. With a
smaller limit the parser finds no room. With this limit and every larger one it gives one and the
same answer, which is another one; if this is an expression, the number is what the expression
needs.
-/
theorem parseWithin_threshold (source : String) :
    ∃ n ≤ (Token.tokens source).length, ∃ answer : Except ParseError Expr,
      (∀ k, answer ≠ .error (.tooDeep k)) ∧ (∀ d, n ≤ d → parseWithin d source = answer) ∧
        (∀ d, d < n → parseWithin d source = .error (.tooDeep d)) ∧
          ∀ t, answer = .ok t → n = t.need := by
  classical
  -- the threshold is the smallest limit with room
  have hexists : ∃ n, parseWithin n source ≠ .error (.tooDeep n) :=
    ⟨(Token.tokens source).length, fun h => Nat.lt_irrefl _ (parseWithin_tooDeep h).2⟩
  have hroom := Nat.find_spec hexists
  refine ⟨Nat.find hexists, Nat.find_min' hexists ?_, parseWithin (Nat.find hexists) source,
    fun k hk => ?_, fun d hd => ?_, fun d hd => ?_, fun t ht => ?_⟩
  · exact fun h => Nat.lt_irrefl _ (parseWithin_tooDeep h).2
  · exact hroom ((parseWithin_tooDeep hk).1 ▸ hk)
  · exact (parseWithin_mono hd).resolve_left hroom
  · exact Decidable.not_not.mp (Nat.find_min hexists hd)
  · obtain ⟨hle, hneed⟩ := parseWithin_need ht
    refine Nat.le_antisymm (Nat.find_min' hexists ?_) hle
    rw [hneed]
    exact fun h => by cases h

end Expr

end Reckon
