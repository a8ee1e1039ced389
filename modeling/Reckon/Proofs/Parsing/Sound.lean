import Reckon.Proofs.Parsing.Runs
import Reckon.Proofs.Parsing.WellFormed

/-!
# What the parser accepts is in the grammar

A run of a rule goes past exactly the words of the expression that it accepts, and the expression
is well-formed (`Parser.Parses.sound`).

The invariant of a row of operators is that no operator ahead binds tighter than the operator at
the root of the expression in front of it. It holds at the start, because an operand has no such
root, and again behind each right operand, because that was read until no operator of a smaller
rank was ahead. So the rank of the expression in front never exceeds that of the operator it is
put under.
-/

namespace Reckon.Parser

/-! ## The words that are left -/

/-- The words of the tokens that are left. -/
def words (p : Parser) : List Word := p.tokens.map Token.word

@[simp]
theorem words_leave (p : Parser) : p.leave.words = p.words := rfl

/-- The tokens that are left are texts of their kinds, unless they are illegal. -/
def Scanned (p : Parser) : Prop :=
  ∀ w ∈ p.words, w.1 ≠ .illegal → Lexeme.Spells w.1 w.2.toList

theorem words_of_kind {p : Parser} (h : p.peek.kind ≠ .eof) :
    p.words = p.peek.word :: p.advance.words := by
  unfold peek at h
  split at h
  · exact absurd rfl h
  next t ts ht => simp [words, peek, advance, ht]

theorem Scanned.advance {p : Parser} (hp : p.Scanned) : p.advance.Scanned := by
  intro w hw
  obtain ⟨t, ht, rfl⟩ := List.mem_map.mp hw
  exact hp _ (List.mem_map_of_mem (List.mem_of_mem_tail ht))

/-- The token ahead is a text of its kind. -/
theorem Scanned.peek {p : Parser} (hp : p.Scanned) (he : p.peek.kind ≠ .eof)
    (hi : p.peek.kind ≠ .illegal) : Lexeme.Spells p.peek.kind p.peek.lexeme.toList :=
  hp p.peek.word (words_of_kind he ▸ List.mem_cons_self) hi

/-- A symbol ahead is written as it has to be. -/
theorem words_of_symbol {p : Parser} {s : Symbol} (hp : p.Scanned)
    (h : p.peek.kind = .symbol s) : p.words = s.word :: p.advance.words := by
  have he : p.peek.kind ≠ .eof := by rw [h]; exact TokenKind.noConfusion
  have hi : p.peek.kind ≠ .illegal := by rw [h]; exact TokenKind.noConfusion
  have hs := hp.peek he hi
  rw [h] at hs
  have hlexeme : p.peek.lexeme = s.text := String.toList_inj.mp hs
  rw [words_of_kind he, Token.word, h, hlexeme]
  rfl

/-! ## Operators ahead -/

theorem ofKind?_eq_some_iff {k : TokenKind} {op : BinaryOp} :
    BinaryOp.ofKind? k = some op ↔ k = .symbol op.symbol := by
  cases k with
  | symbol s =>
    rw [TokenKind.symbol.injEq]
    exact BinaryOp.ofSymbol?_eq_some_iff
  | _ => constructor <;> intro h <;> cases h

theorem unary_ofKind?_eq_some_iff {k : TokenKind} {op : UnaryOp} :
    UnaryOp.ofKind? k = some op ↔ k = .symbol op.symbol := by
  cases k with
  | symbol s =>
    rw [TokenKind.symbol.injEq]
    exact UnaryOp.ofSymbol?_eq_some_iff
  | _ => constructor <;> intro h <;> cases h

theorem binaryAhead?_eq_some_iff {p : Parser} {bound : Nat} {op : BinaryOp} :
    p.binaryAhead? bound = some op ↔ p.peek.kind = .symbol op.symbol ∧ op.rank < bound := by
  rw [binaryAhead?, Option.filter_eq_some_iff, ofKind?_eq_some_iff, decide_eq_true_iff]

/-- No operator ahead binds tighter than `bound`. -/
theorem binaryAhead?_eq_none_iff {p : Parser} {bound : Nat} :
    p.binaryAhead? bound = none ↔ ∀ op : BinaryOp, p.peek.kind = .symbol op.symbol → bound ≤ op.rank := by
  constructor
  · intro h op hop
    by_cases hlt : op.rank < bound
    · rw [binaryAhead?_eq_some_iff.mpr ⟨hop, hlt⟩] at h
      cases h
    · exact Nat.not_lt.mp hlt
  · intro h
    cases hop : p.binaryAhead? bound with
    | none => rfl
    | some op =>
      obtain ⟨hkind, hlt⟩ := binaryAhead?_eq_some_iff.mp hop
      exact absurd hlt (Nat.not_lt.mpr (h op hkind))

/-! ## Operands of one token -/

theorem ofToken_wellFormed {t : Token} {e : Expr} (hs : Lexeme.Spells t.kind t.lexeme.toList)
    (hk : t.kind.isOperand = true) (h : Expr.ofToken t = .ok e) :
    e.flatten = [t.word] ∧ e.WellFormed ∧ e.isPrimary = true := by
  have hof := h
  unfold Expr.ofToken at h
  split at h
  next hnone =>
    cases h
    have hkind : t.kind = .identifier := by
      revert hk hnone
      cases t.kind <;> simp [TokenKind.isOperand, Kind.ofToken?]
    rw [hkind] at hs hnone
    have hwords : t.lexeme ≠ "true" ∧ t.lexeme ≠ "false" := by
      simpa [Kind.ofToken?] using hnone
    exact ⟨by rw [Expr.flatten, Token.word, hkind], .identifier hs hwords.1 hwords.2, rfl⟩
  next k hk =>
    obtain ⟨hkind, -⟩ := Kind.ofToken?_eq_some_iff.mp hk
    split at h
    · cases h
      refine ⟨by rw [Expr.flatten, Token.word, hkind], .literal (hkind ▸ hs) ?_, rfl⟩
      rw [← hkind]
      exact hof
    · cases h

/-! ## Runs -/

/-- What an accepted expression `e` has to do with the words that a run of the rule goes past. -/
def Rule.Accounts : Rule → (p : Parser) → (e : Expr) → (q : Parser) → Prop
  | .binary bound, p, e, q => 0 < bound →
    p.words = e.flatten ++ q.words ∧ e.WellFormed ∧ e.rank < bound ∧ q.binaryAhead? bound = none
  | .row bound l, p, e, q => l.WellFormed → l.rank < bound → p.binaryAhead? l.rank = none →
    l.flatten ++ p.words = e.flatten ++ q.words ∧ e.WellFormed ∧ e.rank < bound ∧
      q.binaryAhead? bound = none
  | .unary, p, e, q => p.words = e.flatten ++ q.words ∧ e.WellFormed ∧ e.rank = 0
  | .operand, p, e, q => p.words = e.flatten ++ q.words ∧ e.WellFormed ∧ e.rank = 0
  | .behind b, p, e, q => b.WellFormed → b.isPrimary = true →
    b.flatten ++ p.words = e.flatten ++ q.words ∧ e.WellFormed ∧ e.rank = 0

theorem binaryAhead?_zero (p : Parser) : p.binaryAhead? 0 = none :=
  binaryAhead?_eq_none_iff.mpr fun _ _ => Nat.zero_le _

/-- **A run goes past the words of the expression that it accepts.** -/
theorem Parses.sound {rule : Rule} {p q : Parser} {e : Expr} (h : Parses rule p e q)
    (hp : p.Scanned) : q.Scanned ∧ rule.Accounts p e q := by
  induction h with
  | binary hu hr ihu ihr =>
    obtain ⟨hq, hwords, hwf, hrank⟩ := ihu hp
    obtain ⟨hr, hrow⟩ := ihr hq
    refine ⟨hr, fun hpos => ?_⟩
    rw [hwords]
    exact hrow hwf (hrank ▸ hpos) (hrank ▸ binaryAhead?_zero _)
  | rowEnd h => exact ⟨hp, fun hl hlt _ => ⟨rfl, hl, hlt, h⟩⟩
  | @rowFold bound p q s l r e op h hopen hr hs ihr ihs =>
    obtain ⟨hkind, hlt⟩ := binaryAhead?_eq_some_iff.mp h
    have hwords := words_of_symbol hp hkind
    obtain ⟨hq, hright⟩ := ihr hp.advance
    obtain ⟨hrwords, hrwf, hrrank, hnone⟩ := hright (BinaryOp.rank_pos op)
    obtain ⟨hs, hrow⟩ := ihs hq
    refine ⟨hs, fun hl hlbound hlnone => ?_⟩
    -- the operator ahead does not bind tighter than the one at the root of the left side
    have hlop := binaryAhead?_eq_none_iff.mp hlnone op hkind
    obtain ⟨hswords, hrest⟩ := hrow (.binary hl hrwf hlop hrrank) hlt hnone
    refine ⟨?_, hrest⟩
    calc l.flatten ++ p.words
        = l.flatten ++ op.symbol.word :: p.deeper.advance.words := by rw [hwords]; rfl
      _ = (Expr.binary l op r).flatten ++ q.words := by rw [hrwords, Expr.flatten]; simp
      _ = e.flatten ++ s.words := hswords
  | plain h ho ih => exact ih hp
  | @unary p q e op h hopen hu ih =>
    have hwords := words_of_symbol hp (unary_ofKind?_eq_some_iff.mp h)
    obtain ⟨hq, hewords, hwf, hrank⟩ := ih hp.advance
    refine ⟨hq, ?_, .unary hwf hrank, rfl⟩
    calc p.words = op.symbol.word :: p.deeper.advance.words := hwords
      _ = (Expr.unary op e).flatten ++ q.words := by rw [hewords]; rfl
  | @paren p q s e t h hopen he hk hadvance ht ihe iht =>
    obtain ⟨hq, hinner⟩ := ihe hp.advance
    obtain ⟨hewords, hwf, -, -⟩ := hinner (by decide)
    obtain ⟨hs, hbehind⟩ := iht hq.advance
    obtain ⟨htwords, hrest⟩ := hbehind (.paren hwf) rfl
    refine ⟨hs, ?_, hrest⟩
    calc p.words = Symbol.leftParen.word :: p.deeper.advance.words := words_of_symbol hp h
      _ = Symbol.leftParen.word :: (e.flatten ++ Symbol.rightParen.word :: q.advance.words) := by
        rw [hewords, words_of_symbol hq hk]
      _ = (Expr.paren e).flatten ++ q.advance.words := by simp [Expr.flatten]
      _ = t.flatten ++ s.words := htwords
  | @token p s e t h hadvance he ht ih =>
    have heof : p.peek.kind ≠ .eof := fun heq => by rw [heq] at h; cases h
    have hlegal : p.peek.kind ≠ .illegal := fun heq => by rw [heq] at h; cases h
    obtain ⟨hflatten, hwf, hprimary⟩ := ofToken_wellFormed (hp.peek heof hlegal) h he
    obtain ⟨hs, hbehind⟩ := ih hp.advance
    obtain ⟨htwords, hrest⟩ := hbehind hwf hprimary
    refine ⟨hs, ?_, hrest⟩
    rw [words_of_kind heof, ← htwords, hflatten]
    rfl
  | @index p q b i h hopen hi hk hadvance ih =>
    obtain ⟨hq, hinner⟩ := ih hp.advance
    obtain ⟨hiwords, hwf, -, -⟩ := hinner (by decide)
    refine ⟨hq.advance, fun hb hprimary => ⟨?_, .index hb hprimary hwf, rfl⟩⟩
    have hwords : p.words = Symbol.leftBracket.word :: p.deeper.advance.words :=
      words_of_symbol hp h
    rw [hwords, hiwords, words_of_symbol hq hk, Expr.flatten]
    simp
  | @member p b h hadvance hk hnext =>
    have heof : p.advance.peek.kind ≠ .eof := by rw [hk]; exact TokenKind.noConfusion
    have hlegal : p.advance.peek.kind ≠ .illegal := by rw [hk]; exact TokenKind.noConfusion
    have hs := hp.advance.peek heof hlegal
    rw [hk] at hs
    refine ⟨hp.advance.advance, fun hb hprimary => ⟨?_, .member hb hprimary hs, rfl⟩⟩
    rw [words_of_symbol hp h, words_of_kind heof, Token.word, hk, Expr.flatten]
    simp
  | bare hb hd =>
    exact ⟨hp, fun hbwf hbprimary => ⟨rfl, hbwf, Expr.rank_of_isPrimary hbprimary⟩⟩

end Reckon.Parser
