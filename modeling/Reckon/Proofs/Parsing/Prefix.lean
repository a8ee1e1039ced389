import Reckon.Proofs.Lexical.Literals
import Reckon.Proofs.Parsing.Depth
import Reckon.Proofs.Parsing.Language

/-!
# Where the parser stops

The parser goes on for as long as what it has read can become an expression, and no further.

What is read when a rule gets stuck can be completed: open parentheses and indices are closed, and
a name stands where an operand or a member is due (`Stuck.viable`). A rule that calls another one
completes what the other one has completed (`Calls.viable`). So every failing run, and every
rejected source, has a completion of the words in front of the error (`Rejects.viable`). The one
exception is a literal that denotes no value with an illegal token behind it, because the literal
is only decoded once the token behind it is known to be legal (`Mended`).

No completion goes on with the word at the error, because a run looks no further than that
(`Rejects.transfer`).
-/

namespace Reckon

namespace Parser

/-! ## Completions -/

/-- The words are those of an expression of a rank below `bound`. -/
def Written (bound : Nat) (us : List Word) : Prop :=
  ∃ e : Expr, e.WellFormed ∧ e.flatten = us ∧ e.rank < bound

/-- The words `us` are all that the rule has to go past to accept an expression. -/
def Rule.Fits : Rule → (p : Parser) → (us : List Word) → Prop
  | .binary bound, _, us => 0 < bound → Written bound us
  | .row bound l, p, us => l.WellFormed → l.rank < bound → p.binaryAhead? l.rank = none →
    Written bound (l.flatten ++ us)
  | .unary, _, us | .operand, _, us => Written 1 us
  | .behind b, _, us => b.WellFormed → b.isPrimary = true → Written 1 (b.flatten ++ us)

/-- A name that stands for an operand. -/
def anyName : Word := (.identifier, String.ofList ['x'])

/-- The words `vs` are the words `us`. In front of an illegal token, a name may have taken the
place of a literal that denotes no value. -/
inductive Mended : (c : Cause) → (us vs : List Word) → Prop
  | same {c : Cause} {us : List Word} : Mended c us us
  | literal {us : List Word} {t : Token} {e : ParseError} (hk : t.kind.isOperand = true)
    (he : Expr.ofToken t = .error e) : Mended .illegal (us ++ [t.word]) (us ++ [anyName])

/-- What the rule has read from `p` to `q` can be completed. -/
def Rule.Viable (rule : Rule) (p : Parser) (c : Cause) (q : Parser) : Prop :=
  ∃ us vs ws, p.words = us ++ q.words ∧ Mended c us vs ∧ rule.Fits p (vs ++ ws)

/-- The token ahead is at fault, and not what was read before. -/
def Cause.atToken : Cause → Bool
  | illegal | unexpected _ | noOperand => true
  | badLiteral _ _ | tooDeep => false

theorem Mended.append {c : Cause} {us vs : List Word} (h : Mended c us vs) (pre : List Word) :
    Mended c (pre ++ us) (pre ++ vs) := by
  cases h with
  | same => exact .same
  | literal hk he =>
    rw [← List.append_assoc, ← List.append_assoc]
    exact .literal hk he

/-- The words are legal if they are after mending. -/
theorem Mended.legal {c : Cause} {us vs : List Word} (h : Mended c us vs)
    (hv : ∀ w ∈ vs, w.1 ≠ .illegal) : ∀ w ∈ us, w.1 ≠ .illegal := by
  cases h with
  | same => exact hv
  | @literal us t e hk he =>
    rw [List.forall_mem_append, List.forall_mem_singleton] at hv ⊢
    refine ⟨hv.1, fun hi => ?_⟩
    rw [show t.kind = .illegal from hi] at hk
    cases hk

namespace Written

variable {m n : Nat} {us vs : List Word}

theorem mono (h : Written m us) (hmn : m ≤ n) : Written n us := by
  obtain ⟨e, he, hf, hr⟩ := h
  exact ⟨e, he, hf, Nat.lt_of_lt_of_le hr hmn⟩

theorem name : Written 1 [anyName] :=
  ⟨_, Expr.wellFormed_letter (c := 'x') rfl, rfl, Nat.one_pos⟩

theorem unary {op : UnaryOp} (h : Written 1 us) : Written 1 (op.symbol.word :: us) := by
  obtain ⟨e, he, rfl, hr⟩ := h
  exact ⟨.unary op e, .unary he (Nat.lt_one_iff.mp hr), rfl, Nat.one_pos⟩

theorem binary {l : Expr} {op : BinaryOp} (hl : l.WellFormed) (hlop : l.rank ≤ op.rank)
    (hop : op.rank < n) (h : Written op.rank us) :
    Written n (l.flatten ++ op.symbol.word :: us) := by
  obtain ⟨r, hr, rfl, hrop⟩ := h
  exact ⟨.binary l op r, .binary hl hr hlop hrop, rfl, hop⟩

theorem paren (h : Written BinaryOp.loosest us) :
    Written 1 (Symbol.leftParen.word :: (us ++ [Symbol.rightParen.word])) := by
  obtain ⟨e, he, rfl, -⟩ := h
  exact ⟨.paren e, .paren he, rfl, Nat.one_pos⟩

theorem index {b : Expr} (hb : b.WellFormed) (hp : b.isPrimary = true)
    (h : Written BinaryOp.loosest us) :
    Written 1 (b.flatten ++ Symbol.leftBracket.word :: (us ++ [Symbol.rightBracket.word])) := by
  obtain ⟨i, hi, rfl, -⟩ := h
  exact ⟨.index b i, .index hb hp hi, rfl, Nat.one_pos⟩

theorem member {b : Expr} {name : String} (hb : b.WellFormed) (hp : b.isPrimary = true)
    (hs : Lexeme.Spells .identifier name.toList) :
    Written 1 (b.flatten ++ [Symbol.dot.word, (.identifier, name)]) :=
  ⟨.member b name, .member hb hp hs, rfl, Nat.one_pos⟩

theorem bare {b : Expr} (hb : b.WellFormed) (hp : b.isPrimary = true) : Written 1 b.flatten :=
  ⟨b, hb, rfl, by rw [Expr.rank_of_isPrimary hp]; exact Nat.one_pos⟩

end Written

/-! ## Completions of rules -/

theorem Onward.scanned {p q : Parser} (h : Onward p q) (hp : p.Scanned) : q.Scanned := by
  intro w hw
  obtain ⟨t, ht, rfl⟩ := List.mem_map.mp hw
  exact hp _ (List.mem_map_of_mem (h.suffix.subset ht))

theorem words_of_isOperand {p : Parser} (h : p.peek.kind.isOperand = true) :
    p.words = p.peek.word :: p.advance.words :=
  words_of_kind fun heq => by rw [heq] at h; cases h

/-- A token that is an operand with a value. -/
theorem words_of_ofToken {p : Parser} {e : Expr} (hp : p.Scanned)
    (h : p.peek.kind.isOperand = true) (he : Expr.ofToken p.peek = .ok e) :
    p.words = e.flatten ++ p.advance.words ∧ e.WellFormed ∧ e.isPrimary = true := by
  have heof : p.peek.kind ≠ .eof := fun heq => by rw [heq] at h; cases h
  have hlegal : p.peek.kind ≠ .illegal := fun heq => by rw [heq] at h; cases h
  obtain ⟨hflatten, hwf, hprimary⟩ := ofToken_wellFormed (hp.peek heof hlegal) h he
  exact ⟨by rw [hflatten, words_of_isOperand h]; rfl, hwf, hprimary⟩

/-- Behind what opens a level, an operand with all that belongs to it completes the rule. -/
theorem Rule.Opens.fits {rule : Rule} {p : Parser} (h : rule.Opens p) (hp : p.Scanned) :
    ∃ w post, p.words = w :: p.advance.words ∧
      ∀ us, Written 1 us → rule.Fits p (w :: (us ++ post)) := by
  cases h with
  | @row bound l _ op h =>
    obtain ⟨hkind, hlt⟩ := binaryAhead?_eq_some_iff.mp h
    refine ⟨op.symbol.word, [], words_of_symbol hp hkind, fun us hus hl _ hnone => ?_⟩
    rw [List.append_nil]
    exact .binary hl (binaryAhead?_eq_none_iff.mp hnone op hkind) hlt (hus.mono op.rank_pos)
  | @unary _ op h =>
    refine ⟨op.symbol.word, [], words_of_symbol hp (unary_ofKind?_eq_some_iff.mp h),
      fun us hus => ?_⟩
    rw [List.append_nil]
    exact hus.unary
  | paren h =>
    exact ⟨_, [Symbol.rightParen.word], words_of_symbol hp h,
      fun us hus => (hus.mono (Nat.succ_pos _)).paren⟩

/-- Between two symbols, a whole expression and the closing symbol complete the rule. -/
theorem Rule.Encloses.fits {rule : Rule} {p : Parser} {s : Symbol} (h : rule.Encloses p s)
    (hp : p.Scanned) : ∃ w, p.words = w :: p.deeper.advance.words ∧
      ∀ us, Written BinaryOp.loosest us → rule.Fits p (w :: (us ++ [s.word])) := by
  cases h with
  | paren h => exact ⟨_, words_of_symbol hp h, fun us hus => hus.paren⟩
  | index h => exact ⟨_, words_of_symbol hp h, fun us hus hb hprimary => .index hb hprimary hus⟩

/-- A whole expression that was read between two symbols. -/
theorem Rule.Encloses.inner {rule : Rule} {p q : Parser} {s : Symbol} {e : Expr}
    (h : rule.Encloses p s) (hp : p.Scanned)
    (he : Parses (.binary BinaryOp.loosest) p.deeper.advance e q) :
    ∃ w, p.words = w :: (e.flatten ++ q.words) ∧ q.Scanned ∧
      rule.Fits p (w :: (e.flatten ++ [s.word])) := by
  obtain ⟨w, hwords, hfits⟩ := h.fits hp
  obtain ⟨hq, haccounts⟩ := he.sound hp.advance
  obtain ⟨hewords, hwf, hrank, -⟩ := haccounts (Nat.succ_pos _)
  exact ⟨w, hewords ▸ hwords, hq, hfits _ ⟨e, hwf, rfl, hrank⟩⟩

/-- **A rule can be completed around any completion of a rule that it calls.** -/
theorem Calls.fits {rule rule' : Rule} {p p' : Parser} (h : Calls rule p rule' p')
    (hp : p.Scanned) : ∃ pre post, p.words = pre ++ p'.words ∧
      ∀ us, rule'.Fits p' us → rule.Fits p (pre ++ (us ++ post)) := by
  cases h with
  | first =>
    refine ⟨[], [], rfl, fun us hus hpos => ?_⟩
    rw [List.nil_append, List.append_nil]
    exact hus.mono hpos
  | @row bound _ _ l hu =>
    -- an operand has no binary operator at its root, so no operator ahead binds tighter
    obtain ⟨-, hwords, hwf, hrank⟩ := hu.sound hp
    refine ⟨l.flatten, [], hwords, fun us hus hpos => ?_⟩
    rw [List.append_nil]
    exact hus hwf (hrank ▸ hpos) (hrank ▸ binaryAhead?_zero _)
  | @right bound p l op h hopen =>
    obtain ⟨hkind, hlt⟩ := binaryAhead?_eq_some_iff.mp h
    refine ⟨[op.symbol.word], [], words_of_symbol hp hkind, fun us hus hl _ hnone => ?_⟩
    rw [List.append_nil]
    exact .binary hl (binaryAhead?_eq_none_iff.mp hnone op hkind) hlt (hus op.rank_pos)
  | @fold bound p q l r op h hopen hr =>
    obtain ⟨hkind, hlt⟩ := binaryAhead?_eq_some_iff.mp h
    have hwords : p.words = op.symbol.word :: p.deeper.advance.words := words_of_symbol hp hkind
    obtain ⟨-, haccounts⟩ := hr.sound hp.advance
    obtain ⟨hrwords, hrwf, hrrank, hrnone⟩ := haccounts op.rank_pos
    refine ⟨op.symbol.word :: r.flatten, [], by rw [hwords, hrwords]; rfl,
      fun us hus hl _ hnone => ?_⟩
    -- the row goes on behind the folded expression
    have hlop := binaryAhead?_eq_none_iff.mp hnone op hkind
    have hrest := hus (.binary hl hrwf hlop hrrank) hlt hrnone
    rw [Expr.flatten] at hrest
    simpa using hrest
  | operand h =>
    refine ⟨[], [], rfl, fun us hus => ?_⟩
    rw [List.nil_append, List.append_nil]
    exact hus
  | @unary p op h hopen =>
    refine ⟨[op.symbol.word], [], words_of_symbol hp (unary_ofKind?_eq_some_iff.mp h),
      fun us hus => ?_⟩
    rw [List.append_nil]
    exact Written.unary hus
  | @inner _ _ s h hopen =>
    obtain ⟨w, hwords, hfits⟩ := h.fits hp
    exact ⟨[w], [s.word], hwords, fun us hus => hfits us (hus (Nat.succ_pos _))⟩
  | @paren p q e h hopen he hk hq =>
    have hwords : p.words = Symbol.leftParen.word :: p.deeper.advance.words := words_of_symbol hp h
    obtain ⟨hqs, haccounts⟩ := he.sound hp.advance
    obtain ⟨hewords, hwf, -, -⟩ := haccounts (Nat.succ_pos _)
    refine ⟨(Expr.paren e).flatten, [], ?_, fun us hus => ?_⟩
    · rw [hwords, hewords, words_of_symbol hqs hk, Expr.flatten]
      simp
    · rw [List.append_nil]
      exact hus (.paren hwf) rfl
  | @token p e h hadvance he =>
    obtain ⟨hwords, hwf, hprimary⟩ := words_of_ofToken hp h he
    refine ⟨e.flatten, [], hwords, fun us hus => ?_⟩
    rw [List.append_nil]
    exact hus hwf hprimary

theorem Calls.viable {rule rule' : Rule} {p p' q : Parser} {c : Cause} (h : Calls rule p rule' p')
    (hp : p.Scanned) (hv : rule'.Viable p' c q) : rule.Viable p c q := by
  obtain ⟨pre, post, hwords, hfits⟩ := h.fits hp
  obtain ⟨us, vs, ws, hus, hmended, hws⟩ := hv
  refine ⟨pre ++ us, pre ++ vs, ws ++ post, ?_, hmended.append pre, ?_⟩
  · rw [hwords, hus, List.append_assoc]
  · have hcompleted := hfits _ hws
    simpa using hcompleted

/-- **What was read when a rule got stuck can be completed.** -/
theorem Stuck.viable {rule : Rule} {p q : Parser} {c : Cause} (h : Stuck rule p c q)
    (hp : p.Scanned) (hc : c.atToken = true) : rule.Viable p c q := by
  cases h with
  | tooDeep h hd => cases hc
  | opened h hd hadvance =>
    obtain ⟨w, post, hwords, hfits⟩ := h.fits hp
    exact ⟨[w], [w], anyName :: post, hwords, .same, hfits _ .name⟩
  | passed h hadvance =>
    cases h with
    | token h =>
      cases he : Expr.ofToken p.peek with
      | error e =>
        -- the literal is never decoded, because the token behind it is illegal
        exact ⟨[] ++ [p.peek.word], [] ++ [anyName], [], words_of_isOperand h, .literal h he, .name⟩
      | ok e =>
        obtain ⟨hwords, hwf, hprimary⟩ := words_of_ofToken hp h he
        exact ⟨e.flatten, e.flatten, [], hwords, .same, by
          rw [List.append_nil]; exact .bare hwf hprimary⟩
    | index h =>
      obtain ⟨w, hwords, hfits⟩ := (Rule.Encloses.index h).fits hp
      exact ⟨[w], [w], [anyName, Symbol.rightBracket.word], hwords, .same,
        hfits _ (Written.name.mono (Nat.succ_pos _))⟩
    | member h =>
      refine ⟨[Symbol.dot.word], [Symbol.dot.word], [anyName], words_of_symbol hp h, .same,
        fun hb hprimary => ?_⟩
      exact .member hb hprimary ⟨'x', [], String.toList_ofList, rfl, by simp⟩
  | indexTooDeep h hadvance hd => cases hc
  | @unclosed _ _ _ s e h hopen he hk =>
    obtain ⟨w, hwords, -, hfits⟩ := h.inner hp he
    exact ⟨w :: e.flatten, w :: e.flatten, [s.word], hwords, .same, hfits⟩
  | @closed _ _ q s e h hopen he hk hq =>
    obtain ⟨w, hwords, hqs, hfits⟩ := h.inner hp he
    refine ⟨w :: (e.flatten ++ [s.word]), w :: (e.flatten ++ [s.word]), [], ?_, .same, ?_⟩
    · rw [hwords, words_of_symbol hqs hk]
      simp
    · rw [List.append_nil]
      exact hfits
  | literal h hadvance he => cases hc
  | noOperand hk h => exact ⟨[], [], [anyName], rfl, .same, .name⟩
  | noName h hadvance hk =>
    refine ⟨[Symbol.dot.word], [Symbol.dot.word], [anyName], words_of_symbol hp h, .same,
      fun hb hprimary => ?_⟩
    exact .member hb hprimary ⟨'x', [], String.toList_ofList, rfl, by simp⟩
  | named h hadvance hk hq =>
    have heof : p.advance.peek.kind ≠ .eof := by rw [hk]; exact TokenKind.noConfusion
    have hs := hp.advance.peek heof (by rw [hk]; exact TokenKind.noConfusion)
    have hwords : p.words = [Symbol.dot.word, p.advance.peek.word] ++ p.advance.advance.words := by
      rw [words_of_symbol hp h, words_of_kind heof]
      rfl
    refine ⟨_, _, [], hwords, .same, fun hb hprimary => ?_⟩
    rw [hk] at hs
    rw [List.append_nil, Token.word, hk]
    exact .member hb hprimary hs

theorem Fails.viable {rule : Rule} {p q : Parser} {c : Cause} (h : Fails rule p c q)
    (hp : p.Scanned) (hc : c.atToken = true) : rule.Viable p c q := by
  induction h with
  | here h => exact h.viable hp hc
  | call h hf ih => exact h.viable hp (ih (h.onward.scanned hp) hc)

/-- **The words in front of an error can be completed to an expression.** -/
theorem Rejects.viable {p q : Parser} {c : Cause} (h : p.Rejects c q) (hp : p.Scanned)
    (hc : c.atToken = true) : ∃ us vs ws, p.words = us ++ q.words ∧ Mended c us vs ∧
      ∃ t : Expr, t.WellFormed ∧ t.flatten = vs ++ ws := by
  cases h with
  | illegal h =>
    obtain ⟨t, ht, hflatten, -⟩ := Written.name
    exact ⟨[], [], [anyName], rfl, .same, t, ht, hflatten⟩
  | inside h hf =>
    obtain ⟨us, vs, ws, hwords, hmended, hfits⟩ := hf.viable hp hc
    obtain ⟨t, ht, hflatten, -⟩ := hfits (Nat.succ_pos _)
    exact ⟨us, vs, ws, hwords, hmended, t, ht, hflatten⟩
  | @trailing _ e h hrun hk =>
    obtain ⟨-, haccounts⟩ := hrun.sound hp
    obtain ⟨hwords, hwf, -, -⟩ := haccounts (Nat.succ_pos _)
    exact ⟨e.flatten, e.flatten, [], hwords, .same, e, hwf, (List.append_nil _).symm⟩

/-! ## Places -/

/-- The tokens between two states, and the token that is ahead then. -/
theorem Onward.exists_before {p q : Parser} (h : Onward p q) : ∃ before,
    p.tokens = before ++ q.tokens ∧ before ++ [q.peek] <+: p.tokens ++ [Scanner.eofAt p.stop] := by
  obtain ⟨before, hbefore⟩ := h.suffix
  refine ⟨before, hbefore.symm, ?_⟩
  rw [← hbefore, List.append_assoc, List.prefix_append_right_inj, peek, h.stop]
  split
  next hnil => rw [hnil]; exact List.prefix_rfl
  next t ts hcons => rw [hcons]; exact List.prefix_append [t] _

theorem stream_ofSource (source : String) (limit : Nat) :
    (ofSource source limit).stream = (Token.scanAll source).map Token.word := by
  rw [stream, words, Token.scanAll, List.map_append]
  rfl

end Parser

namespace Expr

/-- A text that starts with a blank, behind the first `o` bytes of the source, makes them an
expression. -/
def Extendable (source : String) (o : Nat) : Prop :=
  ∃ pre post rest : String, source = pre ++ post ∧ pre.utf8ByteSize = o ∧
    (∃ c ∈ rest.toList.head?, Lexeme.isBlank c = true) ∧
      ∃ limit t, parseWithin limit (pre ++ rest) = .ok t

/-- No source that is scanned into these words and others is an expression. -/
def DeadEnd (ws : List Word) : Prop :=
  ∀ source, ws <+: (Token.scanAll source).map Token.word → ∀ limit t,
    parseWithin limit source ≠ .ok t

theorem extendable_of_words {source : String} {before : List Token} {t : Token} {ws : List Word}
    {e : Expr} (ht : before ++ [t] <+: Token.scanAll source)
    (hlegal : ∀ u ∈ before, u.kind ≠ .illegal) (he : e.WellFormed)
    (hw : e.flatten = before.map Token.word ++ ws) : Extendable source t.offset := by
  obtain ⟨after, hafter⟩ := ht
  rw [List.append_assoc] at hafter
  obtain ⟨a, b, hab, hoffset, hscan⟩ := Scanner.exists_cut hafter.symm hlegal
  have hws : ∀ w ∈ ws, Lexeme.Spells w.1 w.2.toList :=
    fun w hm => he.spells w (hw ▸ List.mem_append_right _ hm)
  refine ⟨String.ofList a, String.ofList b, String.ofList (' ' :: Word.spaced ws), ?_, ?_,
    ⟨' ', by simp, by decide⟩, _, e, parseWithin_of_wellFormed (Nat.le_refl _) he ?_⟩
  · rw [← String.ofList_append, ← hab]
    exact String.ofList_toList.symm
  · rw [hoffset, ← byteLength_toList, String.toList_ofList]
    exact (Nat.zero_add _).symm
  · calc (Token.tokens (String.ofList a ++ String.ofList (' ' :: Word.spaced ws))).map Token.word
        = Word.scan (a ++ ([' '] ++ Word.spaced ws)) := by
          rw [← String.ofList_append, Token.tokens, Scanner.ofSource, String.toList_ofList]; rfl
      _ = before.map Token.word ++ Word.scan ([' '] ++ Word.spaced ws) :=
          hscan _ (by simpa using Word.forall_mem_space)
      _ = e.flatten := by rw [Word.scan_blanks Word.forall_mem_space, Word.scan_spaced hws, hw]

theorem deadEnd_of_rejects {source : String} {limit : Nat} {c : Parser.Cause} {q : Parser}
    {before : List Token} (h : (Parser.ofSource source limit).Rejects c q) (hc : c ≠ .tooDeep)
    (hq : Token.tokens source = before ++ q.tokens)
    (hpeek : before ++ [q.peek] <+: Token.scanAll source) :
    DeadEnd ((before ++ [q.peek]).map Token.word) := by
  intro source' hprefix limit' t hparse
  -- with the larger one of the limits the other source is still accepted
  have hok : parseWithin (max limit limit') source' = .ok t := by
    rw [(parseWithin_mono (Nat.le_max_right limit limit')).resolve_left, hparse]
    rw [hparse]
    exact fun h => by cases h
  let p := Parser.ofSource source limit
  let p' := Parser.ofSource source' (max limit limit')
  have hlength : p.tokens.length = before.length + q.tokens.length := by
    rw [show p.tokens = before ++ q.tokens from hq, List.length_append]
  have hahead : p.stream.take (p.tokens.length - q.tokens.length + 1) <+: p'.stream := by
    have htake := List.prefix_iff_eq_take.mp (hpeek.map Token.word)
    rw [Parser.stream_ofSource, Parser.stream_ofSource, hlength, Nat.add_sub_cancel]
    rw [List.length_map, List.length_append, List.length_singleton] at htake
    rwa [← htake]
  obtain ⟨m, hagree⟩ := Parser.agree_of_prefix (by omega) hahead
  have hroom : Parser.Roomier p p' := Nat.le_max_left limit limit'
  obtain ⟨q', hrejects, -⟩ := h.transfer (absurd · hc) (Nat.le_refl _) hagree hroom
  cases hok.symm.trans (Parser.parse_fst_eq_error_iff.mpr ⟨c, q', rfl, hrejects⟩)

/-- A literal that denotes no value is out of range. -/
theorem outOfRange_of_ofToken {t : Token} {e : ParseError}
    (hs : Lexeme.Spells t.kind t.lexeme.toList) (h : ofToken t = .error e) : t.OutOfRange := by
  unfold ofToken at h
  split at h
  · cases h
  next k hk =>
    split at h
    · cases h
    next hnone => exact (Literal.decode?_eq_none_iff hs hk).mp hnone

/-- Where the token ahead is at fault, the tokens in front of it are the start of an expression and
those up to it are not. -/
theorem located_of_rejects {source : String} {limit : Nat} {c : Parser.Cause} {q : Parser}
    (h : (Parser.ofSource source limit).Rejects c q) (hc : c.atToken = true) :
    ∃ before, before ++ [q.peek] <+: Token.scanAll source ∧ (∀ u ∈ before, u.kind ≠ .illegal) ∧
      DeadEnd ((before ++ [q.peek]).map Token.word) ∧
        (Extendable source q.peek.offset ∨ c = .illegal ∧ ∃ u ∈ before.getLast?, u.OutOfRange) := by
  have hscanned := Parser.ofSource_scanned source limit
  obtain ⟨before, hq, hpeek⟩ := h.onward.exists_before
  obtain ⟨us, vs, ws, hwords, hmended, t, ht, hflatten⟩ := h.viable hscanned hc
  have hus : us = before.map Token.word := by
    rw [Parser.words, Parser.words, hq, List.map_append] at hwords
    exact (List.append_cancel_right hwords).symm
  -- the words read are, but for a mended literal, words of an expression
  have hlegal : ∀ u ∈ before, u.kind ≠ .illegal := by
    intro u hu
    refine hmended.legal (fun w hw => t.flatten_legal w ?_) u.word ?_
    · exact hflatten ▸ List.mem_append_left ws hw
    · exact hus ▸ List.mem_map_of_mem hu
  refine ⟨before, hpeek, hlegal, deadEnd_of_rejects h (by rintro rfl; cases hc) hq hpeek, ?_⟩
  cases hmended with
  | same => exact .inl (extendable_of_words hpeek hlegal ht (hus ▸ hflatten))
  | @literal us t' e hk he =>
    -- the literal that was mended is the last token in front of the error
    right
    obtain ⟨init, last, rfl, -, hlast⟩ := List.map_eq_append_iff.mp hus.symm
    obtain ⟨u, rfl, hu⟩ := List.map_eq_singleton_iff.mp hlast
    refine ⟨rfl, u, by simp, outOfRange_of_ofToken ?_ ((Parser.ofToken_of_word hu).trans he)⟩
    refine hscanned u.word ?_ (hlegal u (by simp))
    rw [Parser.words, hq]
    simp

/--
**The parser stops at the first token that no expression goes on with.**

If it reports that something else had to come than the token at the place `o`, this token is there,
and the tokens in front of it are legal. The text up to `o` can be extended to an expression, and no
source that starts with the tokens up to this one is an expression. If the parser reports illegal
text, this is the first illegal token, and the text in front of it can be extended as well, unless
it ends in a number that is too large.
-/
theorem parseWithin_stops (source : String) (limit : Nat) :
    (∀ found o, (∃ x, parseWithin limit source = .error (.unexpectedToken x found o)) ∨
        parseWithin limit source = .error (.expectedExpression found o) →
      ∃ before t, before ++ [t] <+: Token.scanAll source ∧ t.kind = found ∧ t.offset = o ∧
        (∀ u ∈ before, u.kind ≠ .illegal) ∧ Extendable source o ∧
          DeadEnd ((before ++ [t]).map Token.word)) ∧
      ∀ e, parseWithin limit source = .error (.lex e) →
        ∃ before t, before ++ [t] <+: Token.scanAll source ∧ t.kind = .illegal ∧
          t.offset = e.offset ∧ t.lexeme = e.lexeme ∧ (∀ u ∈ before, u.kind ≠ .illegal) ∧
            (Extendable source e.offset ∨ ∃ u ∈ before.getLast?, u.OutOfRange) := by
  constructor
  · intro found o h
    obtain ⟨c, q, hc, hlegal, hrejects, rfl, rfl⟩ : ∃ c q, c.atToken = true ∧ c ≠ .illegal ∧
        (Parser.ofSource source limit).Rejects c q ∧ q.peek.kind = found ∧ q.peek.offset = o := by
      rcases h with ⟨x, h⟩ | h
      · obtain ⟨c, q, herror, hrejects⟩ := Parser.parse_fst_eq_error_iff.mp h
        cases c <;> cases herror
        exact ⟨_, q, rfl, Parser.Cause.noConfusion, hrejects, rfl, rfl⟩
      · obtain ⟨c, q, herror, hrejects⟩ := Parser.parse_fst_eq_error_iff.mp h
        cases c <;> cases herror
        exact ⟨_, q, rfl, Parser.Cause.noConfusion, hrejects, rfl, rfl⟩
    obtain ⟨before, hpeek, hbefore, hdead, hextend⟩ := located_of_rejects hrejects hc
    exact ⟨before, q.peek, hpeek, rfl, rfl, hbefore,
      hextend.resolve_right fun hi => hlegal hi.1, hdead⟩
  · intro e h
    obtain ⟨c, q, herror, hrejects⟩ := Parser.parse_fst_eq_error_iff.mp h
    cases c <;> cases herror
    obtain ⟨before, hpeek, hbefore, -, hextend⟩ := located_of_rejects hrejects rfl
    exact ⟨before, q.peek, hpeek, hrejects.peek_illegal, rfl, rfl, hbefore,
      hextend.imp_right And.right⟩

theorem parseWithin_two_names :
    parseWithin 4 "a b" = .error (.unexpectedToken .endOfInput .identifier 2) := by
  let p := Parser.ofSource "a b" 4
  have hp : p.peek = ⟨.identifier, "a", 0⟩ := by decide +kernel
  have hq : p.advance.peek = ⟨.identifier, "b", 2⟩ := by decide +kernel
  have hbare : Parser.Parses (.behind (.identifier "a")) p.advance (.identifier "a") p.advance :=
    .bare (by rw [hq]; decide) (by rw [hq]; decide)
  have hname : Parser.Parses .unary p (.identifier "a") p.advance :=
    .plain (by rw [Parser.unaryAhead?, hp]; rfl)
      (.token (by rw [hp]; rfl) (by rw [Parser.CanAdvance, hq]; decide) (by rw [hp]; rfl) hbare)
  have hend : p.advance.binaryAhead? BinaryOp.loosest = none := by
    rw [Parser.binaryAhead?, hq]
    rfl
  refine Parser.parse_fst_eq_error_iff.mpr ⟨.unexpected .endOfInput, _, ?_,
    .trailing (by rw [hp]; decide) (.binary hname (.rowEnd hend)) ?_⟩
  · show _ = ParseError.unexpectedToken _ p.advance.peek.kind p.advance.peek.offset
    rw [hq]
  · show p.advance.peek.kind ≠ .eof
    rw [hq]
    decide

theorem parseWithin_minus_dollar : parseWithin 4 "-$" = .error (.lex ⟨1, "$"⟩) := by
  let p := Parser.ofSource "-$" 4
  have hp : p.peek = ⟨.symbol .minus, "-", 0⟩ := by decide +kernel
  have hq : p.advance.peek = ⟨.illegal, "$", 1⟩ := by decide +kernel
  have hop : p.unaryAhead? = some .minus := by
    rw [Parser.unaryAhead?, hp]
    rfl
  have hstuck : Parser.Stuck .unary p .illegal p.deeper.advance :=
    .opened (.unary hop) (by decide) fun h => h (by rw [hq])
  refine Parser.parse_fst_eq_error_iff.mpr ⟨.illegal, _, ?_,
    .inside (by rw [hp]; decide) (.call .first (.here hstuck))⟩
  show _ = ParseError.lex ⟨p.advance.peek.offset, p.advance.peek.lexeme⟩
  rw [hq]

/-- A second name and a stray character are where the parser stops. -/
theorem parseWithin_stops_name_dollar :
    ((∃ x, parseWithin 4 "a b" = .error (.unexpectedToken x .identifier 2)) ∧
      ∃ before t, before ++ [t] <+: Token.scanAll "a b" ∧ t.kind = .identifier ∧ t.offset = 2 ∧
        (∀ u ∈ before, u.kind ≠ .illegal) ∧ Extendable "a b" 2 ∧
          DeadEnd ((before ++ [t]).map Token.word)) ∧
      parseWithin 4 "-$" = .error (.lex ⟨1, "$"⟩) ∧
        ∃ before t, before ++ [t] <+: Token.scanAll "-$" ∧ t.kind = .illegal ∧ t.offset = 1 ∧
          t.lexeme = "$" ∧ (∀ u ∈ before, u.kind ≠ .illegal) ∧
            (Extendable "-$" 1 ∨ ∃ u ∈ before.getLast?, u.OutOfRange) :=
  ⟨⟨⟨_, parseWithin_two_names⟩,
      (parseWithin_stops "a b" 4).1 _ _ (.inl ⟨_, parseWithin_two_names⟩)⟩,
    parseWithin_minus_dollar, (parseWithin_stops "-$" 4).2 _ parseWithin_minus_dollar⟩

end Expr

end Reckon
