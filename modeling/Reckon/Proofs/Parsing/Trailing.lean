import Reckon.Text.Blank
import Reckon.Proofs.Parsing.Spacing

/-!
# White space at the end of a text

There is more white space than blanks, and a token may hold any of it. But no token ends in white
space unless it is illegal (`Lexeme.Spells.isSpace_getLast`). So where all tokens are legal, the
white space at the end of a text is blanks behind its last token, and the text without it has the
same words. An expression is not changed by trimming its source (`Expr.parseWithin_trimEnd`).
-/

namespace Reckon

namespace Text

/-- Every blank is white space. -/
theorem isSpace_of_isBlank {c : Char} (h : Lexeme.isBlank c = true) : isSpace c = true := by
  rcases Lexeme.isBlank_cases h with rfl | rfl | rfl | rfl | rfl | rfl | rfl | rfl <;> decide

/-- What is visible in ASCII is no white space. -/
theorem isSpace_of_ascii {c : Char} (h : 0x20 < c.toNat) (h' : c.toNat < 0x7F) :
    isSpace c = false := by
  simp only [isSpace, inRanges, spaceRanges, List.any_cons, List.any_nil, Bool.or_false,
    Bool.or_eq_false_iff, Bool.and_eq_false_iff, decide_eq_false_iff_not]
  omega

theorem dropTrailing_append {cs ds : List Char} (h : ∀ d ∈ ds, isSpace d = true) :
    dropTrailing (cs ++ ds) = dropTrailing cs := by
  rw [dropTrailing, List.reverse_append, List.dropWhile_append_of_pos, dropTrailing]
  exact fun d hd => h d (List.mem_reverse.mp hd)

/-- Nothing is dropped behind a character that is no white space. -/
theorem dropTrailing_of_getLast? {cs : List Char} (h : ∀ c ∈ cs.getLast?, isSpace c = false) :
    dropTrailing cs = cs := by
  rw [dropTrailing]
  rcases List.eq_nil_or_concat cs with rfl | ⟨ds, c, rfl⟩
  · rfl
  · have hc : isSpace c = false := h c (by simp)
    simp [hc]

end Text

namespace Lexeme

theorem isSpace_of_isNamePart {c : Char} (h : isNamePart c = true) : Text.isSpace c = false := by
  have hranges : (((decide ('A'.val ≤ c.val ∧ c.val ≤ 'Z'.val) ||
      (decide ('a'.val ≤ c.val) && decide (c.val ≤ 'z'.val))) || c.isDigit) ||
      decide (c = '_')) = true := h
  simp only [Bool.or_eq_true, Bool.and_eq_true, decide_eq_true_eq, Char.isDigit_iff_toNat,
    UInt32.le_iff_toNat_le] at hranges
  have hbounds : 0x30 ≤ c.toNat ∧ c.toNat ≤ 0x7A := by
    rcases hranges with ((h | h) | h) | rfl
    · exact ⟨h.1.trans' (by decide), h.2.trans (by decide)⟩
    · exact ⟨h.1.trans' (by decide), h.2.trans (by decide)⟩
    · exact ⟨h.1.trans' (by decide), h.2.trans (by decide)⟩
    · decide
  exact Text.isSpace_of_ascii (by omega) (by omega)

theorem isSpace_of_isDigits {w : List Char} (h : Decimal.isDigits w = true) :
    ∃ d ∈ w.getLast?, Text.isSpace d = false := by
  have hne := isDigits_ne_nil h
  refine ⟨w.getLast hne, List.getLast?_eq_some_getLast hne, isSpace_of_isNamePart ?_⟩
  have hdigit := isDigits_all h _ (List.getLast_mem hne)
  simp [isNamePart, Char.isAlphanum, hdigit]

/-- **No word ends in white space.** -/
theorem Spells.isSpace_getLast {k : TokenKind} {w : List Char} (h : Spells k w) :
    ∃ d ∈ w.getLast?, Text.isSpace d = false := by
  cases k with
  | symbol s =>
    rw [show w = s.text.toList from h]
    cases s <;> exact ⟨_, rfl, by decide⟩
  | identifier =>
    obtain ⟨c, r, rfl, hc, hr⟩ := h
    have hall : ∀ d ∈ c :: r, isNamePart d = true :=
      List.forall_mem_cons.mpr ⟨isNamePart_of_isNameStart hc, hr⟩
    exact ⟨_, List.getLast?_eq_some_getLast (List.cons_ne_nil c r),
      isSpace_of_isNamePart (hall _ (List.getLast_mem _))⟩
  | integer => exact isSpace_of_isDigits h
  | float =>
    obtain ⟨a, b, rfl, -, hb⟩ := h
    obtain ⟨d, hd, hspace⟩ := isSpace_of_isDigits hb
    refine ⟨d, ?_, hspace⟩
    rw [List.getLast?_append_of_ne_nil _ (List.cons_ne_nil _ _), List.getLast?_cons, hd]
    rfl
  | string =>
    obtain ⟨b, rfl, -⟩ := h
    exact ⟨'"', List.getLast?_concat (l := '"' :: b), by decide⟩
  | char =>
    obtain ⟨i, rfl, -⟩ := h
    exact ⟨'\'', List.getLast?_concat (l := '\'' :: i), by decide⟩
  | illegal => exact h.elim
  | eof => exact h.elim

end Lexeme

/-! ## Behind the last token -/

/-- A text of legal tokens without the blanks at its end has the same words. -/
theorem Scanner.exists_end (s : Scanner) (hlegal : ∀ t ∈ s.tokens, t.kind ≠ .illegal) :
    ∃ a gap, s.rest = a ++ gap ∧ (∀ c ∈ gap, Lexeme.isBlank c = true) ∧
      (∀ d ∈ a.getLast?, Text.isSpace d = false) ∧ Word.scan a = s.tokens.map Token.word := by
  induction s using Scanner.tokens.induct with
  | case1 s hs =>
    refine ⟨[], s.rest, rfl, fun c hc => ?_, by simp, ?_⟩
    · rw [← skipBlanks_append s, hs, List.append_nil] at hc
      exact Lexeme.mem_takeWhile c hc
    · rw [tokens_of_rest_nil hs, Word.scan_nil, List.map_nil]
  | case2 s c cs hs ih =>
    rw [tokens_of_rest hs] at hlegal
    obtain ⟨hfirst, hrest⟩ := List.forall_mem_cons.mp hlegal
    obtain ⟨a, gap, happend, hgap, hlast, hwords⟩ := ih hrest
    have hscan := scan_of_rest hs
    have hspells : Lexeme.Spells (Lexeme.read c cs).kind (Lexeme.read c cs).text :=
      Lexeme.read_spells (by rwa [hscan] at hfirst)
    have htext : (Lexeme.read c cs).rest = a ++ gap := by rwa [hscan] at happend
    refine ⟨s.rest.takeWhile Lexeme.isBlank ++ ((Lexeme.read c cs).text ++ a), gap, ?_, hgap, ?_, ?_⟩
    · rw [List.append_assoc, List.append_assoc, ← htext, Lexeme.read_append, ← hs,
        skipBlanks_append]
    · obtain ⟨e, he, hspace⟩ := hspells.isSpace_getLast
      intro d hd
      rw [List.getLast?_append, List.getLast?_append, he] at hd
      cases ha : a.getLast? with
      | none =>
        rw [ha] at hd
        cases hd
        exact hspace
      | some x =>
        rw [ha] at hd
        cases hd
        exact hlast d ha
    · -- behind the word stands the character that stood there before, or nothing
      have hcloses : ∀ d ∈ a.head?,
          Lexeme.closes (Lexeme.read c cs).kind (Lexeme.read c cs).text d = true := by
        cases a with
        | nil => simp
        | cons x a => exact fun d hd => Lexeme.closes_of_read c cs d (htext ▸ hd)
      rw [Word.scan_blanks Lexeme.mem_takeWhile, Word.scan_word hspells hcloses, hwords,
        tokens_of_rest hs, List.map_cons, hscan]
      rfl

/-- Trimming a source of legal tokens takes nothing from its last token. -/
theorem Token.words_trimEnd {source : String} (hlegal : ∀ t ∈ tokens source, t.kind ≠ .illegal) :
    (tokens (Text.trimEnd source)).map word = (tokens source).map word := by
  obtain ⟨a, gap, happend, hgap, hlast, hwords⟩ := (Scanner.ofSource source).exists_end hlegal
  have hsource : source.toList = a ++ gap := happend
  have htrim : Text.dropTrailing source.toList = a := by
    rw [hsource, Text.dropTrailing_append fun c hc => Text.isSpace_of_isBlank (hgap c hc),
      Text.dropTrailing_of_getLast? hlast]
  rw [Text.trimEnd, htrim, tokens, Scanner.ofSource, String.toList_ofList]
  exact hwords

/-- A text of white space alone has no legal token. -/
theorem Token.tokens_of_isBlank {source : String} (h : Text.isBlank source = true)
    (hlegal : ∀ t ∈ tokens source, t.kind ≠ .illegal) : tokens source = [] := by
  have htrim : Text.trimEnd source = "" := by
    rw [Text.trimEnd, ← List.nil_append source.toList, Text.dropTrailing_append]
    · rfl
    · exact List.all_eq_true.mp h
  have hwords := words_trimEnd hlegal
  rw [htrim] at hwords
  exact List.map_eq_nil_iff.mp (hwords.symm.trans (by rw [tokens, Scanner.tokens_of_rest_nil] <;> rfl))

/-! ## Sources -/

namespace Expr

variable {source : String} {limit : Nat} {t : Expr}

theorem flatten_ne_nil (t : Expr) : t.flatten ≠ [] := by
  cases t <;> simp [flatten]

/-- The words of a source that is an expression are those of the expression. -/
theorem words_of_parseWithin (h : parseWithin limit source = .ok t) :
    (Token.tokens source).map Token.word = t.flatten := by
  obtain ⟨-, q, hrun, heof⟩ := Parser.parse_eq_ok_iff.mp h
  obtain ⟨hq, haccounts⟩ := hrun.sound (Parser.ofSource_scanned source limit)
  have hwords := (haccounts (Nat.zero_lt_succ _)).1
  rwa [hq.words_of_eof heof, List.append_nil] at hwords

theorem legal_of_parseWithin (h : parseWithin limit source = .ok t) :
    ∀ u ∈ Token.tokens source, u.kind ≠ .illegal := by
  intro u hu
  refine t.flatten_legal u.word ?_
  rw [← words_of_parseWithin h]
  exact List.mem_map_of_mem hu

/-- **An expression stays what it is without the white space behind it.** -/
theorem parseWithin_trimEnd (h : parseWithin limit source = .ok t) :
    parseWithin limit (Text.trimEnd source) = .ok t := by
  obtain ⟨f, -, hparse⟩ := parseWithin_of_words (Token.words_trimEnd (legal_of_parseWithin h))
  rw [hparse, h]
  rfl

/-- White space is no expression. -/
theorem isBlank_of_parseWithin (h : parseWithin limit source = .ok t) :
    Text.isBlank source = false := by
  rw [← Bool.not_eq_true]
  intro hblank
  have hwords := words_of_parseWithin h
  rw [Token.tokens_of_isBlank hblank (legal_of_parseWithin h)] at hwords
  exact t.flatten_ne_nil hwords.symm

end Expr

end Reckon
