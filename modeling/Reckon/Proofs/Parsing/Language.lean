import Reckon.Proofs.Lexical.Words
import Reckon.Proofs.Parsing.Complete

/-!
# The language of the parser

With room for one level for each token, the parser accepts the sources that are scanned into the
words of a well-formed expression, and hands out this expression
(`Expr.parseWithin_eq_ok_iff`). There is never a choice, because no two well-formed expressions are
written in the same way (`Expr.flatten_injective`).
-/

namespace Reckon

/-! ## Scanned tokens -/

/-- Unless it is illegal, a token that is scanned is a text of its kind. -/
theorem Scanner.tokens_spell (s : Scanner) :
    ∀ t ∈ s.tokens, t.kind ≠ .illegal → Lexeme.Spells t.kind t.lexeme.toList :=
  s.forall_mem_tokens fun s c cs hs hlegal => by
    rw [scan_of_rest hs] at hlegal ⊢
    simpa using Lexeme.read_spells hlegal

theorem Token.spells_of_mem_scanAll {source : String} {t : Token} {k : TokenKind}
    (ht : t ∈ scanAll source) (hk : t.kind = k) (hlegal : k ≠ .illegal) (heof : k ≠ .eof) :
    Lexeme.Spells k t.lexeme.toList := by
  subst hk
  rcases List.mem_append.mp ht with ht | ht
  · exact Scanner.tokens_spell _ t ht hlegal
  · rw [List.mem_singleton.mp ht] at heof
    exact absurd rfl heof

namespace Parser

theorem ofSource_scanned (source : String) (limit : Nat) : (ofSource source limit).Scanned := by
  intro w hw hlegal
  obtain ⟨t, ht, rfl⟩ := List.mem_map.mp hw
  exact Scanner.tokens_spell _ t ht hlegal

theorem Scanned.words_of_eof {p : Parser} (hp : p.Scanned) (h : p.peek.kind = .eof) :
    p.words = [] := by
  cases hw : p.words with
  | nil => rfl
  | cons w ws =>
    rw [kind_of_words hw] at h
    have hs := hp w (hw ▸ List.mem_cons_self) (by rw [h]; decide)
    rw [h] at hs
    exact hs.elim

/-! ## Whole expressions -/

/-- A well-formed expression is read off its words to the end. -/
theorem parses_of_wellFormed {p : Parser} {t : Expr} (ht : t.WellFormed)
    (hw : p.words = t.flatten) (hroom : p.depth + p.words.length ≤ p.limit) :
    ∃ q, Parses (.binary BinaryOp.loosest) p t q ∧ q.peek.kind = .eof := by
  have hroomy : p.Roomy := ⟨fun w hm => t.flatten_legal w (hw ▸ hm), hroom⟩
  have happend : p.words = t.flatten ++ [] := by rw [hw, List.append_nil]
  obtain ⟨q, hq, hrun⟩ := (readable ht).binary happend hroomy t.rank_lt_loosest (stops_nil _)
  exact ⟨q, hrun, kind_of_words_nil hq.words⟩

/-- With enough room, the words that are left decide what is parsed. -/
theorem parse_eq_ok_iff_words {p : Parser} {t : Expr} (hp : p.Scanned)
    (hroom : p.depth + p.words.length ≤ p.limit) :
    p.parse.1 = .ok t ↔ t.WellFormed ∧ p.words = t.flatten := by
  rw [parse_eq_ok_iff]
  constructor
  · rintro ⟨-, q, hrun, heof⟩
    obtain ⟨hq, haccounts⟩ := hrun.sound hp
    obtain ⟨hwords, hwf, -, -⟩ := haccounts (Nat.zero_lt_succ _)
    rw [hq.words_of_eof heof, List.append_nil] at hwords
    exact ⟨hwf, hwords⟩
  · rintro ⟨hwf, hwords⟩
    have hlegal : p.peek.kind ≠ .illegal :=
      peek_legal fun w hm => t.flatten_legal w (hwords ▸ hm)
    exact ⟨hlegal, parses_of_wellFormed hwf hwords hroom⟩

end Parser

namespace Expr

/-- A source that is scanned into the words of a well-formed expression is this expression. -/
theorem parseWithin_of_wellFormed {source : String} {limit : Nat} {t : Expr}
    (h : (Token.tokens source).length ≤ limit) (ht : t.WellFormed)
    (hw : (Token.tokens source).map Token.word = t.flatten) : parseWithin limit source = .ok t := by
  refine (Parser.parse_eq_ok_iff_words (Parser.ofSource_scanned source limit) ?_).mpr ⟨ht, hw⟩
  simpa [Parser.ofSource, Parser.words] using h

/-- Every well-formed expression can be written down. -/
theorem exists_source {t : Expr} (ht : t.WellFormed) :
    ∃ source, (Token.tokens source).map Token.word = t.flatten := by
  refine ⟨String.ofList (Word.spaced t.flatten), ?_⟩
  rw [Token.tokens, Scanner.ofSource, String.toList_ofList]
  exact Word.scan_spaced ht.spells

/-- What is accepted is well-formed, whatever the limit. -/
theorem wellFormed_of_parseWithin {source : String} {limit : Nat} {t : Expr}
    (h : parseWithin limit source = .ok t) : t.WellFormed := by
  obtain ⟨-, q, hrun, -⟩ := Parser.parse_eq_ok_iff.mp h
  obtain ⟨-, haccounts⟩ := hrun.sound (Parser.ofSource_scanned source limit)
  exact (haccounts (Nat.zero_lt_succ _)).2.1

/-- **No two well-formed expressions are written in the same way.** -/
theorem flatten_injective {t u : Expr} (ht : t.WellFormed) (hu : u.WellFormed)
    (h : t.flatten = u.flatten) : t = u := by
  let p : Parser := ⟨t.flatten.map fun w => ⟨w.1, w.2, 0⟩, 0, 0, t.flatten.length⟩
  have hwords : p.words = t.flatten := by simp [p, Parser.words, Token.word, Function.comp_def]
  have hroom : p.depth + p.words.length ≤ p.limit := by simp [hwords, p]
  -- a parser in front of these words would have to accept both
  obtain ⟨q, hq, -⟩ := Parser.parses_of_wellFormed ht hwords hroom
  obtain ⟨r, hr, -⟩ := Parser.parses_of_wellFormed hu (hwords.trans h) hroom
  exact hq.unique hr

/--
**The parser accepts the grammar, and nothing else.**

If the limit of the depth is not smaller than the number of tokens of the source, the parser hands
out the expression `t` just if `t` is well-formed and the source is scanned into the words of `t`
and its end.
-/
theorem parseWithin_eq_ok_iff {source : String} {limit : Nat}
    (h : (Token.tokens source).length ≤ limit) (t : Expr) :
    parseWithin limit source = .ok t ↔
      t.WellFormed ∧ (Token.scanAll source).map Token.word = t.flatten ++ [(.eof, "")] := by
  have hroom : (Parser.ofSource source limit).depth + (Parser.ofSource source limit).words.length ≤
      (Parser.ofSource source limit).limit := by
    simpa [Parser.ofSource, Parser.words] using h
  rw [parseWithin, Parser.parse_eq_ok_iff_words (Parser.ofSource_scanned source limit) hroom,
    Token.scanAll, List.map_append]
  refine and_congr_right fun _ => ?_
  exact (List.append_left_inj [((.eof : TokenKind), "")]).symm

/-- The limit may be as small as the number of tokens. -/
theorem parseWithin_eq_ok_iff_tight :
    (Token.tokens "-a[1<<2]- -b.c*3").length ≤ 14 ∧
      ∀ t, parseWithin 14 "-a[1<<2]- -b.c*3" = .ok t ↔ t.WellFormed ∧
        (Token.scanAll "-a[1<<2]- -b.c*3").map Token.word = t.flatten ++ [(.eof, "")] :=
  have h : (Token.tokens "-a[1<<2]- -b.c*3").length ≤ 14 := by decide +kernel
  ⟨h, parseWithin_eq_ok_iff h⟩

end Expr

end Reckon
