import Reckon.Expression
import Reckon.Proofs.Parsing.Language
import Reckon.Proofs.Parsing.Relocated

/-!
# The blanks between tokens

Blanks separate tokens and do nothing else. If the lexemes of a source are written down again with
other blanks between them, the new source is scanned into the same tokens at other places: a word
with a blank behind it is read as it is, whatever stood behind it before. The parser does not
look at places, so it hands out the same expression, or the same error at the new place of its
token (`Expr.parseWithin_laidOut`).
-/

namespace Reckon

/-- An error with the place of a token that is reported moved to where `f` says. -/
def Error.relocated (f : Nat → Nat) : Error → Error
  | parse e => parse (e.relocated f)
  | eval e => eval e
  | conversion e => conversion e

namespace Token

/-- Where the tokens are the same but for their places, the new places are given by the old
ones. -/
theorem exists_relocated {ts us : List Token} (hwords : us.map word = ts.map word)
    (hplaces : ts.Pairwise fun t u => t.offset < u.offset) : ∃ f, us = ts.map (relocated f) := by
  induction ts generalizing us with
  | nil => exact ⟨id, List.map_eq_nil_iff.mp hwords⟩
  | cons t ts ih =>
    obtain ⟨u, us, rfl, hword, hrest⟩ := List.map_eq_cons_iff.mp hwords
    obtain ⟨hbehind, hplaces⟩ := List.pairwise_cons.mp hplaces
    obtain ⟨f, rfl⟩ := ih hrest hplaces
    refine ⟨fun o => if o = t.offset then u.offset else f o, ?_⟩
    rw [List.map_cons]
    congr 1
    · obtain ⟨hkind, hlexeme⟩ := Prod.mk.inj hword
      simp [relocated, ← hkind, ← hlexeme]
    · refine List.map_congr_left fun v hv => ?_
      have hne : v.offset ≠ t.offset := Nat.ne_of_gt (hbehind v hv)
      simp [relocated, hne]

end Token

namespace Parser

/-- The parser of a source with the same tokens at other places. -/
theorem ofSource_relocated {source source' : String} {f : Nat → Nat}
    (h : Token.scanAll source' = (Token.scanAll source).map (Token.relocated f)) (limit : Nat) :
    ofSource source' limit = (ofSource source limit).relocated f 0 limit := by
  rw [Token.scanAll, Token.scanAll, List.map_append, List.map_singleton] at h
  obtain ⟨htokens, hend⟩ := List.append_inj' h rfl
  have hstop : (Scanner.ofSource source').stop = f (Scanner.ofSource source).stop :=
    congrArg Token.offset (List.singleton_inj.mp hend)
  rw [ofSource, htokens, hstop]
  rfl

end Parser

namespace Expr

/-- A source with the same words has the same tokens at other places, and is parsed alike. -/
theorem parseWithin_of_words {source source' : String}
    (h : (Token.tokens source').map Token.word = (Token.tokens source).map Token.word) :
    ∃ f : Nat → Nat, Token.scanAll source' = (Token.scanAll source).map (Token.relocated f) ∧
      ∀ limit, parseWithin limit source' =
        (parseWithin limit source).mapError (ParseError.relocated f) := by
  have hall : (Token.scanAll source').map Token.word = (Token.scanAll source).map Token.word := by
    rw [Token.scanAll, Token.scanAll, List.map_append, List.map_append, h]
    rfl
  obtain ⟨f, hf⟩ := Token.exists_relocated hall (Token.pairwise_offset source)
  refine ⟨f, hf, fun limit => ?_⟩
  rw [parseWithin, Parser.ofSource_relocated hf]
  exact Parser.parse_relocated_fst f (Parser.ofSource source limit)

/--
**Blanks separate tokens and do nothing else.**

Let a source without illegal tokens be written down again, its lexemes between gaps that are blank,
where only the first and the last gap may be empty. The new source has the same tokens at other
places. With any limit of the depth the parser hands out the same expression or the same error, the
place in it moved with the token that it is the place of. So the value in any environment is the
same, or it is missing for the same reason.
-/
theorem parseWithin_laidOut (source : String) (gaps : List (List Char)) (last : List Char)
    (hlegal : ∀ t ∈ Token.tokens source, t.kind ≠ .illegal)
    (hlength : gaps.length = (Token.tokens source).length)
    (hblank : ∀ g ∈ last :: gaps, ∀ c ∈ g, Lexeme.isBlank c = true)
    (hne : ∀ g ∈ gaps.tail, g ≠ []) :
    let source' := String.ofList (Word.laidOut gaps ((Token.tokens source).map Token.word) last)
    ∃ f : Nat → Nat, Token.scanAll source' = (Token.scanAll source).map (Token.relocated f) ∧
      (∀ limit,
        parseWithin limit source' = (parseWithin limit source).mapError (ParseError.relocated f) ∧
          (∀ e, parseWithin limit source = .error e → ∀ o ∈ e.offset?,
            ∃ t ∈ Token.scanAll source, t.offset = o) ∧
          ∀ env, (Expression.ofSourceWithin limit source').map (·.eval env) =
            ((Expression.ofSourceWithin limit source).map (·.eval env)).mapError
              (ParseError.relocated f)) ∧
      ∀ env, eval source' env = (eval source env).mapError (Error.relocated f) := by
  intro source'
  obtain ⟨hlast, hgaps⟩ := List.forall_mem_cons.mp hblank
  have hspells : ∀ w ∈ (Token.tokens source).map Token.word, Lexeme.Spells w.1 w.2.toList := by
    intro w hw
    obtain ⟨t, ht, rfl⟩ := List.mem_map.mp hw
    exact Scanner.tokens_spell _ t ht (hlegal t ht)
  have hwords : (Token.tokens source').map Token.word = (Token.tokens source).map Token.word := by
    rw [Token.tokens, Scanner.ofSource, String.toList_ofList]
    exact Word.scan_laidOut hspells (hlength.trans (List.length_map _).symm) hgaps hlast hne
  obtain ⟨f, hf, hparse⟩ := parseWithin_of_words hwords
  refine ⟨f, hf, fun limit => ⟨hparse limit, fun e he o ho => Parser.offset_of_parse he ho,
    fun env => ?_⟩, fun env => ?_⟩
  · rw [Expression.ofSourceWithin, Expression.ofSourceWithin, hparse]
    cases parseWithin limit source with
    | ok e => rfl
    | error e => rfl
  · rw [eval, eval, parse, parse, hparse]
    cases parseWithin Parser.defaultLimit source with
    | error e => rfl
    | ok e =>
      show (e.evaluate env).mapError Error.eval =
        ((e.evaluate env).mapError Error.eval).mapError (Error.relocated f)
      cases e.evaluate env with
      | ok v => rfl
      | error err => rfl

/-- Also where the parser stops, at the parenthesis behind three bytes and then behind seven. -/
theorem parseWithin_laidOut_unopened :
    (∀ t ∈ Token.tokens "a-b)", t.kind ≠ .illegal) ∧
      ∃ f : Nat → Nat, Token.scanAll "a -\n\tb )" = (Token.scanAll "a-b)").map (Token.relocated f) ∧
        ∀ limit, parseWithin limit "a -\n\tb )" =
          (parseWithin limit "a-b)").mapError (ParseError.relocated f) := by
  have hlegal : ∀ t ∈ Token.tokens "a-b)", t.kind ≠ .illegal := by decide +kernel
  obtain ⟨f, hscan, hparse, -⟩ := parseWithin_laidOut "a-b)" [[], [' '], ['\n', '\t'], [' ']] []
    hlegal (by decide +kernel) (by simp [Lexeme.isBlank]) (by decide)
  have hsource : String.ofList (Word.laidOut [[], [' '], ['\n', '\t'], [' ']]
      ((Token.tokens "a-b)").map Token.word) []) = "a -\n\tb )" := by decide +kernel
  rw [hsource] at hscan hparse
  exact ⟨hlegal, f, hscan, fun limit => (hparse limit).1⟩

end Expr

end Reckon
