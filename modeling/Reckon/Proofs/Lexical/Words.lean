import Reckon.Proofs.Lexical.Layout
import Reckon.Proofs.Parsing.WellFormed

/-!
# The words of a text

What is read off a text without regard to places (`Word.scan`), and how it depends on the text.

Where a word ends is decided by one character behind it. `Lexeme.closes` says which characters let
a word of a kind end; after a token that was read such a character follows (`closes_of_read`), and
a word with such a character behind it is read as it is (`read_of_closes`). A blank ends every
word. So a text can be cut in front of any of its tokens and continued differently behind a blank,
without a change to the words before (`Scanner.exists_cut`), and words that are written with
blanks between them are read back (`Word.scan_laidOut`).
-/

namespace Reckon

namespace Lexeme

/-! ## The end of a word -/

/-- The character `d` does not go on with the word `w` of the kind `k`. -/
def closes : (k : TokenKind) → (w : List Char) → (d : Char) → Bool
  | .symbol _, [c], d => (Symbol.ofPair? c d).isNone
  | .identifier, _, d => !isNamePart d
  | .integer, _, d => !d.isDigit && d != '.'
  | .float, _, d => !d.isDigit
  | _, _, _ => true

theorem isBlank_cases {d : Char} (h : isBlank d = true) :
    d = ' ' ∨ d = '\t' ∨ d = '\n' ∨ d = '\r' ∨ d = '\x0B' ∨ d = '\x0C' ∨ d = '\x85' ∨
      d = '\xA0' := by
  simpa [isBlank, or_assoc] using h

/-- No symbol of two characters ends in a blank. -/
theorem ofPair?_blank {d : Char} (h : isBlank d = true) (c : Char) : Symbol.ofPair? c d = none := by
  unfold Symbol.ofPair?
  split <;> first | rfl | exact absurd h (by decide)

theorem closes_blank {d : Char} (h : isBlank d = true) (k : TokenKind) (w : List Char) :
    closes k w d = true := by
  have hplain : isNamePart d = false ∧ d.isDigit = false ∧ d ≠ '.' := by
    rcases isBlank_cases h with rfl | rfl | rfl | rfl | rfl | rfl | rfl | rfl <;> decide
  unfold closes
  split
  · rw [ofPair?_blank h]; rfl
  · rw [hplain.1]; rfl
  · simp [hplain.2]
  · rw [hplain.2.1]; rfl
  · rfl

/-- No word starts with a blank. -/
theorem Spells.isBlank_eq_false {k : TokenKind} {c : Char} {w : List Char} (h : Spells k (c :: w)) :
    isBlank c = false := by
  cases hc : isBlank c with
  | false => rfl
  | true =>
    have hs := h.starts
    have hplain : isNameStart c = false ∧ c.isDigit = false ∧ c ≠ '"' ∧ c ≠ '\'' := by
      rcases isBlank_cases hc with rfl | rfl | rfl | rfl | rfl | rfl | rfl | rfl <;> decide
    obtain ⟨s, rfl⟩ := kind_of_other hplain.2.1 hplain.1 hplain.2.2.1 hplain.2.2.2 hs
    rcases isBlank_cases hc with rfl | rfl | rfl | rfl | rfl | rfl | rfl | rfl <;>
      cases s <;> cases h

/-! ### What is read is closed -/

theorem head?_dropWhile {p : Char → Bool} {cs : List Char} :
    ∀ d ∈ (cs.dropWhile p).head?, p d = false := by
  intro d hd
  have h := List.head?_dropWhile_not p cs
  rwa [hd] at h

theorem closes_number (cs : List Char) :
    ∀ d ∈ (number cs).rest.head?, closes (number cs).kind (number cs).text d = true := by
  unfold number
  split
  next r hr =>
    dsimp only
    split
    · exact fun _ _ => rfl
    · intro d hd
      exact congrArg not (head?_dropWhile d hd)
  next hr =>
    intro d hd
    have hdot : d ≠ '.' := by
      rintro rfl
      obtain ⟨t, ht⟩ := List.head?_eq_some_iff.mp hd
      exact hr t ht
    simp [closes, head?_dropWhile d hd, hdot]

theorem closes_symbol (c : Char) (cs : List Char) :
    ∀ d ∈ (symbol c cs).rest.head?, closes (symbol c cs).kind (symbol c cs).text d = true := by
  fun_cases symbol c cs with
  | case1 =>
    intro d hd
    unfold oneChar at hd
    split at hd <;> cases hd
  | case2 e r s hs => exact fun _ _ => rfl
  | case3 e r hnone =>
    intro d hd
    unfold oneChar at hd ⊢
    split at hd
    · cases hd
      rw [closes, hnone]
      rfl
    · rfl

theorem charBody_kind (cs : List Char) :
    (charBody cs).kind = .char ∨ (charBody cs).kind = .illegal := by
  have hclose : ∀ i r, (closeChar i r).kind = .char ∨ (closeChar i r).kind = .illegal := by
    intro i r
    unfold closeChar
    split
    · exact .inl rfl
    · exact .inr rfl
  fun_cases charBody cs with
  | case4 c r => exact hclose _ _
  | case6 c r => exact hclose _ _
  | _ => exact .inr rfl

/-- **Behind a token that was read stands a character that ends it.** -/
theorem closes_of_read (c : Char) (cs : List Char) :
    ∀ d ∈ (read c cs).rest.head?, closes (read c cs).kind (read c cs).text d = true := by
  have hquoted : ∀ l : Lexeme, l.kind = .string ∨ l.kind = .char ∨ l.kind = .illegal →
      ∀ d, closes l.kind l.text d = true := by
    rintro l (h | h | h) d <;> rw [h] <;> rfl
  unfold read
  split
  · exact closes_number _
  · split
    · intro d hd
      exact congrArg not (head?_dropWhile d hd)
    · split
      · refine fun d _ => hquoted _ ?_ d
        obtain ⟨_, _, _, _, ⟨hk, _⟩ | ⟨hk, _⟩⟩ := stringBody_spec cs
        · exact .inl hk
        · exact .inr (.inr hk)
      · split
        · exact fun d _ => hquoted (push c _) (.inr (charBody_kind cs)) d
        · exact closes_symbol c cs

/-! ### What is closed is read -/

section

variable {p : Char → Bool} {w r : List Char}

theorem takeWhile_append (hw : ∀ c ∈ w, p c = true) (hr : ∀ d ∈ r.head?, p d = false) :
    (w ++ r).takeWhile p = w := by
  rw [List.takeWhile_append_of_pos hw]
  cases r with
  | nil => simp
  | cons d r => rw [List.takeWhile_cons_of_neg (by simp [hr d rfl]), List.append_nil]

theorem dropWhile_append (hw : ∀ c ∈ w, p c = true) (hr : ∀ d ∈ r.head?, p d = false) :
    (w ++ r).dropWhile p = r := by
  rw [List.dropWhile_append_of_pos hw]
  cases r with
  | nil => rfl
  | cons d r => exact List.dropWhile_cons_of_neg (by simp [hr d rfl])

end

theorem number_integer {w r : List Char} (hw : Decimal.isDigits w = true)
    (hr : ∀ d ∈ r.head?, d.isDigit = false ∧ d ≠ '.') : number (w ++ r) = ⟨.integer, w, r⟩ := by
  have hdigit : ∀ d ∈ r.head?, d.isDigit = false := fun d hd => (hr d hd).1
  unfold number
  rw [dropWhile_append (isDigits_all hw) hdigit, takeWhile_append (isDigits_all hw) hdigit]
  split
  next t => exact absurd rfl (hr '.' rfl).2
  · rfl

theorem number_float {a b r : List Char} (ha : Decimal.isDigits a = true)
    (hb : Decimal.isDigits b = true) (hr : ∀ d ∈ r.head?, d.isDigit = false) :
    number (a ++ '.' :: (b ++ r)) = ⟨.float, a ++ '.' :: b, r⟩ := by
  have htake := takeWhile_append (isDigits_all hb) hr
  have hdrop := dropWhile_append (isDigits_all hb) hr
  unfold number
  rw [dropWhile_digits_point ha, takeWhile_digits_point ha]
  simp [htake, hdrop, isDigits_ne_nil hb]

theorem stringBody_items {b : List Char} (hb : Items '"' b) (r : List Char) :
    stringBody (b ++ '"' :: r) = ⟨.string, b ++ ['"'], r⟩ := by
  induction hb with
  | nil => rfl
  | @cons i b hi hb ih =>
    cases hi with
    | @escape c hc =>
      show stringBody ('\\' :: c :: (b ++ '"' :: r)) = _
      rw [stringBody, if_pos hc, ih]
      rfl
    | @plain c hq hc =>
      show stringBody (c :: (b ++ '"' :: r)) = _
      rw [stringBody, ih]
      · rfl
      · exact fun h => absurd h hq
      · exact fun h => absurd h hc
      · exact fun _ _ h => absurd h hc

theorem charBody_item {i : List Char} (hi : Item '\'' i) (r : List Char) :
    charBody (i ++ '\'' :: r) = ⟨.char, i ++ ['\''], r⟩ := by
  cases hi with
  | escape hc => exact if_pos hc
  | @plain c hq hc =>
    rw [List.cons_append, List.nil_append, charBody]
    · rfl
    · exact fun h => absurd h hq
    · exact fun h => absurd h hc
    · exact fun _ _ h => absurd h hc

theorem symbol_text {s : Symbol} {c : Char} {w r : List Char} (h : c :: w = s.text.toList)
    (hr : ∀ d ∈ r.head?, closes (.symbol s) (c :: w) d = true) :
    symbol c (w ++ r) = ⟨.symbol s, c :: w, r⟩ := by
  rcases symbol_cases s with ⟨a, ha, hs⟩ | ⟨a, b, hab, hs⟩
  · obtain ⟨rfl, rfl⟩ := List.cons.inj (h.trans ha)
    have hone : oneChar c r = ⟨.symbol s, [c], r⟩ := by rw [oneChar, hs]
    cases r with
    | nil => exact hone
    | cons d r =>
      have hnone : Symbol.ofPair? c d = none := Option.isNone_iff_eq_none.mp (hr d rfl)
      rw [List.nil_append, symbol, hnone]
      exact hone
  · obtain ⟨rfl, rfl⟩ := List.cons.inj (h.trans hab)
    rw [List.cons_append, List.nil_append, symbol, hs]

/-- **A word with a character behind it that ends it is read as it is.** -/
theorem read_of_closes {k : TokenKind} {c : Char} {w r : List Char} (h : Spells k (c :: w))
    (hr : ∀ d ∈ r.head?, closes k (c :: w) d = true) : read c (w ++ r) = ⟨k, c :: w, r⟩ := by
  cases k with
  | symbol s =>
    obtain ⟨hd, hn, hq, ha⟩ := starts_symbol h.starts
    rw [read, if_neg (by simp [hd]), if_neg (by simp [hn]), if_neg hq, if_neg ha]
    exact symbol_text h hr
  | identifier =>
    have hn : isNameStart c = true := h.starts
    obtain ⟨e, t, heq, -, ht⟩ := h
    obtain ⟨rfl, rfl⟩ := List.cons.inj heq
    have hall : ∀ d ∈ c :: w, isNamePart d = true :=
      List.forall_mem_cons.mpr ⟨isNamePart_of_isNameStart hn, ht⟩
    have hend : ∀ d ∈ r.head?, isNamePart d = false := fun d hd => by simpa [closes] using hr d hd
    have hd : ¬ c.isDigit = true := fun hd => by rw [isNameStart_of_isDigit hd] at hn; cases hn
    rw [read, if_neg hd, if_pos hn, ← List.cons_append, identifier, takeWhile_append hall hend,
      dropWhile_append hall hend]
  | integer =>
    have hd : c.isDigit = true := h.starts
    rw [read, if_pos hd]
    exact number_integer h fun d hd => by simpa [closes] using hr d hd
  | float =>
    have hd : c.isDigit = true := h.starts
    obtain ⟨a, b, heq, ha, hb⟩ := h
    rw [read, if_pos hd, ← List.cons_append, heq, List.append_assoc, List.cons_append]
    exact number_float ha hb fun d hd => by simpa [closes] using hr d hd
  | string =>
    obtain ⟨b, heq, hb⟩ := h
    obtain ⟨rfl, rfl⟩ := List.cons.inj heq
    rw [List.append_assoc, List.singleton_append, read, if_neg (by decide), if_neg (by decide),
      if_pos rfl, stringBody_items hb]
    rfl
  | char =>
    obtain ⟨i, heq, hi⟩ := h
    obtain ⟨rfl, rfl⟩ := List.cons.inj heq
    rw [List.append_assoc, List.singleton_append, read, if_neg (by decide), if_neg (by decide),
      if_neg (by decide), if_pos rfl, charBody_item hi]
    rfl
  | illegal => exact h.elim
  | eof => exact h.elim

end Lexeme

/-! ## Words without places -/

namespace Word

/-- The words of a text. -/
def scan (cs : List Char) : List Word := (Scanner.tokens ⟨cs, 0, false⟩).map Token.word

end Word

namespace Scanner

/-- The words depend on the unread text behind the blanks alone. -/
theorem map_word_congr {s t : Scanner} (h : t.skipBlanks.rest = s.skipBlanks.rest) :
    t.tokens.map Token.word = s.tokens.map Token.word := by
  induction s using Scanner.tokens.induct generalizing t with
  | case1 s hs => rw [tokens_of_rest_nil hs, tokens_of_rest_nil (h.trans hs)]
  | case2 s c cs hs ih =>
    have ht := h.trans hs
    have hword : t.scan.1.word = s.scan.1.word := by rw [scan_of_rest hs, scan_of_rest ht]; rfl
    have hrest : t.scan.2.rest = s.scan.2.rest := by rw [scan_of_rest hs, scan_of_rest ht]
    have hskip : t.scan.2.skipBlanks.rest = s.scan.2.skipBlanks.rest :=
      congrArg (List.dropWhile Lexeme.isBlank) hrest
    rw [tokens_of_rest hs, tokens_of_rest ht, List.map_cons, List.map_cons, hword, ih hskip]

theorem map_word_tokens (s : Scanner) : s.tokens.map Token.word = Word.scan s.rest :=
  map_word_congr rfl

end Scanner

namespace Word

@[simp]
theorem scan_nil : scan [] = [] := by
  rw [scan, Scanner.tokens_of_rest_nil rfl]
  rfl

/-- Blanks in front do not count. -/
theorem scan_blanks {gap : List Char} (h : ∀ c ∈ gap, Lexeme.isBlank c = true) (cs : List Char) :
    scan (gap ++ cs) = scan cs :=
  Scanner.map_word_congr (List.dropWhile_append_of_pos h)

/-- Every word behind one blank. -/
def spaced (ws : List Word) : List Char := ws.flatMap fun w => ' ' :: w.2.toList

/-- The first word of a text that starts with it. -/
theorem scan_word {k : TokenKind} {w r : List Char} (h : Lexeme.Spells k w)
    (hr : ∀ d ∈ r.head?, Lexeme.closes k w d = true) :
    scan (w ++ r) = (k, String.ofList w) :: scan r := by
  obtain ⟨c, w, rfl⟩ := List.exists_cons_of_ne_nil h.ne_nil
  have hskip : (Scanner.skipBlanks ⟨c :: (w ++ r), 0, false⟩).rest = c :: (w ++ r) :=
    List.dropWhile_cons_of_neg (by simp [h.isBlank_eq_false])
  rw [scan, List.cons_append, Scanner.tokens_of_rest hskip, Scanner.scan_of_rest hskip,
    Lexeme.read_of_closes h hr, List.map_cons, Scanner.map_word_tokens]
  rfl

theorem forall_mem_space : ∀ c ∈ [' '], Lexeme.isBlank c = true :=
  List.forall_mem_singleton.mpr (by decide)

/-- The words in the text between them, each of them behind its gap, and the last gap. -/
def laidOut (gaps : List (List Char)) (ws : List Word) (last : List Char) : List Char :=
  (List.zipWith (fun g w => g ++ w.2.toList) gaps ws).flatten ++ last

theorem laidOut_cons (g : List Char) (gaps : List (List Char)) (w : Word) (ws : List Word)
    (last : List Char) :
    laidOut (g :: gaps) (w :: ws) last = g ++ (w.2.toList ++ laidOut gaps ws last) := by
  simp [laidOut]

/--
**Words between gaps are read back.**

The gaps are blank, and only the first and the last one may be empty.
-/
theorem scan_laidOut {gaps : List (List Char)} {ws : List Word} {last : List Char}
    (h : ∀ w ∈ ws, Lexeme.Spells w.1 w.2.toList) (hlength : gaps.length = ws.length)
    (hgaps : ∀ g ∈ gaps, ∀ c ∈ g, Lexeme.isBlank c = true)
    (hlast : ∀ c ∈ last, Lexeme.isBlank c = true) (hne : ∀ g ∈ gaps.tail, g ≠ []) :
    scan (laidOut gaps ws last) = ws := by
  induction ws generalizing gaps with
  | nil =>
    rw [laidOut, List.zipWith_nil_right, List.flatten_nil, List.nil_append, ← List.append_nil last,
      scan_blanks hlast, scan_nil]
  | cons w ws ih =>
    obtain ⟨g, gaps, rfl⟩ := List.exists_cons_of_length_eq_add_one hlength
    obtain ⟨hw, hws⟩ := List.forall_mem_cons.mp h
    obtain ⟨hg, hgaps⟩ := List.forall_mem_cons.mp hgaps
    have hcount : gaps.length = ws.length := Nat.succ.inj hlength
    have hcloses : ∀ d ∈ (laidOut gaps ws last).head?, Lexeme.closes w.1 w.2.toList d = true := by
      intro d hd
      refine Lexeme.closes_blank ?_ _ _
      cases gaps with
      | nil => exact hlast d (List.mem_of_mem_head? hd)
      | cons g' gaps =>
        -- behind the word stands a gap that is not empty
        obtain ⟨v, vs, rfl⟩ := List.exists_cons_of_length_eq_add_one hcount.symm
        obtain ⟨b, bs, rfl⟩ := List.exists_cons_of_ne_nil (hne g' List.mem_cons_self)
        rw [laidOut_cons] at hd
        cases hd
        exact hgaps _ List.mem_cons_self d List.mem_cons_self
    rw [laidOut_cons, scan_blanks hg, scan_word hw hcloses, String.ofList_toList,
      ih hws hcount hgaps fun g' hmem => hne g' (List.mem_of_mem_tail hmem)]

theorem spaced_eq_laidOut (ws : List Word) : spaced ws = laidOut (ws.map fun _ => [' ']) ws [] := by
  induction ws with
  | nil => rfl
  | cons w ws ih =>
    rw [List.map_cons, laidOut_cons, ← ih]
    rfl

/-- Words behind one blank each are read back. -/
theorem scan_spaced {ws : List Word} (h : ∀ w ∈ ws, Lexeme.Spells w.1 w.2.toList) :
    scan (spaced ws) = ws := by
  rw [spaced_eq_laidOut]
  refine scan_laidOut h (List.length_map _) ?_ (fun c hc => by cases hc) ?_
  · intro g hg
    obtain ⟨w, -, rfl⟩ := List.mem_map.mp hg
    exact forall_mem_space
  · intro g hg
    obtain ⟨w, -, rfl⟩ := List.mem_map.mp (List.mem_of_mem_tail hg)
    exact List.cons_ne_nil _ _

end Word

/-! ## Cuts -/

namespace Scanner

/-- Where the next token starts. -/
theorem offset_scan (s : Scanner) : s.scan.1.offset = s.skipBlanks.offset := by
  cases h : s.skipBlanks.rest with
  | nil => rw [scan_of_rest_nil h, ← stop_skipBlanks, stop, h]; rfl
  | cons c cs => rw [scan_of_rest h]

/--
**A text can be cut in front of each of its tokens.**

If the tokens in front of `t` are legal, the text up to the place of `t` can go on with any text `r`
that starts with a blank: its words are those in front of `t`, then those of `r`.
-/
theorem exists_cut {s : Scanner} {before after : List Token} {t : Token}
    (h : s.tokens ++ [eofAt s.stop] = before ++ t :: after)
    (hlegal : ∀ u ∈ before, u.kind ≠ .illegal) :
    ∃ a b, s.rest = a ++ b ∧ t.offset = s.offset + byteLength a ∧
      ∀ r : List Char, (∀ c ∈ r.head?, Lexeme.isBlank c = true) →
        Word.scan (a ++ r) = before.map Token.word ++ Word.scan r := by
  induction before generalizing s with
  | nil =>
    refine ⟨s.rest.takeWhile Lexeme.isBlank, s.skipBlanks.rest, (skipBlanks_append s).symm, ?_, ?_⟩
    · have ht : t = s.scan.1 := by
        cases hs : s.skipBlanks.rest with
        | nil =>
          rw [tokens_of_rest_nil hs] at h
          rw [scan_of_rest_nil hs]
          exact (List.cons.inj h).1.symm
        | cons c cs =>
          rw [tokens_of_rest hs] at h
          exact (List.cons.inj h).1.symm
      rw [ht, offset_scan]
      rfl
    · exact fun r _ => Word.scan_blanks Lexeme.mem_takeWhile r
  | cons u before ih =>
    obtain ⟨hu, hbefore⟩ := List.forall_mem_cons.mp hlegal
    cases hs : s.skipBlanks.rest with
    | nil =>
      rw [tokens_of_rest_nil hs] at h
      simp at h
    | cons c cs =>
      rw [tokens_of_rest hs] at h
      obtain ⟨rfl, htail⟩ := List.cons.inj h
      rw [← stop_scan s] at htail
      obtain ⟨a, b, hrest, hoffset, hwords⟩ := ih htail hbefore
      have hscan := scan_of_rest hs
      have hkind : (Lexeme.read c cs).kind ≠ .illegal := by rwa [hscan] at hu
      have htext : (Lexeme.read c cs).rest = a ++ b := by rwa [hscan] at hrest
      have happend :
          s.rest.takeWhile Lexeme.isBlank ++ ((Lexeme.read c cs).text ++ (a ++ b)) = s.rest := by
        rw [← htext, Lexeme.read_append, ← hs, skipBlanks_append]
      refine ⟨s.rest.takeWhile Lexeme.isBlank ++ ((Lexeme.read c cs).text ++ a), b, ?_, ?_, ?_⟩
      · rw [List.append_assoc, List.append_assoc, happend]
      · rw [hoffset, hscan, byteLength_append, byteLength_append, ← Nat.add_assoc, ← Nat.add_assoc]
        rfl
      · intro r hr
        -- the word is followed by the character that stood behind it, or by the blank
        have hcloses : ∀ d ∈ (a ++ r).head?,
            Lexeme.closes (Lexeme.read c cs).kind (Lexeme.read c cs).text d = true := by
          cases a with
          | nil => exact fun d hd => Lexeme.closes_blank (hr d hd) _ _
          | cons x a => exact fun d hd => Lexeme.closes_of_read c cs d (htext ▸ hd)
        rw [List.append_assoc, List.append_assoc, Word.scan_blanks Lexeme.mem_takeWhile,
          Word.scan_word (Lexeme.read_spells hkind) hcloses, hwords r hr, List.map_cons, hscan]
        rfl

end Scanner

end Reckon
