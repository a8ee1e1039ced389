import Reckon.Proofs.Lexical.Layout

/-!
# Scanning from a place

A scanner remembers nothing but its place. If it starts further on, it hands out the same tokens
further on (`Scanner.tokens_shift`). And whatever is left of its tokens is what another scanner
finds that is started where the first of them starts (`Scanner.exists_resumed`): so the tokens
that are left of a source are the tokens of the text that is left (`Token.exists_textFrom`).
-/

namespace Reckon

/-! ## Places further on -/

/-- The token, `n` bytes further on. -/
def Token.shift (n : Nat) (t : Token) : Token := { t with offset := t.offset + n }

/-- The scanner, `n` bytes further on in front of the same characters. -/
def Scanner.shift (n : Nat) (s : Scanner) : Scanner := { s with offset := s.offset + n }

namespace Scanner

theorem skipBlanks_shift (s : Scanner) (n : Nat) :
    (s.shift n).skipBlanks = s.skipBlanks.shift n := by
  simp [skipBlanks, shift, Nat.add_right_comm]

theorem stop_shift (s : Scanner) (n : Nat) : (s.shift n).stop = s.stop + n :=
  Nat.add_right_comm s.offset n _

theorem scan_shift (s : Scanner) (n : Nat) :
    (s.shift n).scan = (s.scan.1.shift n, s.scan.2.shift n) := by
  cases h : s.skipBlanks.rest with
  | nil =>
    have hshift : (s.shift n).skipBlanks.rest = [] := by rw [skipBlanks_shift]; exact h
    rw [scan_of_rest_nil hshift, scan_of_rest_nil h, stop_shift, skipBlanks_shift]
    rfl
  | cons c cs =>
    have hshift : (s.shift n).skipBlanks.rest = c :: cs := by rw [skipBlanks_shift]; exact h
    rw [scan_of_rest hshift, scan_of_rest h, skipBlanks_shift]
    simp [shift, Token.shift, Nat.add_right_comm]

/-- **The tokens are the same, further on.** -/
theorem tokens_shift (s : Scanner) (n : Nat) :
    (s.shift n).tokens = s.tokens.map (Token.shift n) := by
  induction s using Scanner.tokens.induct with
  | case1 s hs =>
    have hshift : (s.shift n).skipBlanks.rest = [] := by rw [skipBlanks_shift]; exact hs
    rw [tokens_of_rest_nil hs, tokens_of_rest_nil hshift, List.map_nil]
  | case2 s c cs hs ih =>
    have hshift : (s.shift n).skipBlanks.rest = c :: cs := by rw [skipBlanks_shift]; exact hs
    rw [tokens_of_rest hs, tokens_of_rest hshift, scan_shift, ih, List.map_cons]

/-! ## What is left -/

theorem skipBlanks_idem (s : Scanner) : s.skipBlanks.skipBlanks = s.skipBlanks := by
  cases h : s.skipBlanks.rest with
  | nil => simp [skipBlanks, show s.rest.dropWhile Lexeme.isBlank = [] from h, byteLength]
  | cons c cs =>
    have hfirst := skipBlanks_head h
    simp [skipBlanks, show s.rest.dropWhile Lexeme.isBlank = c :: cs from h, hfirst, byteLength]

theorem tokens_skipBlanks (s : Scanner) : s.skipBlanks.tokens = s.tokens := by
  have hidem := congrArg Scanner.rest s.skipBlanks_idem
  cases h : s.skipBlanks.rest with
  | nil => rw [tokens_of_rest_nil h, tokens_of_rest_nil (hidem.trans h)]
  | cons c cs =>
    have hscan : s.skipBlanks.scan = s.scan := by
      rw [scan_of_rest h, scan_of_rest (hidem.trans h), skipBlanks_idem]
      rfl
    rw [tokens_of_rest h, tokens_of_rest (hidem.trans h), hscan]

/--
**What is left of the tokens is what a scanner finds that starts at the first of them.**

The characters in front of that place are those that have been read.
-/
theorem exists_resumed (s : Scanner) : ∀ {ts : List Token}, ts <:+ s.tokens →
    ∃ a b, s.rest = a ++ b ∧ tokens ⟨b, s.offset + byteLength a, s.finished⟩ = ts ∧
      (ts.headD (eofAt s.stop)).offset = s.offset + byteLength a := by
  induction s using Scanner.tokens.induct with
  | case1 s hs =>
    intro ts hts
    rw [tokens_of_rest_nil hs] at hts
    obtain rfl := List.eq_nil_of_suffix_nil hts
    exact ⟨s.rest, [], (List.append_nil _).symm, tokens_of_rest_nil rfl, rfl⟩
  | case2 s c cs hs ih =>
    intro ts hts
    have hscan := scan_of_rest hs
    rw [tokens_of_rest hs, List.suffix_cons_iff] at hts
    rcases hts with rfl | hts
    · -- nothing has been read but the blanks
      refine ⟨s.rest.takeWhile Lexeme.isBlank, s.skipBlanks.rest, s.skipBlanks_append.symm, ?_, ?_⟩
      · rw [← tokens_of_rest hs]
        exact s.tokens_skipBlanks
      · rw [List.headD_cons, hscan]
        rfl
    · obtain ⟨a, b, hrest, htokens, hoffset⟩ := ih hts
      have hread : s.rest = s.rest.takeWhile Lexeme.isBlank ++
          ((Lexeme.read c cs).text ++ s.scan.2.rest) := by
        rw [hscan, Lexeme.read_append, ← hs, skipBlanks_append]
      have hplace : s.scan.2.offset + byteLength a = s.offset +
          byteLength (s.rest.takeWhile Lexeme.isBlank ++ ((Lexeme.read c cs).text ++ a)) := by
        rw [byteLength_append, byteLength_append, hscan]
        simp [skipBlanks, Nat.add_assoc]
      have hfinished : s.scan.2.finished = s.finished := by rw [hscan]
      rw [stop_scan, hplace] at hoffset
      rw [hplace, hfinished] at htokens
      refine ⟨_, b, ?_, htokens, hoffset⟩
      rw [List.append_assoc, List.append_assoc, ← hrest]
      exact hread

end Scanner

namespace Token

/-! ## Texts from a place on -/

/-- The text of the source from the place `o` on. -/
def textFrom (source : String) (o : Nat) : String :=
  String.Pos.Raw.extract source ⟨o⟩ source.rawEndPos

theorem toList_textFrom {source : String} {a b : List Char} (h : source.toList = a ++ b) :
    (textFrom source (byteLength a)).toList = b := by
  have hextract := String.extract_of_valid a b []
  have hend : source.rawEndPos = ⟨byteLength a + byteLength b⟩ := by
    rw [String.Pos.Raw.ext_iff, String.byteIdx_rawEndPos, ← byteLength_toList, h, byteLength_append]
  rw [List.append_nil, ← h, String.ofList_toList, ← byteLength_eq_utf8Len,
    ← byteLength_eq_utf8Len, ← hend] at hextract
  rw [textFrom, hextract, String.toList_ofList]

theorem isValid_byteLength {source : String} {a b : List Char} (h : source.toList = a ++ b) :
    String.Pos.Raw.IsValid source ⟨byteLength a⟩ := by
  refine String.Pos.Raw.isValid_iff_exists_append.mpr ⟨String.ofList a, String.ofList b, ?_, ?_⟩
  · rw [← String.toList_inj, h]
    simp
  · rw [String.Pos.Raw.ext_iff, String.byteIdx_rawEndPos, String.utf8ByteSize_ofList,
      byteLength_eq_utf8Len]

/-- **The tokens that are left of a source are the tokens of the text that is left.** -/
theorem exists_textFrom {source : String} {ts : List Token} (h : ts <:+ tokens source) :
    let o := (ts.headD (Scanner.eofAt (Scanner.ofSource source).stop)).offset
    String.Pos.Raw.IsValid source ⟨o⟩ ∧ ts = (tokens (textFrom source o)).map (shift o) ∧
      (Scanner.ofSource source).stop = (Scanner.ofSource (textFrom source o)).stop + o := by
  intro o
  obtain ⟨a, b, hsource, htokens, hoffset⟩ := (Scanner.ofSource source).exists_resumed h
  replace hsource : source.toList = a ++ b := hsource
  have ho : o = byteLength a := hoffset.trans (Nat.zero_add _)
  have htext : Scanner.ofSource (textFrom source o) = ⟨b, 0, false⟩ := by
    rw [Scanner.ofSource, ho, toList_textFrom hsource]
  refine ⟨ho ▸ isValid_byteLength hsource, ?_, ?_⟩
  · rw [tokens, ← Scanner.tokens_shift, htext, ← htokens, ho]
    rfl
  · rw [htext, ho]
    show 0 + byteLength source.toList = 0 + byteLength b + byteLength a
    rw [hsource, byteLength_append]
    omega

end Token

end Reckon
