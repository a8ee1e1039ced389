import Mathlib.Data.String.Basic
import Reckon.Proofs.Lexical.Munch

/-!
# The layout of a source

A source is its tokens, with blanks in front of each of them and at the end (`Token.Laid`). The
scanner finds this layout (`Scanner.tokens_laid`), also where tokens are illegal: nothing is
skipped but blanks, and nothing is read twice. What is known of the places of tokens follows from
the layout alone, by induction on it.

An iteration hands out the tokens of the source, then its end, then nothing any more
(`Scanner.answer_eq`).
-/

namespace Reckon

/-! ## Bytes -/

theorem byteLength_eq_utf8Len (cs : List Char) : byteLength cs = String.utf8Len cs := by
  induction cs with
  | nil => rfl
  | cons c cs ih => rw [String.utf8Len_cons, ← ih, Nat.add_comm]; rfl

theorem byteLength_append (cs ds : List Char) :
    byteLength (cs ++ ds) = byteLength cs + byteLength ds := by
  simp only [byteLength_eq_utf8Len, String.utf8Len_append]

theorem byteLength_toList (s : String) : byteLength s.toList = s.utf8ByteSize := by
  rw [byteLength_eq_utf8Len, ← String.utf8ByteSize_ofList, String.ofList_toList]

namespace Token

/-! ## Layouts -/

/-- The text `cs`, which starts at the place `n`, is the lexemes of the tokens `ts` at their
places, with blanks in front of each of them and at the end. -/
inductive Laid : (n : Nat) → (cs : List Char) → (ts : List Token) → Prop
  | blanks {n : Nat} {gap : List Char} (hg : ∀ c ∈ gap, Lexeme.isBlank c = true) : Laid n gap []
  | token {n : Nat} {gap rest : List Char} {t : Token} {ts : List Token}
      (hg : ∀ c ∈ gap, Lexeme.isBlank c = true) (ho : t.offset = n + byteLength gap)
      (hc : ∃ c ∈ t.lexeme.toList.head?, Lexeme.isBlank c = false)
      (hr : Laid (t.offset + t.lexeme.utf8ByteSize) rest ts) :
      Laid n (gap ++ (t.lexeme.toList ++ rest)) (t :: ts)

/-- The token is the slice of the source at its place, which starts and ends between two
characters. -/
structure IsSliceOf (t : Token) (source : String) : Prop where
  start : String.Pos.Raw.IsValid source ⟨t.offset⟩
  stop : String.Pos.Raw.IsValid source ⟨t.offset + t.lexeme.utf8ByteSize⟩
  extract : String.Pos.Raw.extract source ⟨t.offset⟩ ⟨t.offset + t.lexeme.utf8ByteSize⟩ = t.lexeme

/-- The place `n` is inside the token. -/
def Covers (t : Token) (n : Nat) : Prop := t.offset ≤ n ∧ n < t.offset + t.lexeme.utf8ByteSize

/-- A character of a text put together is in one of its parts. -/
theorem cons_of_append_eq {xs ys a b : List Char} {c : Char} (h : xs ++ ys = a ++ c :: b) :
    (∃ d, xs = a ++ c :: d) ∨ ∃ d, a = xs ++ d ∧ ys = d ++ c :: b := by
  rcases List.append_eq_append_iff.mp h with ⟨d, ha, hys⟩ | ⟨d, hxs, hd⟩
  · exact .inr ⟨d, ha, hys⟩
  · cases d with
    | nil => exact .inr ⟨[], by simpa using hxs.symm, by simpa using hd.symm⟩
    | cons e d =>
      obtain ⟨rfl, -⟩ := List.cons.inj hd
      exact .inl ⟨d, hxs⟩

theorem toList_ne_nil {t : Token} (hc : ∃ c ∈ t.lexeme.toList.head?, Lexeme.isBlank c = false) :
    t.lexeme.toList ≠ [] := by
  intro hnil
  rw [hnil] at hc
  obtain ⟨c, hc, -⟩ := hc
  cases hc

/-- A text with a known number of bytes in front of it is a slice. -/
theorem isSliceOf_of_append {t : Token} {source : String} {a b : List Char}
    (hs : source.toList = a ++ (t.lexeme.toList ++ b)) (ho : t.offset = byteLength a) :
    t.IsSliceOf source := by
  have hsource : source = String.ofList a ++ t.lexeme ++ String.ofList b := by
    rw [← String.toList_inj, hs]
    simp
  have hsize : (String.ofList a).utf8ByteSize = t.offset := by
    rw [ho, String.utf8ByteSize_ofList, byteLength_eq_utf8Len]
  refine ⟨?_, ?_, ?_⟩
  · refine String.Pos.Raw.isValid_iff_exists_append.mpr
      ⟨String.ofList a, t.lexeme ++ String.ofList b, ?_, ?_⟩
    · rw [hsource, String.append_assoc]
    · rw [← hsize]; rfl
  · refine String.Pos.Raw.isValid_iff_exists_append.mpr
      ⟨String.ofList a ++ t.lexeme, String.ofList b, hsource, ?_⟩
    rw [← hsize, ← String.utf8ByteSize_append]; rfl
  · have h := String.extract_of_valid a t.lexeme.toList b
    rw [← byteLength_eq_utf8Len, ← byteLength_eq_utf8Len, ← ho, byteLength_toList,
      List.append_assoc, ← hs, String.ofList_toList, String.ofList_toList] at h
    exact h

namespace Laid

variable {n : Nat} {cs : List Char} {ts : List Token}

/-- There are no more tokens than characters. -/
theorem length_le (h : Laid n cs ts) : ts.length ≤ cs.length := by
  induction h with
  | blanks hg => exact Nat.zero_le _
  | token hg ho hc hr ih =>
    have hpos := List.length_pos_iff.mpr (toList_ne_nil hc)
    rw [List.length_cons, List.length_append, List.length_append]
    omega

theorem le_offset (h : Laid n cs ts) : ∀ t ∈ ts, n ≤ t.offset := by
  induction h with
  | blanks hg => simp
  | token hg ho hc hr ih =>
    intro u hu
    rcases List.mem_cons.mp hu with rfl | hu
    · omega
    · have := ih u hu
      omega

/-- A token ends before the next ones start. -/
theorem pairwise (h : Laid n cs ts) :
    ts.Pairwise fun t u => t.offset + t.lexeme.utf8ByteSize ≤ u.offset := by
  induction h with
  | blanks hg => exact .nil
  | token hg ho hc hr ih => exact .cons hr.le_offset ih

theorem exists_append (h : Laid n cs ts) :
    ∀ t ∈ ts, ∃ a b, cs = a ++ (t.lexeme.toList ++ b) ∧ t.offset = n + byteLength a := by
  induction h with
  | blanks hg => simp
  | @token n gap rest t ts hg ho hc hr ih =>
    intro u hu
    rcases List.mem_cons.mp hu with rfl | hu
    · exact ⟨gap, rest, rfl, ho⟩
    · obtain ⟨a, b, rfl, hoff⟩ := ih u hu
      refine ⟨gap ++ (t.lexeme.toList ++ a), b, by simp, ?_⟩
      rw [hoff, ho, byteLength_append, byteLength_append, byteLength_toList]
      omega

/-- A token ends before the text does. -/
theorem le_stop (h : Laid n cs ts) :
    ∀ t ∈ ts, t.offset + t.lexeme.utf8ByteSize ≤ n + byteLength cs := by
  intro t ht
  obtain ⟨a, b, rfl, hoffset⟩ := h.exists_append t ht
  rw [byteLength_append, byteLength_append, byteLength_toList]
  omega

theorem head (h : Laid n cs ts) :
    ∀ t ∈ ts, ∃ c ∈ t.lexeme.toList.head?, Lexeme.isBlank c = false := by
  induction h with
  | blanks hg => simp
  | token hg ho hc hr ih => exact List.forall_mem_cons.mpr ⟨hc, ih⟩

/-- A character that no token covers is blank. -/
theorem blank_or_covered (h : Laid n cs ts) : ∀ {a b : List Char} {c : Char}, cs = a ++ c :: b →
    Lexeme.isBlank c = true ∨ ∃ t ∈ ts, t.Covers (n + byteLength a) := by
  induction h with
  | blanks hg =>
    rintro a b c rfl
    exact .inl (hg c (by simp))
  | @token n gap rest t ts hg ho hc hr ih =>
    intro a b c heq
    rcases cons_of_append_eq heq with ⟨d, rfl⟩ | ⟨a₁, rfl, hbehind⟩
    · exact .inl (hg c (by simp))
    rcases cons_of_append_eq hbehind with ⟨d, hd⟩ | ⟨a₂, rfl, hrest⟩
    · -- inside the lexeme
      have hsize := congrArg byteLength hd
      rw [byteLength_toList, byteLength_append] at hsize
      have hpos : 0 < byteLength (c :: d) :=
        Nat.lt_of_lt_of_le c.utf8Size_pos (Nat.le_add_right _ _)
      refine .inr ⟨t, List.mem_cons_self, ?_⟩
      rw [Covers, byteLength_append]
      omega
    · rcases ih hrest with hblank | ⟨u, hu, hcovers⟩
      · exact .inl hblank
      · refine .inr ⟨u, List.mem_cons_of_mem _ hu, ?_⟩
        rwa [byteLength_append, byteLength_append, ← Nat.add_assoc, ← ho, byteLength_toList,
          ← Nat.add_assoc]

/-- The lexemes with the blanks between them are the text. -/
theorem exists_gaps (h : Laid n cs ts) : ∃ (gaps : List (List Char)) (last : List Char),
    gaps.length = ts.length ∧ (∀ g ∈ last :: gaps, ∀ c ∈ g, Lexeme.isBlank c = true) ∧
      cs = (List.zipWith (fun g t => g ++ t.lexeme.toList) gaps ts).flatten ++ last := by
  induction h with
  | @blanks n gap hg => exact ⟨[], gap, rfl, by simpa using hg, rfl⟩
  | @token n gap rest t ts hg ho hc hr ih =>
    obtain ⟨gaps, last, hlength, hblank, rfl⟩ := ih
    refine ⟨gap :: gaps, last, by simp [hlength], ?_, by simp⟩
    intro g hmem
    rcases List.mem_cons.mp hmem with rfl | hmem
    · exact hblank g List.mem_cons_self
    · rcases List.mem_cons.mp hmem with rfl | hmem
      · exact hg
      · exact hblank g (List.mem_cons_of_mem _ hmem)

end Laid

end Token

/-! ## The layout that the scanner finds -/

/-- A lexeme never is the end of the source. -/
theorem Lexeme.read_kind_ne_eof (c : Char) (cs : List Char) : (read c cs).kind ≠ .eof := by
  intro h
  have hs : Spells (read c cs).kind (read c cs).text := read_spells (by rw [h]; decide)
  rw [h] at hs
  exact hs

namespace Scanner

theorem skipBlanks_append (s : Scanner) :
    s.rest.takeWhile Lexeme.isBlank ++ s.skipBlanks.rest = s.rest :=
  List.takeWhile_append_dropWhile

theorem skipBlanks_head {s : Scanner} {c : Char} {cs : List Char}
    (h : s.skipBlanks.rest = c :: cs) : Lexeme.isBlank c = false := by
  have hhead := List.head?_dropWhile_not Lexeme.isBlank s.rest
  rwa [show s.rest.dropWhile Lexeme.isBlank = c :: cs from h] at hhead

theorem stop_skipBlanks (s : Scanner) : s.skipBlanks.stop = s.stop := by
  conv_rhs => rw [stop, ← skipBlanks_append s, byteLength_append, ← Nat.add_assoc]
  rfl

/-- Where nothing is left behind the blanks, the end is ahead. -/
theorem scan_of_rest_nil {s : Scanner} (h : s.skipBlanks.rest = []) :
    s.scan = (eofAt s.stop, s.skipBlanks) := by
  rw [← stop_skipBlanks, stop]
  simp only [scan, h]
  rfl

theorem stop_scan (s : Scanner) : s.scan.2.stop = s.stop := by
  cases h : s.skipBlanks.rest with
  | nil => rw [scan_of_rest_nil h, stop_skipBlanks]
  | cons c cs =>
    rw [← stop_skipBlanks s, scan_of_rest h, stop, stop, h, ← Lexeme.read_append c cs,
      byteLength_append, Nat.add_assoc]

theorem tokens_of_rest_nil {s : Scanner} (h : s.skipBlanks.rest = []) : s.tokens = [] := by
  rw [tokens]
  split
  · rfl
  next hs => cases h.symm.trans hs

theorem tokens_of_rest {s : Scanner} {c : Char} {cs : List Char} (h : s.skipBlanks.rest = c :: cs) :
    s.tokens = s.scan.1 :: s.scan.2.tokens := by
  rw [tokens]
  split
  next hs => cases h.symm.trans hs
  · rfl

/-- What holds of every token that is scanned holds of the tokens that are left. -/
theorem forall_mem_tokens {P : Token → Prop}
    (h : ∀ (s : Scanner) (c : Char) (cs : List Char), s.skipBlanks.rest = c :: cs → P s.scan.1)
    (s : Scanner) : ∀ t ∈ s.tokens, P t := by
  induction s using Scanner.tokens.induct with
  | case1 s hs => simp [tokens_of_rest_nil hs]
  | case2 s c cs hs ih =>
    rw [tokens_of_rest hs]
    exact List.forall_mem_cons.mpr ⟨h s c cs hs, ih⟩

theorem kind_ne_eof (s : Scanner) : ∀ t ∈ s.tokens, t.kind ≠ .eof :=
  s.forall_mem_tokens fun s c cs hs => by
    rw [scan_of_rest hs]
    exact Lexeme.read_kind_ne_eof c cs

/-- **The scanner finds the layout of its source.** -/
theorem tokens_laid (s : Scanner) : Token.Laid s.offset s.rest s.tokens := by
  induction s using Scanner.tokens.induct with
  | case1 s hs =>
    rw [tokens_of_rest_nil hs, ← skipBlanks_append s, hs, List.append_nil]
    exact .blanks fun c hc => Lexeme.mem_takeWhile c hc
  | case2 s c cs hs ih =>
    have happend := Lexeme.read_append c cs
    have hscan := scan_of_rest hs
    have hlexeme : s.scan.1.lexeme.toList = (Lexeme.read c cs).text := by
      rw [hscan, String.toList_ofList]
    have hoffset : s.scan.2.offset = s.scan.1.offset + s.scan.1.lexeme.utf8ByteSize := by
      rw [← byteLength_toList, hlexeme, hscan]
    have hrest : s.rest = s.rest.takeWhile Lexeme.isBlank ++
        (s.scan.1.lexeme.toList ++ s.scan.2.rest) := by
      rw [hlexeme, hscan, happend, ← hs, skipBlanks_append]
    have hfirst : ∃ d ∈ s.scan.1.lexeme.toList.head?, Lexeme.isBlank d = false := by
      obtain ⟨d, w, hw⟩ := List.exists_cons_of_ne_nil (Lexeme.read_text_ne_nil c cs)
      rw [hw] at happend
      obtain ⟨rfl, -⟩ := List.cons.inj happend
      exact ⟨d, by rw [hlexeme, hw]; rfl, skipBlanks_head hs⟩
    rw [tokens_of_rest hs, hrest]
    exact .token (fun d hd => Lexeme.mem_takeWhile d hd) (by rw [hscan]; rfl) hfirst (hoffset ▸ ih)

/-! ## Iteration -/

/-- The answer of an iteration to the call behind `n` others. -/
def answer (s : Scanner) : Nat → Option Token
  | 0 => s.next.1
  | n + 1 => s.next.2.answer n

theorem answer_of_finished {s : Scanner} (h : s.finished = true) (n : Nat) : s.answer n = none := by
  have hnext : s.next = (none, s) := by rw [next, if_pos h]
  induction n with
  | zero => rw [answer, hnext]
  | succ n ih => rw [answer, hnext, ih]

/-- **An iteration hands out the tokens and the end, and then nothing.** -/
theorem answer_eq {s : Scanner} (h : s.finished = false) (n : Nat) :
    s.answer n = (s.tokens ++ [eofAt s.stop])[n]? := by
  induction s using Scanner.tokens.induct generalizing n with
  | case1 s hs =>
    have hnext : s.next = (some (eofAt s.stop), { s.skipBlanks with finished := true }) := by
      simp [next, h, scan_of_rest_nil hs, eofAt]
    rw [tokens_of_rest_nil hs]
    cases n with
    | zero => rw [answer, hnext]; rfl
    | succ n => rw [answer, hnext, answer_of_finished rfl]; rfl
  | case2 s c cs hs ih =>
    have hkind : s.scan.1.kind ≠ .eof := by
      rw [scan_of_rest hs]
      exact Lexeme.read_kind_ne_eof c cs
    have hfinished : s.scan.2.finished = false := by rw [scan_of_rest hs]; exact h
    have hnext : s.next = (some s.scan.1, s.scan.2) := by
      rw [next, if_neg (by simp [h])]
      simp [hkind, ← hfinished]
    rw [tokens_of_rest hs]
    cases n with
    | zero => rw [answer, hnext]; rfl
    | succ n => rw [answer, hnext, ih hfinished, stop_scan]; rfl

end Scanner

/-! ## Whole sources -/

/-- Each token starts behind the one before it, and the end stands behind them all. -/
theorem Token.pairwise_offset (source : String) :
    (scanAll source).Pairwise fun t u => t.offset < u.offset := by
  have hlaid : Laid 0 source.toList (tokens source) := (Scanner.ofSource source).tokens_laid
  have hsize : ∀ t ∈ tokens source, 0 < t.lexeme.utf8ByteSize := by
    intro t ht
    rw [Nat.pos_iff_ne_zero, Ne, String.utf8ByteSize_eq_zero_iff]
    intro hempty
    exact toList_ne_nil (hlaid.head t ht) (hempty ▸ String.toList_empty)
  refine List.pairwise_append.mpr ⟨?_, List.pairwise_singleton _ _, ?_⟩
  · refine hlaid.pairwise.imp_of_mem fun {t u} ht _ hle => ?_
    have hpos := hsize t ht
    omega
  · intro t ht u hu
    obtain rfl := List.mem_singleton.mp hu
    have hpos := hsize t ht
    exact Nat.lt_of_lt_of_le (Nat.lt_add_of_pos_right hpos) (hlaid.le_stop t ht)

/--
**Scanning loses nothing and always ends.**

An iteration over a source hands out tokens, no more of them than the source has characters, then
the end of the source with its place, once, and then nothing. A token is a slice of the source that
is not empty and does not start with a blank, and it ends before the next one starts. A character
that no token covers is blank, so that the lexemes with blanks between them are the source.
-/
theorem Token.scanAll_lossless (source : String) :
    (∀ n, (Scanner.ofSource source).answer n = (scanAll source)[n]?) ∧
      ∃ ts, scanAll source = ts ++ [⟨.eof, "", source.utf8ByteSize⟩] ∧
        ts.length ≤ source.length ∧
        (∀ t ∈ ts, t.kind ≠ .eof ∧ t.lexeme ≠ "" ∧ t.IsSliceOf source ∧
          ∀ c ∈ t.lexeme.toList.head?, Lexeme.isBlank c = false) ∧
        ts.Pairwise (fun t u => t.offset + t.lexeme.utf8ByteSize ≤ u.offset) ∧
        (∀ a c b, source.toList = a ++ c :: b →
          Lexeme.isBlank c = true ∨ ∃ t ∈ ts, t.Covers (byteLength a)) ∧
        ∃ (gaps : List (List Char)) (last : List Char), gaps.length = ts.length ∧
          (∀ g ∈ last :: gaps, ∀ c ∈ g, Lexeme.isBlank c = true) ∧
          source.toList =
            (List.zipWith (fun g t => g ++ t.lexeme.toList) gaps ts).flatten ++ last := by
  have hstop : (Scanner.ofSource source).stop = source.utf8ByteSize := by
    rw [Scanner.stop, ← byteLength_toList]
    exact Nat.zero_add _
  have hlaid : Laid 0 source.toList (tokens source) := (Scanner.ofSource source).tokens_laid
  refine ⟨Scanner.answer_eq rfl, tokens source, ?_, hlaid.length_le, fun t ht => ?_,
    hlaid.pairwise, fun a c b hsplit => ?_, hlaid.exists_gaps⟩
  · rw [scanAll, hstop]
    rfl
  · obtain ⟨c, hc, hblank⟩ := hlaid.head t ht
    obtain ⟨a, b, hsplit, hoffset⟩ := hlaid.exists_append t ht
    refine ⟨Scanner.kind_ne_eof _ t ht, ?_, isSliceOf_of_append hsplit (by omega), ?_⟩
    · intro hempty
      rw [hempty] at hc
      cases hc
    · intro d hd
      cases hc.symm.trans hd
      exact hblank
  · simpa using hlaid.blank_or_covered hsplit

end Reckon
