import Reckon.Proofs.Lexical.Grammar
import Reckon.Token.Scanner

/-!
# Scanning meets the lexical grammar

What a scanner reads is what the rule of the lexical grammar says (`Lexeme.Reads`): the longest
token, or the piece at fault. One section for each reader shows that it follows the rule on the
inputs that it is called on (`number_reads` to `symbol_reads`); `read_reads` puts them together,
and `Scanner.scan_maximalMunch` adds the blanks in front and the place of the token.
-/

namespace Reckon

namespace Lexeme

theorem danglingPoint_isDigit {c : Char} {r w : List Char} (h : DanglingPoint (c :: r) w) :
    c.isDigit = true := by
  obtain ⟨d, t, heq, -, hd, -⟩ := h
  cases d with
  | nil => exact absurd rfl (isDigits_ne_nil hd)
  | cons e d =>
    rw [(List.cons.inj heq).1]
    exact (isDigits_cons.mp hd).1

theorem not_danglingPoint {c : Char} {r : List Char} (h : c.isDigit = false) (w : List Char) :
    ¬ DanglingPoint (c :: r) w := by
  intro hw
  rw [danglingPoint_isDigit hw] at h
  exact Bool.noConfusion h

/-- A prefix whose first character is known starts with it. -/
theorem Spells.starts_of_front {k : TokenKind} {c : Char} {r v : List Char} (hk : Spells k v)
    (hv : v <+: c :: r) : Lexeme.starts k c = true := by
  obtain ⟨d, t, rfl⟩ := List.exists_cons_of_ne_nil hk.ne_nil
  obtain ⟨u, hu⟩ := hv
  rw [← (List.cons.inj hu).1]
  exact hk.starts

/-- A prefix with a property of its characters is no longer than what `takeWhile` takes. -/
theorem length_le_takeWhile {p : Char → Bool} {v l : List Char} (hv : v <+: l)
    (h : ∀ c ∈ v, p c = true) : v.length ≤ (l.takeWhile p).length := by
  obtain ⟨t, rfl⟩ := hv
  rw [List.takeWhile_append_of_pos h, List.length_append]
  exact Nat.le_add_right _ _

/-- What `takeWhile` takes has the property. -/
theorem mem_takeWhile {p : Char → Bool} {l : List Char} : ∀ c ∈ l.takeWhile p, p c = true :=
  fun _ hc => (List.all_eq_true.mp (List.all_takeWhile ..)) _ hc

/-! ## Numbers -/

theorem isDigits_takeWhile {c : Char} (h : c.isDigit = true) (cs : List Char) :
    Decimal.isDigits ((c :: cs).takeWhile Char.isDigit) = true := by
  rw [List.takeWhile_cons_of_pos h]
  exact isDigits_cons.mpr ⟨h, mem_takeWhile⟩

/-- A float at the front of an input has the same digits in front of its point. -/
theorem float_front {l a b : List Char} (ha : Decimal.isDigits a = true)
    (h : a ++ '.' :: b <+: l) :
    l.takeWhile Char.isDigit = a ∧ ∃ t, l.dropWhile Char.isDigit = '.' :: (b ++ t) := by
  obtain ⟨t, rfl⟩ := h
  rw [List.append_assoc, List.cons_append]
  exact ⟨takeWhile_digits_point ha, t, dropWhile_digits_point ha⟩

/-- An input that starts with digits has a dangling point if no digit follows the point. -/
theorem danglingPoint_iff {l r w : List Char} (hl : l.dropWhile Char.isDigit = '.' :: r)
    (hd : Decimal.isDigits (l.takeWhile Char.isDigit) = true) :
    DanglingPoint l w ↔ w = l.takeWhile Char.isDigit ++ ['.'] ∧ r.takeWhile Char.isDigit = [] := by
  have hsplit := List.takeWhile_append_dropWhile (p := Char.isDigit) (l := l)
  rw [hl] at hsplit
  constructor
  · rintro ⟨d, t, rfl, rfl, hd, ht⟩
    rw [dropWhile_digits_point hd] at hl
    obtain rfl := (List.cons.inj hl).2
    refine ⟨by rw [takeWhile_digits_point hd], ?_⟩
    cases t with
    | nil => rfl
    | cons c t => exact List.takeWhile_cons_of_neg (by simp [ht c rfl])
  · rintro ⟨rfl, hr⟩
    refine ⟨_, r, hsplit.symm, rfl, hd, fun c hc => ?_⟩
    obtain ⟨t, rfl⟩ := List.head?_eq_some_iff.mp hc
    cases hdigit : c.isDigit with
    | false => rfl
    | true =>
      rw [List.takeWhile_cons_of_pos hdigit] at hr
      exact absurd hr (List.cons_ne_nil _ _)

/-- A prefix that is a number is one of digits alone or one with a point among the digits. -/
theorem number_front {c : Char} (hc : c.isDigit = true) {cs v : List Char} {k : TokenKind}
    (hk : Spells k v) (hv : v <+: c :: cs) :
    v.length ≤ ((c :: cs).takeWhile Char.isDigit).length ∨
      ∃ b t, (c :: cs).dropWhile Char.isDigit = '.' :: (b ++ t) ∧ Decimal.isDigits b = true ∧
        v = (c :: cs).takeWhile Char.isDigit ++ '.' :: b := by
  rcases kind_of_isDigit hc (hk.starts_of_front hv) with rfl | rfl
  · exact .inl (length_le_takeWhile hv (isDigits_all hk))
  · obtain ⟨a, b, rfl, ha, hb⟩ := hk
    obtain ⟨rfl, t, ht⟩ := float_front ha hv
    exact .inr ⟨b, t, ht, hb, rfl⟩

theorem number_reads {c : Char} (hc : c.isDigit = true) (cs : List Char) :
    Reads (c :: cs) (number (c :: cs)).kind (number (c :: cs)).text := by
  have hwhole := isDigits_takeWhile hc cs
  have happend := number_append (c :: cs)
  unfold number at happend ⊢
  split at happend
  next r hr =>
    dsimp only at happend ⊢
    split at happend
    next hf =>
      have hdangling := (danglingPoint_iff hr hwhole).mpr ⟨rfl, List.isEmpty_iff.mp hf⟩
      simpa only [hr, hf, if_true] using Reads.dangling hdangling
    next hf =>
      have hfraction : Decimal.isDigits (r.takeWhile Char.isDigit) = true := by
        simp only [Decimal.isDigits, hf, List.all_takeWhile]
        rfl
      have hlongest : LongestToken (c :: cs) .float
          ((c :: cs).takeWhile Char.isDigit ++ '.' :: r.takeWhile Char.isDigit) := by
        refine ⟨⟨_, _, rfl, hwhole, hfraction⟩, ⟨_, happend⟩, fun l v hl hv => ?_⟩
        rw [List.length_append, List.length_cons]
        rcases number_front hc hl hv with hlen | ⟨b, t, ht, hb, rfl⟩
        · omega
        · -- behind the same point no float has more digits than were taken
          rw [hr] at ht
          have hlen : b.length ≤ (r.takeWhile Char.isDigit).length :=
            length_le_takeWhile ⟨t, (List.cons.inj ht).2.symm⟩ (isDigits_all hb)
          rw [List.length_append, List.length_cons]
          omega
      have hnone : ∀ v, ¬ DanglingPoint (c :: cs) v := fun v hv =>
        hf (List.isEmpty_iff.mpr ((danglingPoint_iff hr hwhole).mp hv).2)
      simpa only [hr, hf, Bool.false_eq_true, if_false] using Reads.token hnone hlongest
  next hr =>
    -- without a point behind the digits there is no float, and no dangling point
    have hlongest : LongestToken (c :: cs) .integer ((c :: cs).takeWhile Char.isDigit) := by
      refine ⟨hwhole, ⟨_, happend⟩, fun l v hl hv => ?_⟩
      rcases number_front hc hl hv with hlen | ⟨b, t, ht, -⟩
      · exact hlen
      · exact absurd ht (hr _)
    refine Reads.token ?_ hlongest
    rintro v ⟨d, t, heq, -, hd, -⟩
    refine hr t ?_
    rw [heq]
    exact dropWhile_digits_point hd

/-! ## Identifiers -/

theorem identifier_reads {c : Char} (hd : c.isDigit = false) (hc : isNameStart c = true)
    (cs : List Char) :
    Reads (c :: cs) (identifier (c :: cs)).kind (identifier (c :: cs)).text := by
  refine .token (not_danglingPoint hd) ⟨?_, ⟨_, identifier_append (c :: cs)⟩, ?_⟩
  · refine ⟨c, cs.takeWhile isNamePart, ?_, hc, mem_takeWhile⟩
    exact List.takeWhile_cons_of_pos (isNamePart_of_isNameStart hc)
  · intro l v hl hv
    obtain rfl := kind_of_isNameStart hc (hl.starts_of_front hv)
    obtain ⟨d, t, rfl, hdt, ht⟩ := hl
    refine length_le_takeWhile hv fun e he => ?_
    rcases List.mem_cons.mp he with rfl | he
    · exact isNamePart_of_isNameStart hdt
    · exact ht e he

/-! ## Strings -/

/-- What a reader leaves for its last case does not start with a backslash. -/
theorem ne_backslash {c : Char} {r : List Char} (hend : c = '\\' → r = [] → False)
    (hesc : ∀ d t, c = '\\' → r = d :: t → False) : c ≠ '\\' := by
  intro hc
  cases r with
  | nil => exact hend hc rfl
  | cons d t => exact hesc d t hc rfl

/-- A string's body is made of characters up to its closing quotation mark, or is broken. -/
theorem stringBody_spec (cs : List Char) :
    ∃ b r, cs = b ++ r ∧ Items '"' b ∧
      (((stringBody cs).kind = .string ∧ (stringBody cs).text = b ++ ['"'] ∧ ∃ t, r = '"' :: t) ∨
        ((stringBody cs).kind = .illegal ∧
          ∃ f, (stringBody cs).text = b ++ f ∧ Broken r f)) := by
  fun_induction stringBody cs with
  | case1 => exact ⟨[], [], rfl, .nil, .inr ⟨rfl, [], rfl, .ends⟩⟩
  | case2 r => exact ⟨[], '"' :: r, rfl, .nil, .inl ⟨rfl, rfl, r, rfl⟩⟩
  | case3 => exact ⟨[], ['\\'], rfl, .nil, .inr ⟨rfl, ['\\'], rfl, .endsInEscape⟩⟩
  | case4 c r hc ih =>
    obtain ⟨b, s, rfl, hb, h⟩ := ih
    refine ⟨'\\' :: c :: b, s, rfl, .cons (.escape hc) hb, ?_⟩
    rcases h with ⟨hk, ht, hs⟩ | ⟨hk, f, ht, hf⟩
    · exact .inl ⟨hk, by simp [push, ht], hs⟩
    · exact .inr ⟨hk, f, by simp [push, ht], hf⟩
  | case5 c r hc =>
    exact ⟨[], '\\' :: c :: r, rfl, .nil,
      .inr ⟨rfl, ['\\', c], rfl, .unknownEscape (by simpa using hc)⟩⟩
  | case6 c r hq hend hesc ih =>
    obtain ⟨b, s, rfl, hb, h⟩ := ih
    refine ⟨c :: b, s, rfl, .cons (.plain hq (ne_backslash hend hesc)) hb, ?_⟩
    rcases h with ⟨hk, ht, hs⟩ | ⟨hk, f, ht, hf⟩
    · exact .inl ⟨hk, by simp [push, ht], hs⟩
    · exact .inr ⟨hk, f, by simp [push, ht], hf⟩

/-- A prefix that is a string is closed where the characters of the input end. -/
theorem string_front {b r v : List Char} {k : TokenKind} (hb : Items '"' b) (hr : NoItem '"' r)
    (hk : Spells k v) (hv : v <+: '"' :: (b ++ r)) :
    v = '"' :: (b ++ ['"']) ∧ ∃ t, r = '"' :: t := by
  obtain rfl := kind_of_quote (hk.starts_of_front hv)
  obtain ⟨d, rfl, hd⟩ := hk
  obtain ⟨t, ht⟩ := hv
  have heq : b ++ r = d ++ '"' :: t := by simpa using (List.cons.inj ht).2.symm
  obtain ⟨rfl, rfl⟩ := items_unique hb hd hr (noItem_quote (by decide) t) heq
  exact ⟨rfl, t, rfl⟩

theorem string_reads (cs : List Char) :
    Reads ('"' :: cs) (push '"' (stringBody cs)).kind (push '"' (stringBody cs)).text := by
  have hnone : ∀ v, ¬ DanglingPoint ('"' :: cs) v := not_danglingPoint (by decide)
  obtain ⟨b, r, rfl, hb, ⟨hk, ht, t, rfl⟩ | ⟨hk, f, ht, hf⟩⟩ := stringBody_spec cs
  · have hlongest : LongestToken ('"' :: (b ++ '"' :: t)) .string ('"' :: (b ++ ['"'])) := by
      refine ⟨⟨b, rfl, hb⟩, ⟨t, by simp⟩, fun l v hl hv => ?_⟩
      exact Nat.le_of_eq (congrArg _ (string_front hb (noItem_quote (by decide) t) hl hv).1)
    simpa only [push, hk, ht] using Reads.token hnone hlongest
  · have hno : ∀ k v, Spells k v → ¬ v <+: '"' :: (b ++ r) := by
      intro l v hl hv
      obtain ⟨-, t, rfl⟩ := string_front hb (hf.noItem _) hl hv
      exact hf.ne_quote (by decide) t rfl
    simpa only [push, hk, ht] using Reads.fault hnone hno (.string hb hf)

/-! ## Characters -/

/-- A prefix that is a character literal has one character, and an apostrophe behind it. -/
theorem char_front {cs v : List Char} {k : TokenKind} (hk : Spells k v)
    (hv : v <+: '\'' :: cs) : ∃ i t, v = '\'' :: (i ++ ['\'']) ∧ Item '\'' i ∧ cs = i ++ '\'' :: t := by
  obtain rfl := kind_of_apostrophe (hk.starts_of_front hv)
  obtain ⟨i, rfl, hi⟩ := hk
  obtain ⟨t, ht⟩ := hv
  exact ⟨i, t, rfl, hi, by simpa using (List.cons.inj ht).2.symm⟩

theorem noItem_reads {r f : List Char} (hr : NoItem '\'' r) (hf : Fault ('\'' :: r) f) :
    Reads ('\'' :: r) .illegal f := by
  refine .fault (not_danglingPoint (by decide)) (fun k v hk hv => ?_) hf
  obtain ⟨i, t, -, hi, ht⟩ := char_front hk hv
  exact hr _ _ hi ht

theorem closeChar_reads {i : List Char} (hi : Item '\'' i) (r : List Char) :
    Reads ('\'' :: (i ++ r)) (closeChar i r).kind ('\'' :: (closeChar i r).text) := by
  have hnone : ∀ v, ¬ DanglingPoint ('\'' :: (i ++ r)) v := not_danglingPoint (by decide)
  unfold closeChar
  split
  next t =>
    refine .token hnone ⟨⟨i, rfl, hi⟩, ⟨t, by simp⟩, fun l v hl hv => ?_⟩
    obtain ⟨j, u, rfl, hj, hu⟩ := char_front hl hv
    obtain rfl := (item_unique hi hj hu).1
    exact Nat.le_refl _
  next hr =>
    refine .fault hnone (fun k v hk hv => ?_) (.openChar hi fun h => ?_)
    · obtain ⟨j, u, -, hj, hu⟩ := char_front hk hv
      exact hr u (item_unique hi hj hu).2
    · obtain ⟨t, rfl⟩ := List.head?_eq_some_iff.mp h
      exact hr t rfl

theorem char_reads (cs : List Char) :
    Reads ('\'' :: cs) (push '\'' (charBody cs)).kind (push '\'' (charBody cs)).text := by
  fun_cases charBody cs with
  | case1 => exact noItem_reads (Broken.ends.noItem _) (.char .ends)
  | case2 r => exact noItem_reads (noItem_quote (by decide) r) .emptyChar
  | case3 => exact noItem_reads (Broken.endsInEscape.noItem _) (.char .endsInEscape)
  | case4 c r hc => exact closeChar_reads (.escape hc) r
  | case5 c r hc =>
    have hbroken : Broken ('\\' :: c :: r) ['\\', c] := .unknownEscape (by simpa using hc)
    exact noItem_reads (hbroken.noItem _) (.char hbroken)
  | case6 c r hq hend hesc =>
    exact closeChar_reads (.plain hq (ne_backslash hend hesc)) r

/-! ## Symbols -/

theorem toList_of_ofChar? {c : Char} {s : Symbol} (h : Symbol.ofChar? c = some s) :
    s.text.toList = [c] := by
  unfold Symbol.ofChar? at h
  split at h <;> cases h <;> rfl

theorem toList_of_ofPair? {c d : Char} {s : Symbol} (h : Symbol.ofPair? c d = some s) :
    s.text.toList = [c, d] := by
  unfold Symbol.ofPair? at h
  split at h <;> cases h <;> rfl

/-- A symbol has one or two characters, and is found by them. -/
theorem symbol_cases (s : Symbol) :
    (∃ c, s.text.toList = [c] ∧ Symbol.ofChar? c = some s) ∨
      ∃ c d, s.text.toList = [c, d] ∧ Symbol.ofPair? c d = some s := by
  cases s <;> first | exact .inl ⟨_, rfl, rfl⟩ | exact .inr ⟨_, _, rfl, rfl⟩

/-- A prefix that is a symbol is the symbol of the first character or of the first two. -/
theorem symbol_front {c : Char} {cs v : List Char} {s : Symbol} (hs : Spells (.symbol s) v)
    (hv : v <+: c :: cs) :
    (v = [c] ∧ Symbol.ofChar? c = some s) ∨
      ∃ d t, cs = d :: t ∧ v = [c, d] ∧ Symbol.ofPair? c d = some s := by
  obtain rfl : v = s.text.toList := hs
  obtain ⟨t, ht⟩ := hv
  rcases symbol_cases s with ⟨a, ha, hsome⟩ | ⟨a, b, hab, hsome⟩
  · rw [ha] at ht
    obtain rfl := (List.cons.inj ht).1
    exact .inl ⟨ha, hsome⟩
  · rw [hab] at ht
    obtain ⟨rfl, rfl⟩ := List.cons.inj ht
    exact .inr ⟨b, t, rfl, hab, hsome⟩

/-- What is read where no symbol of two characters is at the front. -/
theorem oneChar_reads {c : Char} {cs : List Char} (hq : c ≠ '"') (ha : c ≠ '\'')
    (hnone : ∀ v, ¬ DanglingPoint (c :: cs) v)
    (hsymbol : ∀ k v, Spells k v → v <+: c :: cs → v = [c] ∧ ∃ s, Symbol.ofChar? c = some s) :
    Reads (c :: cs) (oneChar c cs).kind (oneChar c cs).text := by
  unfold oneChar
  split
  next s hs =>
    refine .token hnone ⟨(toList_of_ofChar? hs).symm, ⟨cs, rfl⟩, fun l v hl hv => ?_⟩
    exact Nat.le_of_eq (congrArg List.length (hsymbol l v hl hv).1)
  next hs =>
    refine .fault hnone (fun k v hk hv => ?_) (.character hq ha)
    obtain ⟨-, s, hsome⟩ := hsymbol k v hk hv
    cases hs.symm.trans hsome

theorem symbol_reads {c : Char} (hd : c.isDigit = false) (hn : isNameStart c = false)
    (hq : c ≠ '"') (ha : c ≠ '\'') (cs : List Char) :
    Reads (c :: cs) (symbol c cs).kind (symbol c cs).text := by
  have hnone : ∀ v, ¬ DanglingPoint (c :: cs) v := not_danglingPoint hd
  have hkind : ∀ k v, Spells k v → v <+: c :: cs → ∃ s, k = .symbol s := fun k v hk hv =>
    kind_of_other hd hn hq ha (hk.starts_of_front hv)
  unfold symbol
  split
  next =>
    refine oneChar_reads hq ha hnone fun k v hk hv => ?_
    obtain ⟨s, rfl⟩ := hkind k v hk hv
    rcases symbol_front hk hv with ⟨rfl, hs⟩ | ⟨d, t, h, -⟩
    · exact ⟨rfl, s, hs⟩
    · exact absurd h.symm (List.cons_ne_nil _ _)
  next d r =>
    split
    next s hs =>
      refine .token hnone ⟨(toList_of_ofPair? hs).symm, ⟨r, rfl⟩, fun k v hk hv => ?_⟩
      obtain ⟨t, rfl⟩ := hkind k v hk hv
      rcases symbol_front hk hv with ⟨rfl, -⟩ | ⟨e, u, -, rfl, -⟩
      · exact Nat.le_succ 1
      · exact Nat.le_refl 2
    next hs =>
      refine oneChar_reads hq ha hnone fun k v hk hv => ?_
      obtain ⟨s, rfl⟩ := hkind k v hk hv
      rcases symbol_front hk hv with ⟨rfl, hone⟩ | ⟨e, u, h, -, hpair⟩
      · exact ⟨rfl, s, hone⟩
      · obtain rfl := (List.cons.inj h).1
        cases hs.symm.trans hpair

/-! ## Every input -/

/-- **Reading follows the rule of the lexical grammar.** -/
theorem read_reads (c : Char) (cs : List Char) : Reads (c :: cs) (read c cs).kind (read c cs).text := by
  unfold read
  split
  next hd => exact number_reads hd cs
  next hd =>
    split
    next hn => exact identifier_reads (by simpa using hd) hn cs
    next hn =>
      split
      next hq => exact hq ▸ string_reads cs
      next hq =>
        split
        next ha => exact ha ▸ char_reads cs
        next ha => exact symbol_reads (by simpa using hd) (by simpa using hn) hq ha cs

/-- A text that is read and is not at fault is a token. -/
theorem read_spells {c : Char} {cs : List Char} (h : (read c cs).kind ≠ .illegal) :
    Spells (read c cs).kind (read c cs).text := by
  have hreads := read_reads c cs
  revert hreads
  generalize (read c cs).kind = k at h
  intro hreads
  cases hreads with
  | dangling _ => exact absurd rfl h
  | token _ ht => exact ht.spells
  | fault _ _ _ => exact absurd rfl h

end Lexeme

namespace Scanner

/-- Where input is left behind the blanks, the token is what is read there. -/
theorem scan_of_rest {s : Scanner} {c : Char} {cs : List Char} (h : s.skipBlanks.rest = c :: cs) :
    s.scan = (⟨(Lexeme.read c cs).kind, String.ofList (Lexeme.read c cs).text, s.skipBlanks.offset⟩,
      ⟨(Lexeme.read c cs).rest, s.skipBlanks.offset + byteLength (Lexeme.read c cs).text,
        s.finished⟩) := by
  simp only [scan, h]
  rfl

/--
**Scanning is maximal munch.**

Where input is left behind the blanks, exactly one text has to be read off its front by the rule of
the lexical grammar. The next token is this text, with its kind and its place, and the scanner goes
behind it. No text is a token of two kinds.
-/
theorem scan_maximalMunch (s : Scanner) (h : s.rest.dropWhile Lexeme.isBlank ≠ []) :
    (∀ k l w, Lexeme.Spells k w → Lexeme.Spells l w → k = l) ∧
      ∃ k w rest, s.rest.dropWhile Lexeme.isBlank = w ++ rest ∧
        (∀ l v, Lexeme.Reads (s.rest.dropWhile Lexeme.isBlank) l v ↔ l = k ∧ v = w) ∧
        s.scan = (⟨k, String.ofList w, s.offset + byteLength (s.rest.takeWhile Lexeme.isBlank)⟩,
          ⟨rest, s.offset + byteLength (s.rest.takeWhile Lexeme.isBlank) + byteLength w,
            s.finished⟩) := by
  refine ⟨fun k l w hk hl => hk.kind_unique hl, ?_⟩
  obtain ⟨c, cs, hcs⟩ := List.exists_cons_of_ne_nil h
  have hreads := Lexeme.read_reads c cs
  refine ⟨(Lexeme.read c cs).kind, (Lexeme.read c cs).text, (Lexeme.read c cs).rest, ?_, ?_,
    scan_of_rest hcs⟩
  · rw [hcs, Lexeme.read_append]
  · intro l v
    rw [hcs]
    constructor
    · intro hlv
      exact hlv.unique hreads
    · rintro ⟨rfl, rfl⟩
      exact hreads

/-- Behind a blank, a string that an unknown escape breaks. -/
theorem scan_maximalMunch_brokenString :
    let s : Scanner := ⟨[' ', '"', 'a', '\\', 'q', '1'], 3, false⟩
    s.rest.dropWhile Lexeme.isBlank ≠ [] ∧ (∀ k l w, Lexeme.Spells k w → Lexeme.Spells l w → k = l) ∧
      ∃ k w rest, s.rest.dropWhile Lexeme.isBlank = w ++ rest ∧
        (∀ l v, Lexeme.Reads (s.rest.dropWhile Lexeme.isBlank) l v ↔ l = k ∧ v = w) ∧
        s.scan = (⟨k, String.ofList w, s.offset + byteLength (s.rest.takeWhile Lexeme.isBlank)⟩,
          ⟨rest, s.offset + byteLength (s.rest.takeWhile Lexeme.isBlank) + byteLength w,
            s.finished⟩) :=
  ⟨by decide, scan_maximalMunch _ (by decide)⟩

end Scanner

end Reckon
