import Reckon.Expression
import Reckon.Proofs.Parsing.Decoding

/-!
# Literals are read back

A string or a character can be written down in several ways: a character stands for itself or, if
there is one, an escape stands for it (`Literal.Writes`). Whichever way is taken, the text is one
token, and its value is what was written (`eval_written`). The apostrophe has no escape, so it
is the one character that no character literal stands for.

An integer is read back from digits that denote it, with a sign in front of them or without one
(`Denotes`). Its own text is such a text, with any number of zeros in front of its digits. The
smallest integer is not read back: the sign is an operator, and the number behind it does not fit
into 64 bits.
-/

namespace Reckon

/-! ## Quoted texts -/

namespace Literal

variable {i b : List Char} {c : Char}

theorem Writes.decode?_char (h : Writes '\'' i c) :
    decode? .char (String.ofList ('\'' :: (i ++ ['\'']))) = some (.char c) := by
  have hinner : Literal.unescape? (i ++ []) = some [c] := h.unescape? rfl
  rw [List.append_nil] at hinner
  rw [decode?, char?, String.toList_ofList, inner_quoted, hinner]

theorem WritesAll.decode?_string {s : String} (h : WritesAll '"' b s.toList) :
    decode? .string (String.ofList ('"' :: (b ++ ['"']))) = some (.string s) := by
  rw [decode?, string?, String.toList_ofList, inner_quoted, h.unescape?, Option.map_some,
    String.ofList_toList]

/-- No character literal stands for an apostrophe. -/
theorem decode?_ne_apostrophe {w : String} (h : Lexeme.Spells .char w.toList) :
    decode? .char w ≠ some (.char '\'') := by
  obtain ⟨i, hw, hi⟩ := h
  obtain ⟨c, hc⟩ := exists_writes hi
  obtain rfl : w = String.ofList ('\'' :: (i ++ ['\''])) := by rw [← hw, String.ofList_toList]
  rw [hc.decode?_char]
  intro heq
  cases heq
  exact hc.ne_apostrophe rfl

end Literal

/-! ## Sources -/

/-- The value of a source is that of the expression that it is scanned into. -/
theorem eval_of_wellFormed {source : String} {e : Expr}
    (hlength : (Token.tokens source).length ≤ Parser.defaultLimit) (he : e.WellFormed)
    (hw : (Token.tokens source).map Token.word = e.flatten) (env : Environment) :
    eval source env = (e.evaluate env).mapError .eval := by
  have hparse : Expr.parse source = .ok e := Expr.parseWithin_of_wellFormed hlength he hw
  rw [eval, hparse]

/-- A text that spells a token is scanned into this token. -/
theorem Token.tokens_of_spells {k : TokenKind} {w : List Char} (h : Lexeme.Spells k w) :
    tokens (String.ofList w) = [⟨k, String.ofList w, 0⟩] := by
  obtain ⟨c, w, rfl⟩ := List.exists_cons_of_ne_nil h.ne_nil
  have hread : Lexeme.read c w = ⟨k, c :: w, []⟩ := by
    have hread := Lexeme.read_of_closes (r := []) h (by simp)
    rwa [List.append_nil] at hread
  have hskip : (Scanner.ofSource (String.ofList (c :: w))).skipBlanks = ⟨c :: w, 0, false⟩ := by
    simp [Scanner.ofSource, Scanner.skipBlanks, byteLength, h.isBlank_eq_false]
  have hrest := congrArg Scanner.rest hskip
  rw [tokens, Scanner.tokens_of_rest hrest, Scanner.scan_of_rest hrest, hread, hskip,
    Scanner.tokens_of_rest_nil rfl]

theorem Token.scanAll_of_spells {k : TokenKind} {w : List Char} (h : Lexeme.Spells k w) :
    scanAll (String.ofList w) =
      [⟨k, String.ofList w, 0⟩, ⟨.eof, "", (String.ofList w).utf8ByteSize⟩] := by
  have hstop : (Scanner.ofSource (String.ofList w)).stop = (String.ofList w).utf8ByteSize := by
    rw [Scanner.stop, ← byteLength_toList]
    exact Nat.zero_add _
  rw [scanAll, tokens_of_spells h, hstop]
  rfl

namespace Expr

/-- A literal of a text that denotes a value can be written down. -/
theorem wellFormed_literal {k : Kind} {w : String} {v : Value} (hk : k ≠ .bool)
    (hs : Lexeme.Spells k.token w.toList) (hv : Literal.decode? k w = some v) :
    (literal ⟨k, w, v⟩).WellFormed := by
  have hkind : Kind.ofToken? k.token w = some k :=
    Kind.ofToken?_eq_some_iff.mpr ⟨rfl, fun hbool => absurd hbool hk⟩
  refine .literal hs ?_
  rw [ofToken]
  simp only [hkind, hv]

end Expr

/-- A literal that can be written down is parsed back. -/
theorem Expr.parse_raw {l : Literal} (h : (literal l).WellFormed) :
    parse l.raw = .ok (literal l) := by
  cases h with
  | literal hs hl =>
    have htokens := Token.tokens_of_spells hs
    rw [String.ofList_toList] at htokens
    have hlength : (Token.tokens l.raw).length ≤ Parser.defaultLimit := by
      simp [htokens, Parser.defaultLimit]
    exact parseWithin_of_wellFormed hlength (.literal hs hl) (by rw [htokens]; rfl)

/-- A literal that can be written down is read back. -/
theorem eval_raw {l : Literal} (h : (Expr.literal l).WellFormed) (env : Environment) :
    eval l.raw env = .ok l.value := by
  rw [eval, Expr.parse_raw h]
  simp only [Expr.evaluate]
  rfl

/-- A text that spells a literal is parsed into this literal. -/
theorem Expr.parse_of_decode? {k : Kind} {w : List Char} {v : Value} (hk : k ≠ .bool)
    (hs : Lexeme.Spells k.token w) (hv : Literal.decode? k (String.ofList w) = some v) :
    parse (String.ofList w) = .ok (literal ⟨k, String.ofList w, v⟩) :=
  parse_raw (l := ⟨k, String.ofList w, v⟩) (wellFormed_literal hk (by rwa [String.toList_ofList]) hv)

/-- A text that spells a literal has the value of this literal. -/
theorem eval_of_decode? {k : Kind} {w : List Char} {v : Value} (hk : k ≠ .bool)
    (hs : Lexeme.Spells k.token w) (hv : Literal.decode? k (String.ofList w) = some v)
    (env : Environment) : eval (String.ofList w) env = .ok v := by
  have hwf : (Expr.literal ⟨k, String.ofList w, v⟩).WellFormed :=
    Expr.wellFormed_literal hk (by rwa [String.toList_ofList]) hv
  exact eval_raw hwf env

/-! ## Integers -/

theorem int64?_eq_some_iff {i : Int} {n : Int64} : int64? i = some n ↔ i = n.toInt := by
  rw [int64?, Option.ite_none_right_eq_some, Option.some_inj]
  constructor
  · rintro ⟨hfits, rfl⟩
    exact (Int64.toInt_ofInt_of_le hfits.1 hfits.2).symm
  · rintro rfl
    exact ⟨⟨n.le_toInt, n.toInt_lt⟩, Int64.ofInt_toInt n⟩

/-- The text is digits that denote the number, with a sign in front of them or without one. -/
inductive Denotes : (w : List Char) → (i : Int) → Prop
  | digits {ds : List Char} (h : Decimal.isDigits ds = true) : Denotes ds (Decimal.ofDigits ds)
  | plus {ds : List Char} (h : Decimal.isDigits ds = true) :
    Denotes ('+' :: ds) (Decimal.ofDigits ds)
  | minus {ds : List Char} (h : Decimal.isDigits ds = true) :
    Denotes ('-' :: ds) (-(Decimal.ofDigits ds : Int))

section Signed

variable {c : Char} {ds : List Char}

theorem decode?_digits (h : Decimal.isDigits ds = true) :
    Literal.decode? .integer (String.ofList ds) =
      (int64? (Decimal.ofDigits ds)).map Value.integer := by
  rw [Literal.decode?, String.toList_ofList, Literal.integer?, if_pos h]

/-- A symbol that starts no longer one is a word of its own in front of digits. -/
theorem words_sign {s : Symbol} (hs : Lexeme.Spells (.symbol s) [c])
    (hpair : ∀ d, Symbol.ofPair? c d = none) (h : Decimal.isDigits ds = true) :
    (Token.tokens (String.ofList (c :: ds))).map Token.word =
      [s.word, (.integer, String.ofList ds)] := by
  have hscan := Word.scan_word hs (r := ds) fun d _ => by rw [Lexeme.closes, hpair]; rfl
  have hword : String.ofList [c] = s.text := by
    rw [show [c] = s.text.toList from hs, String.ofList_toList]
  have hdigits := Word.scan_word (k := .integer) (r := []) h (by simp)
  rw [List.append_nil, Word.scan_nil] at hdigits
  rw [hdigits, hword] at hscan
  rw [Token.tokens, Scanner.ofSource, String.toList_ofList]
  exact hscan

/-- The sign is an operator on the number behind it. -/
theorem eval_sign (op : UnaryOp) {m : Int64}
    (hs : Lexeme.Spells (.symbol op.symbol) [c])
    (hpair : ∀ d, Symbol.ofPair? c d = none) (h : Decimal.isDigits ds = true)
    (hm : int64? (Decimal.ofDigits ds) = some m) (env : Environment) :
    eval (String.ofList (c :: ds)) env = (op.apply (.integer m)).mapError .eval := by
  let number : Literal := ⟨.integer, String.ofList ds, .integer m⟩
  have hwf : (Expr.unary op (.literal number)).WellFormed := by
    refine .unary (Expr.wellFormed_literal (by decide) ?_ ?_) rfl
    · rw [String.toList_ofList]
      exact h
    · rw [decode?_digits h, hm]
      rfl
  have hwords := words_sign hs hpair h
  have hlength : (Token.tokens (String.ofList (c :: ds))).length ≤ Parser.defaultLimit := by
    rw [← List.length_map Token.word, hwords]
    exact Nat.le_of_ble_eq_true rfl
  rw [eval_of_wellFormed hlength hwf hwords, Expr.evaluate, Expr.evaluate]
  rfl

end Signed

/-- A text that denotes an integer has this value, if the integer without its sign fits. -/
theorem eval_of_denotes {w : List Char} {n : Int64} (h : Denotes w n.toInt)
    (hmin : n ≠ Int64.minValue) (env : Environment) :
    eval (String.ofList w) env = .ok (.integer n) := by
  generalize hi : n.toInt = i at h
  cases h with
  | digits h =>
    refine eval_of_decode? (k := .integer) (by decide) h ?_ env
    rw [decode?_digits h, int64?_eq_some_iff.mpr hi.symm]
    rfl
  | plus h =>
    rw [eval_sign (c := '+') .plus rfl (fun _ => rfl) h (int64?_eq_some_iff.mpr hi.symm)]
    rfl
  | @minus ds h =>
    have hlow : n.toInt ≠ -0x8000000000000000 := fun heq => hmin (Int64.toInt_inj.mp heq)
    have hbound := n.le_toInt
    have hm : (Int64.ofInt (Decimal.ofDigits ds)).toInt = Decimal.ofDigits ds :=
      Int64.toInt_ofInt_of_le (by omega) (by omega)
    rw [eval_sign (c := '-') .minus rfl (fun _ => rfl) h (int64?_eq_some_iff.mpr hm.symm),
      UnaryOp.apply, hm, checked, int64?_eq_some_iff.mpr hi.symm]
    rfl

/-- The smallest integer without its sign does not fit. -/
theorem eval_of_denotes_minValue {w : List Char} (h : Denotes w Int64.minValue.toInt)
    (env : Environment) : ∃ ds, w = '-' :: ds ∧
      eval (String.ofList w) env =
        .error (.parse (.invalidLiteral .integer (String.ofList ds))) := by
  generalize hi : Int64.minValue.toInt = i at h
  have hlow : Int64.minValue.toInt = -0x8000000000000000 := rfl
  cases h with
  | digits h => omega
  | plus h => omega
  | @minus ds h =>
    have hnone : Literal.decode? .integer (String.ofList ds) = none := by
      have hlarge : (Decimal.ofDigits ds : Int) = 0x8000000000000000 := by omega
      rw [decode?_digits h, hlarge]
      rfl
    have hwords := words_sign (c := '-') (s := .minus) rfl (fun _ => rfl) h
    have hroom : 2 ≤ Parser.defaultLimit := by decide
    refine ⟨ds, rfl, ?_⟩
    rw [eval, Expr.parse, Expr.parseWithin_minus_eq_error hroom hwords rfl hnone]

/-! ### The text of an integer -/

/-- The text of an integer with `k` zeros in front of its digits. -/
def padded (k : Nat) (text : String) : String :=
  match text.toList with
  | '-' :: ds => String.ofList ('-' :: (List.replicate k '0' ++ ds))
  | ds => String.ofList (List.replicate k '0' ++ ds)

/-- The digits of a number behind `k` zeros. -/
def zerosAndDigits (k n : Nat) : List Char := List.replicate k '0' ++ Nat.toDigits 10 n

theorem isDigits_zerosAndDigits (k n : Nat) : Decimal.isDigits (zerosAndDigits k n) = true := by
  have hall : ∀ c ∈ zerosAndDigits k n, c.isDigit = true := by
    intro c hc
    rcases List.mem_append.mp hc with hc | hc
    · rw [List.eq_of_mem_replicate hc]
      decide
    · exact Nat.isDigit_of_mem_toDigits (by decide) (by decide) hc
  have hne : zerosAndDigits k n ≠ [] := by simp [zerosAndDigits, Nat.toDigits_ne_nil]
  simpa [Decimal.isDigits, hne] using hall

theorem ofDigits_zerosAndDigits (k n : Nat) : Decimal.ofDigits (zerosAndDigits k n) = n := by
  rw [Decimal.ofDigits, zerosAndDigits, Nat.ofDigitChars_append, Nat.ofDigitChars_replicate_zero,
    Nat.mul_zero, Nat.ofDigitChars_ten_toDigits]

theorem toList_text_of_nonneg {n : Int64} (h : 0 ≤ n.toInt) :
    (Value.integer n).text.toList = Nat.toDigits 10 n.toInt.natAbs := by
  obtain ⟨m, hm⟩ := Int.eq_ofNat_of_zero_le h
  rw [Value.text, hm]
  exact Nat.toList_repr

theorem toList_text_of_neg {n : Int64} (h : n.toInt < 0) :
    (Value.integer n).text.toList = '-' :: Nat.toDigits 10 n.toInt.natAbs := by
  obtain ⟨m, hm⟩ := Int.eq_negSucc_of_lt_zero h
  rw [Value.text, hm]
  change ("-" ++ Nat.repr (m + 1)).toList = _
  rw [String.toList_append, Nat.toList_repr]
  rfl

theorem padded_of_nonneg (k : Nat) {n : Int64} (h : 0 ≤ n.toInt) :
    padded k (Value.integer n).text = String.ofList (zerosAndDigits k n.toInt.natAbs) := by
  have htext := toList_text_of_nonneg h
  rw [padded, htext]
  split
  next ds hds =>
    have hdigit : '-'.isDigit = true :=
      Nat.isDigit_of_mem_toDigits (b := 10) (n := n.toInt.natAbs) (by decide) (by decide)
        (by simp [hds])
    cases hdigit
  · rfl

theorem padded_of_neg (k : Nat) {n : Int64} (h : n.toInt < 0) :
    padded k (Value.integer n).text = String.ofList ('-' :: zerosAndDigits k n.toInt.natAbs) := by
  rw [padded, toList_text_of_neg h]
  rfl

/-- Zeros in front do not change what a text denotes. -/
theorem denotes_padded (k : Nat) (n : Int64) :
    Denotes (padded k (Value.integer n).text).toList n.toInt := by
  have hdigits := isDigits_zerosAndDigits k n.toInt.natAbs
  have hvalue := ofDigits_zerosAndDigits k n.toInt.natAbs
  rcases lt_or_ge n.toInt 0 with hneg | hnonneg
  · have hdenotes := Denotes.minus hdigits
    rwa [hvalue, Int.ofNat_natAbs_of_nonpos (Int.le_of_lt hneg), Int.neg_neg,
      ← String.toList_ofList (l := '-' :: _), ← padded_of_neg k hneg] at hdenotes
  · have hdenotes := Denotes.digits hdigits
    rwa [hvalue, Int.natAbs_of_nonneg hnonneg, ← String.toList_ofList (l := zerosAndDigits k _),
      ← padded_of_nonneg k hnonneg] at hdenotes

theorem denotes_text (n : Int64) : Denotes (Value.integer n).text.toList n.toInt := by
  have hpadded : padded 0 (Value.integer n).text = (Value.integer n).text := by
    rw [← String.toList_inj, padded]
    split
    next ds hds => rw [String.toList_ofList, hds]; rfl
    next => rw [String.toList_ofList]; rfl
  have h := denotes_padded 0 n
  rwa [hpadded] at h

/-- An integer is read back, whatever zeros are in front of its digits. -/
theorem eval_padded (k : Nat) {n : Int64} (hmin : n ≠ Int64.minValue) (env : Environment) :
    eval (padded k (Value.integer n).text) env = .ok (.integer n) := by
  rw [← String.ofList_toList (s := padded k (Value.integer n).text)]
  exact eval_of_denotes (denotes_padded k n) hmin env

theorem eval_minValue (k : Nat) (env : Environment) :
    eval (padded k (Value.integer Int64.minValue).text) env =
      .error (.parse (.invalidLiteral .integer
        (String.ofList (zerosAndDigits k 0x8000000000000000)))) := by
  have htext : padded k (Value.integer Int64.minValue).text =
      String.ofList ('-' :: zerosAndDigits k 0x8000000000000000) :=
    padded_of_neg k (by decide)
  have hdenotes := denotes_padded k Int64.minValue
  rw [htext, String.toList_ofList] at hdenotes
  obtain ⟨ds, hds, heval⟩ := eval_of_denotes_minValue hdenotes env
  cases hds
  rw [htext, heval]

/-! ## The round trip -/

/--
**Literals are read back.**

Every string can be written down between quotation marks, and however its characters are written,
the source is one token and its value is the string. Every character but the apostrophe can be
written down between apostrophes, and however it is written, the value of the source is the
character; no character literal of any source stands for the apostrophe. The text of an integer has
the integer as its value, and so has the text with zeros in front of the digits. For the smallest
integer the digits are no literal.
-/
theorem eval_written (env : Environment) :
    (∀ s : String, (∃ b, Literal.WritesAll '"' b s.toList) ∧
      ∀ b, Literal.WritesAll '"' b s.toList →
        let source := String.ofList ('"' :: (b ++ ['"']))
        Token.scanAll source = [⟨.string, source, 0⟩, ⟨.eof, "", source.utf8ByteSize⟩] ∧
          eval source env = .ok (.string s)) ∧
    (∀ c : Char, c ≠ '\'' → (∃ i, Literal.Writes '\'' i c) ∧
      ∀ i, Literal.Writes '\'' i c →
        eval (String.ofList ('\'' :: (i ++ ['\'']))) env = .ok (.char c)) ∧
    (∀ (source : String), ∀ t ∈ Token.scanAll source, t.kind = .char →
      Literal.decode? .char t.lexeme ≠ some (.char '\'')) ∧
    (∀ (n : Int64) (k : Nat), n ≠ Int64.minValue →
      eval (padded k (Value.integer n).text) env = .ok (.integer n)) ∧
    ∀ k : Nat, eval (padded k (Value.integer Int64.minValue).text) env =
      .error (.parse (.invalidLiteral .integer
        (String.ofList (List.replicate k '0' ++ "9223372036854775808".toList)))) := by
  refine ⟨fun s => ⟨Literal.exists_writesAll _, fun b hb => ?_⟩,
    fun c hc => ⟨Literal.exists_writes_of_ne hc, fun i hi => ?_⟩, fun source t ht hk => ?_,
    fun n k hn => ?_, fun k => ?_⟩
  · have hs : Lexeme.Spells .string ('"' :: (b ++ ['"'])) := ⟨b, rfl, hb.items⟩
    exact ⟨Token.scanAll_of_spells hs, eval_of_decode? (k := .string) (by decide) hs
      hb.decode?_string env⟩
  · have hs : Lexeme.Spells .char ('\'' :: (i ++ ['\''])) := ⟨i, rfl, hi.item⟩
    exact eval_of_decode? (k := .char) (by decide) hs hi.decode?_char env
  · exact Literal.decode?_ne_apostrophe
      (Token.spells_of_mem_scanAll ht hk (by decide) (by decide))
  · exact eval_padded k hn env
  · rw [eval_minValue]
    rfl

/-- A backslash in front of a quotation mark, a character that is an escape elsewhere, and zeros. -/
theorem eval_written_mixed :
    eval "\"a\\\\\\\"\"" Environment.empty = .ok (.string "a\\\"") ∧
      eval "'\"'" Environment.empty = .ok (.char '"') ∧
      eval "-007" Environment.empty = .ok (.integer (-7)) := by
  have hstring : Literal.WritesAll '"' ['a', '\\', '\\', '\\', '"'] "a\\\"".toList :=
    .cons (.raw (by decide) (by decide)) (.cons (.escape (by decide))
      (.cons (.escape (by decide)) .nil))
  have hchar : Literal.Writes '\'' ['"'] '"' := .raw (by decide) (by decide)
  have hpadded : padded 2 (Value.integer (-7)).text = "-007" := by decide
  obtain ⟨hstrings, hchars, -, hintegers, -⟩ := eval_written Environment.empty
  have hs := ((hstrings "a\\\"").2 _ hstring).2
  have hc := (hchars '"' (by decide)).2 _ hchar
  have hn := hintegers (-7) 2 (by decide)
  rw [hpadded] at hn
  exact ⟨hs, hc, hn⟩

end Reckon
