import Reckon.CommandLine.Binding
import Reckon.Proofs.Lexical.Calls
import Reckon.Proofs.Lexical.Literals
import Reckon.Proofs.Parsing.Language

/-!
# Slices never crash

A program that keeps texts as bytes and numbers as machine words meets operations that are partial:
a slice between two places, one less than a number, an item at a place, a remainder. The functions
of this library have an answer everywhere, so they do not show whether such an operation would be
asked for something that it has no answer to. The functions in `Checked` do: each of them is one of
the library with the partial operations in it as they are, and it crashes (`Crash`) where one of
them is used outside of its domain. The parser has them for its effects (`Checked.effects`). That
the functions never crash and have the same results says that the checks in front of these
operations are enough.

This module is about the slices: a token is cut out of its source, the text of a literal out of its
quotes, and so is the text of a binding. The places come from the scanner, which counts bytes of
whole characters, or from quotes of one byte each.
-/

namespace Reckon

/-- An operation outside of its domain. -/
inductive Crash
  /-- A slice between two places that are not in order, not in the text or inside of a character. -/
  | slice (start stop : Nat)
  /-- One level up from depth 0. -/
  | level
  /-- An item or a character at a place where there is none. -/
  | item (i : Nat)
  /-- A remainder of a division by zero. -/
  | remainder
deriving Repr, DecidableEq

namespace Checked

/-- The text between two places. -/
def slice (source : String) (start stop : Nat) : Except Crash String :=
  if start ≤ stop ∧ String.Pos.Raw.IsValid source ⟨start⟩ ∧ String.Pos.Raw.IsValid source ⟨stop⟩ then
    .ok (String.Pos.Raw.extract source ⟨start⟩ ⟨stop⟩)
  else .error (.slice start stop)

/-- A slice between characters is the text between them. -/
theorem slice_of_append {source : String} {a w b : List Char} (h : source.toList = a ++ (w ++ b)) :
    slice source (byteLength a) (byteLength a + byteLength w) = .ok (String.ofList w) := by
  let t : Token := ⟨.eof, String.ofList w, byteLength a⟩
  have hsize : t.lexeme.utf8ByteSize = byteLength w := by
    rw [← byteLength_toList, String.toList_ofList]
  have htoken : t.IsSliceOf source := by
    refine Token.isSliceOf_of_append (a := a) (b := b) ?_ rfl
    rw [h, String.toList_ofList]
  obtain ⟨hstart, hstop, hextract⟩ := htoken
  rw [hsize] at hstop hextract
  rw [slice, if_pos ⟨Nat.le_add_right _ _, hstart, hstop⟩]
  exact congrArg Except.ok hextract

-- the second place is inside of a character of two bytes
example : slice "aé" 0 2 = .error (.slice 0 2) := by decide +kernel

/-- Between two characters of one byte each, the slice is everything else. -/
theorem slice_inside {s : String} {c d : Char} {w : List Char} (h : s.toList = c :: (w ++ [d]))
    (hc : c.utf8Size = 1) (hd : d.utf8Size = 1) :
    2 ≤ s.utf8ByteSize ∧ slice s 1 (s.utf8ByteSize - 1) = .ok (String.ofList w) := by
  have hfirst : byteLength [c] = 1 := congrArg (· + 0) hc
  have hlast : byteLength [d] = 1 := congrArg (· + 0) hd
  have hsize : s.utf8ByteSize = 1 + (byteLength w + 1) := by
    rw [← byteLength_toList, h, ← List.singleton_append, byteLength_append, byteLength_append,
      hfirst, hlast]
  have hslice := slice_of_append (a := [c]) (w := w) (b := [d]) h
  rw [hfirst] at hslice
  refine ⟨by omega, ?_⟩
  rwa [hsize, show 1 + (byteLength w + 1) - 1 = 1 + byteLength w by omega]

/-! ## Tokens -/

/-- The next token, with its text cut out of the source, and the scanner behind it. -/
def scan (source : String) (s : Scanner) : Except Crash (Token × Scanner) :=
  let s := s.skipBlanks
  match s.rest with
  | [] => .ok (Scanner.eofAt s.offset, s)
  | c :: cs => do
    let l := Lexeme.read c cs
    let stop := s.offset + byteLength l.text
    let lexeme ← slice source s.offset stop
    return (⟨l.kind, lexeme, s.offset⟩, { s with rest := l.rest, offset := stop })

/-- The tokens that are left, without the end of the source. -/
def tokens (source : String) (s : Scanner) : Except Crash (List Token) :=
  match _hs : s.skipBlanks.rest with
  | [] => .ok []
  | _ :: _ => do
    let (t, _) ← scan source s
    let ts ← tokens source s.scan.2
    return t :: ts
termination_by s.rest.length
decreasing_by
  have hle := s.skipBlanks_length
  rw [_hs] at hle
  simp only [Scanner.scan, _hs]
  exact Nat.lt_of_lt_of_le (Lexeme.read_length _ _) hle

/-- A parser at the start of a source. -/
def ofSource (source : String) (limit : Nat) : Except Crash Parser := do
  let ts ← tokens source (Scanner.ofSource source)
  return ⟨ts, (Scanner.ofSource source).stop, 0, limit⟩

end Checked

namespace Scanner

/-- The scanner is in the source, behind some of its characters. -/
def InSource (source : String) (s : Scanner) : Prop :=
  ∃ a, source.toList = a ++ s.rest ∧ s.offset = byteLength a

theorem inSource_ofSource (source : String) : (ofSource source).InSource source := ⟨[], rfl, rfl⟩

namespace InSource

variable {source : String} {s : Scanner}

theorem skipBlanks (h : s.InSource source) : s.skipBlanks.InSource source := by
  obtain ⟨a, hsource, hoffset⟩ := h
  refine ⟨a ++ s.rest.takeWhile Lexeme.isBlank, ?_, ?_⟩
  · rw [List.append_assoc, skipBlanks_append, hsource]
  · rw [byteLength_append, ← hoffset]
    rfl

theorem scan (h : s.InSource source) : s.scan.2.InSource source := by
  cases hs : s.skipBlanks.rest with
  | nil =>
    rw [scan_of_rest_nil hs]
    exact h.skipBlanks
  | cons c cs =>
    obtain ⟨a, hsource, hoffset⟩ := h.skipBlanks
    rw [scan_of_rest hs]
    refine ⟨a ++ (Lexeme.read c cs).text, ?_, ?_⟩
    · rw [List.append_assoc, Lexeme.read_append, ← hs, hsource]
    · rw [byteLength_append, ← hoffset]

theorem next (h : s.InSource source) : s.next.2.InSource source := by
  unfold Scanner.next
  split
  · exact h
  · exact h.scan

end InSource

/-- The scanner after some calls. -/
def afterCalls (s : Scanner) (calls : List Call) : Scanner :=
  calls.foldl (fun s call => match call with | .scan => s.scan.2 | .next => s.next.2) s

theorem inSource_afterCalls {source : String} (calls : List Call) {s : Scanner}
    (h : s.InSource source) : (s.afterCalls calls).InSource source := by
  induction calls generalizing s with
  | nil => exact h
  | cons call calls ih =>
    cases call with
    | scan => exact ih h.scan
    | next => exact ih h.next

end Scanner

namespace Checked

/-- **A token can be cut out of the source wherever a scanner is in it.** -/
theorem scan_eq {source : String} {s : Scanner} (h : s.InSource source) :
    scan source s = .ok s.scan := by
  cases hs : s.skipBlanks.rest with
  | nil => simp only [scan, Scanner.scan, hs]
  | cons c cs =>
    obtain ⟨a, hsource, hoffset⟩ := h.skipBlanks
    rw [hs, ← Lexeme.read_append c cs] at hsource
    have hslice := slice_of_append hsource
    rw [← hoffset] at hslice
    simp only [scan, Scanner.scan, hs, hslice]
    rfl

theorem tokens_eq {source : String} {s : Scanner} (h : s.InSource source) :
    tokens source s = .ok s.tokens := by
  induction s using Scanner.tokens.induct with
  | case1 s hs =>
    rw [tokens, Scanner.tokens_of_rest_nil hs]
    split
    · rfl
    next hcons => cases hs.symm.trans hcons
  | case2 s c cs hs ih =>
    rw [tokens, Scanner.tokens_of_rest hs]
    split
    next hnil => cases hnil.symm.trans hs
    · rw [scan_eq h, ih h.scan]
      rfl

theorem ofSource_eq (source : String) (limit : Nat) :
    ofSource source limit = .ok (Parser.ofSource source limit) := by
  rw [ofSource, tokens_eq (Scanner.inSource_ofSource source)]
  rfl

/-! ## Literals -/

/-- What stands between the quotes. -/
def stripQuotes (lexeme : String) : Except Crash String :=
  if 2 ≤ lexeme.utf8ByteSize then slice lexeme 1 (lexeme.utf8ByteSize - 1) else .ok ""

/-- The value that a text of this kind denotes. -/
def decode? (kind : Kind) (lexeme : String) : Except Crash (Option Value) :=
  match kind with
  | .char => do
    let body ← stripQuotes lexeme
    match Literal.unescape? body.toList with
    | some [c] => return some (.char c)
    | _ => return none
  | .string => do
    let body ← stripQuotes lexeme
    return (Literal.unescape? body.toList).map fun t => .string (String.ofList t)
  | kind => return Literal.decode? kind lexeme

/-- The expression that a single token is: a literal or a name. -/
def ofToken (t : Token) : Except Crash (Except ParseError Expr) :=
  match Kind.ofToken? t.kind t.lexeme with
  | none => return .ok (.identifier t.lexeme)
  | some k => do
    match ← decode? k t.lexeme with
    | some v => return .ok (.literal ⟨k, t.lexeme, v⟩)
    | none => return .error (.invalidLiteral k t.lexeme)

/-- The text of a quoted literal stands between two quotes, which are characters of one byte. -/
theorem exists_quotes {t : Token} {k : Kind} (hs : Lexeme.Spells t.kind t.lexeme.toList)
    (hk : Kind.ofToken? t.kind t.lexeme = some k) (hq : k = .char ∨ k = .string) :
    ∃ q w, t.lexeme.toList = q :: (w ++ [q]) ∧ q.utf8Size = 1 := by
  cases hkind : t.kind with
  | char =>
    rw [hkind] at hs
    obtain ⟨i, hlexeme, -⟩ := hs
    exact ⟨'\'', i, hlexeme, rfl⟩
  | string =>
    rw [hkind] at hs
    obtain ⟨b, hlexeme, -⟩ := hs
    exact ⟨'"', b, hlexeme, rfl⟩
  | _ =>
    -- no other token is a quoted literal
    rw [hkind] at hk
    rcases hq with rfl | rfl <;> simp [Kind.ofToken?] at hk

theorem stripQuotes_eq {s : String} {q : Char} {w : List Char} (h : s.toList = q :: (w ++ [q]))
    (hq : q.utf8Size = 1) :
    stripQuotes s = .ok (String.ofList (Literal.inner s.toList)) := by
  obtain ⟨hsize, hslice⟩ := slice_inside h hq hq
  rw [stripQuotes, if_pos hsize, hslice, h, Literal.inner_quoted]

theorem decode?_eq {t : Token} {k : Kind} (hs : Lexeme.Spells t.kind t.lexeme.toList)
    (hk : Kind.ofToken? t.kind t.lexeme = some k) :
    decode? k t.lexeme = .ok (Literal.decode? k t.lexeme) := by
  cases k with
  | char =>
    obtain ⟨q, w, hlexeme, hq⟩ := exists_quotes hs hk (.inl rfl)
    rw [decode?, stripQuotes_eq hlexeme hq, Literal.decode?, Literal.char?]
    simp only [bind, Except.bind, String.toList_ofList]
    rcases Literal.unescape? (Literal.inner t.lexeme.toList) with _ | _ | ⟨c, _ | ⟨d, r⟩⟩ <;> rfl
  | string =>
    obtain ⟨q, w, hlexeme, hq⟩ := exists_quotes hs hk (.inr rfl)
    rw [decode?, stripQuotes_eq hlexeme hq, Literal.decode?, Literal.string?]
    simp only [bind, Except.bind, String.toList_ofList]
    rfl
  | _ => rfl

/-- **A literal that was scanned can be taken out of its quotes.** -/
theorem ofToken_eq {t : Token} (hs : Lexeme.Spells t.kind t.lexeme.toList) :
    ofToken t = .ok (Expr.ofToken t) := by
  unfold ofToken Expr.ofToken
  cases hk : Kind.ofToken? t.kind t.lexeme with
  | none => rfl
  | some k =>
    simp only [bind, Except.bind, decode?_eq hs hk]
    cases Literal.decode? k t.lexeme with
    | none => rfl
    | some v => rfl

theorem ofToken_tokens {source : String} {t : Token} (ht : t ∈ Token.tokens source) :
    ofToken t = .ok (Expr.ofToken t) := by
  by_cases hlegal : t.kind = .illegal
  · -- what is no token of the language is no literal either
    simp only [ofToken, Expr.ofToken, hlegal, Kind.ofToken?]
    rfl
  · exact ofToken_eq (Scanner.tokens_spell _ t ht hlegal)

/-! ## Bindings -/

/-- The text between two quotation marks. -/
def quoted? (raw : String) : Except Crash (Option String) :=
  if 2 ≤ raw.utf8ByteSize ∧ raw.toList.head? = some '"' ∧ raw.toList.getLast? = some '"' then do
    let inside ← slice raw 1 (raw.utf8ByteSize - 1)
    return some inside
  else return none

/-- What the text behind the equals sign stands for. -/
def datum (raw : String) : Except Crash Datum :=
  if raw = "true" then return .bool true
  else if raw = "false" then return .bool false
  else
    match Binding.integer? raw.toList, Binding.float? raw.toList with
    | some n, _ => return .int n
    | none, some x => return .float x
    | none, none => do
      match ← quoted? raw with
      | some t => return .string t
      | none => return .string raw

/-- What the argument binds to which name. -/
def ofArg (arg : String) : Except Crash (Except BindingError (String × Datum)) :=
  match arg.toList.span (· != '=') with
  | (name, _ :: raw) => do
    let d ← datum (String.ofList raw)
    return .ok (Text.trim (String.ofList name), d)
  | (_, []) => return .error ⟨arg⟩

/-- A text that starts and ends with a quotation mark and has two bytes has two of them. -/
theorem inside_iff {s : String} :
    (2 ≤ s.utf8ByteSize ∧ s.toList.head? = some '"' ∧ s.toList.getLast? = some '"') ↔
      ∃ w, s.toList = '"' :: (w ++ ['"']) := by
  constructor
  · rintro ⟨hsize, hhead, hlast⟩
    obtain ⟨init, hinit⟩ := List.getLast?_eq_some_iff.mp hlast
    cases init with
    | nil =>
      -- a single quotation mark is one byte
      rw [← byteLength_toList, hinit] at hsize
      exact absurd hsize (by decide)
    | cons c w =>
      rw [hinit, List.cons_append] at hhead
      cases hhead
      exact ⟨w, hinit⟩
  · rintro ⟨w, hw⟩
    refine ⟨(slice_inside hw rfl rfl).1, ?_, ?_⟩
    · rw [hw, List.head?_cons]
    · rw [hw, ← List.cons_append, List.getLast?_concat]

theorem binding_quoted?_eq_some_iff {cs w : List Char} :
    Binding.quoted? cs = some w ↔ cs = '"' :: (w ++ ['"']) := by
  unfold Binding.quoted?
  split
  next r =>
    rw [Option.ite_none_right_eq_some, List.getLast?_eq_some_iff]
    constructor
    · rintro ⟨⟨init, rfl⟩, hw⟩
      rw [List.dropLast_concat] at hw
      cases hw
      rfl
    · intro h
      obtain rfl := (List.cons.inj h).2
      exact ⟨⟨w, rfl⟩, congrArg some List.dropLast_concat⟩
  next h => exact ⟨fun hnone => (by cases hnone), fun hw => absurd hw (h _)⟩

theorem quoted?_eq (raw : String) :
    quoted? raw = .ok ((Binding.quoted? raw.toList).map String.ofList) := by
  unfold quoted?
  split
  next h =>
    obtain ⟨w, hw⟩ := inside_iff.mp h
    rw [(slice_inside hw rfl rfl).2, binding_quoted?_eq_some_iff.mpr hw]
    rfl
  next h =>
    cases hquoted : Binding.quoted? raw.toList with
    | none => rfl
    | some w => exact absurd (inside_iff.mpr ⟨w, binding_quoted?_eq_some_iff.mp hquoted⟩) h

theorem datum_eq (raw : String) : datum raw = .ok (Binding.datum raw) := by
  unfold datum Binding.datum
  split
  · rfl
  split
  · rfl
  rw [quoted?_eq]
  cases Binding.integer? raw.toList with
  | some n => rfl
  | none =>
    cases Binding.float? raw.toList with
    | some x => rfl
    | none =>
      cases Binding.quoted? raw.toList with
      | some t => rfl
      | none => rfl

/-- **The text of a binding can be taken out of its quotation marks.** -/
theorem ofArg_eq (arg : String) : ofArg arg = .ok (Binding.ofArg arg) := by
  unfold ofArg Binding.ofArg
  rcases arg.toList.span (· != '=') with ⟨name, _ | ⟨c, raw⟩⟩
  · rfl
  · simp only [datum_eq]
    rfl

end Checked

end Reckon
