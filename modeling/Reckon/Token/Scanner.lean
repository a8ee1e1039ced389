import Reckon.Token.Lexeme

/-!
# Scanning

A scanner is a place in a source. It hands out one token after the other: on demand, for ever
(`scan`), or as an iteration that ends once it has handed out the end of the source (`next`). The
two share the place and may be mixed; only `next` knows that an iteration has ended.

`Scanner.tokens` is the whole stream that is left, without its end; `Scanner.stop` is the place of
that end.
-/

namespace Reckon

/-- A place in a source. -/
structure Scanner where
  /-- The characters that are still unread. -/
  rest : List Char
  /-- The bytes that have been read. -/
  offset : Nat
  /-- The iteration has handed out the end of the source. -/
  finished : Bool
deriving Repr

namespace Scanner

/-- The start of a source. -/
def ofSource (source : String) : Scanner := ⟨source.toList, 0, false⟩

/-- The token for the end of a source of `n` bytes. -/
def eofAt (n : Nat) : Token := ⟨.eof, "", n⟩

/-- The scanner behind the blanks in front of it. -/
def skipBlanks (s : Scanner) : Scanner :=
  { s with
    rest := s.rest.dropWhile Lexeme.isBlank
    offset := s.offset + byteLength (s.rest.takeWhile Lexeme.isBlank) }

/-- The next token, and the scanner behind it. At the end of the source this is the end, every
time. -/
def scan (s : Scanner) : Token × Scanner :=
  let s := s.skipBlanks
  match s.rest with
  | [] => (eofAt s.offset, s)
  | c :: cs =>
    let l := Lexeme.read c cs
    (⟨l.kind, String.ofList l.text, s.offset⟩,
      { s with rest := l.rest, offset := s.offset + byteLength l.text })

/-- The next token of an iteration. The end of the source is handed out once. -/
def next (s : Scanner) : Option Token × Scanner :=
  if s.finished then (none, s)
  else
    let (t, s) := s.scan
    (some t, { s with finished := t.kind = .eof })

/-- A blank is no longer than the input. -/
theorem skipBlanks_length (s : Scanner) : s.skipBlanks.rest.length ≤ s.rest.length :=
  (List.dropWhile_suffix Lexeme.isBlank).length_le

/-- The tokens that are left, without the end of the source. -/
def tokens (s : Scanner) : List Token :=
  match _hs : s.skipBlanks.rest with
  | [] => []
  | _ :: _ => s.scan.1 :: tokens s.scan.2
termination_by s.rest.length
decreasing_by
  have hle := s.skipBlanks_length
  rw [_hs] at hle
  simp only [scan, _hs]
  exact Nat.lt_of_lt_of_le (Lexeme.read_length _ _) hle

/-- The place of the end of the source. -/
def stop (s : Scanner) : Nat := s.offset + byteLength s.rest

end Scanner

namespace Token

/-- All tokens of a source, without its end. -/
def tokens (source : String) : List Token := (Scanner.ofSource source).tokens

/-- All tokens of a source, with its end. -/
def scanAll (source : String) : List Token :=
  tokens source ++ [Scanner.eofAt (Scanner.ofSource source).stop]

end Token

end Reckon
