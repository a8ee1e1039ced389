import Reckon.Token.Basic

/-!
# Lexemes

How one token is taken off the front of the input. The first character decides which of five
readers is used, and each of them takes as much as belongs to its token:

* digits, with a point and more digits for a float; a point without digits spoils the number
* a letter or an underscore, then letters, digits and underscores; ASCII only
* a string up to its closing quotation mark
* a character between two apostrophes
* a symbol

A string or a character that is spoiled — by an unknown escape or by the end of the input — is an
illegal token that ends where the fault was found, so reading goes on behind it.

## Termination

A lexeme is never empty (`Lexeme.read_length`), so what follows it is shorter than the input.
-/

namespace Reckon

/-- A token's text at the front of the input, with its kind and what follows it. -/
structure Lexeme where
  kind : TokenKind
  text : List Char
  rest : List Char
deriving Repr

namespace Lexeme

/-- The characters that separate tokens. -/
def isBlank (c : Char) : Bool :=
  c = ' ' || c = '\t' || c = '\n' || c = '\r' || c = '\x0B' || c = '\x0C' || c = '\x85' || c = '\xA0'

/-- The characters that may stand after a backslash. -/
def isEscape (c : Char) : Bool :=
  c = 'a' || c = 'b' || c = 'f' || c = 'n' || c = 'r' || c = 't' || c = 'v' || c = '\\' || c = '"'
    || c = '0'

/-- An identifier starts with a letter or an underscore. -/
def isNameStart (c : Char) : Bool := c.isAlpha || c = '_'

/-- An identifier goes on with letters, digits and underscores. -/
def isNamePart (c : Char) : Bool := c.isAlphanum || c = '_'

/-! ## The readers -/

/-- A number, from its first digit on. -/
def number (cs : List Char) : Lexeme :=
  let whole := cs.takeWhile Char.isDigit
  match cs.dropWhile Char.isDigit with
  | '.' :: r =>
    let fraction := r.takeWhile Char.isDigit
    if fraction.isEmpty then ⟨.illegal, whole ++ ['.'], r⟩
    else ⟨.float, whole ++ '.' :: fraction, r.dropWhile Char.isDigit⟩
  | r => ⟨.integer, whole, r⟩

/-- An identifier, from its first character on. -/
def identifier (cs : List Char) : Lexeme :=
  ⟨.identifier, cs.takeWhile isNamePart, cs.dropWhile isNamePart⟩

/-- One more character in front of a lexeme. -/
def push (c : Char) (l : Lexeme) : Lexeme := { l with text := c :: l.text }

/-- A string, from behind its opening quotation mark on. -/
def stringBody : List Char → Lexeme
  | [] => ⟨.illegal, [], []⟩
  | '"' :: r => ⟨.string, ['"'], r⟩
  | ['\\'] => ⟨.illegal, ['\\'], []⟩
  | '\\' :: c :: r =>
    if isEscape c then push '\\' (push c (stringBody r)) else ⟨.illegal, ['\\', c], r⟩
  | c :: r => push c (stringBody r)

/-- The closing apostrophe behind the characters `inner`. -/
def closeChar (inner : List Char) : List Char → Lexeme
  | '\'' :: r => ⟨.char, inner ++ ['\''], r⟩
  | r => ⟨.illegal, inner, r⟩

/-- A character, from behind its opening apostrophe on. -/
def charBody : List Char → Lexeme
  | [] => ⟨.illegal, [], []⟩
  | '\'' :: r => ⟨.illegal, ['\''], r⟩
  | ['\\'] => ⟨.illegal, ['\\'], []⟩
  | '\\' :: c :: r => if isEscape c then closeChar ['\\', c] r else ⟨.illegal, ['\\', c], r⟩
  | c :: r => closeChar [c] r

/-- A symbol of one character; anything else is illegal. -/
def oneChar (c : Char) (r : List Char) : Lexeme :=
  match Symbol.ofChar? c with
  | some s => ⟨.symbol s, [c], r⟩
  | none => ⟨.illegal, [c], r⟩

/-- A symbol, of two characters if possible. -/
def symbol (c : Char) : List Char → Lexeme
  | [] => oneChar c []
  | d :: r =>
    match Symbol.ofPair? c d with
    | some s => ⟨.symbol s, [c, d], r⟩
    | none => oneChar c (d :: r)

/-- The lexeme at the front of `c :: cs`, where `c` is not blank. -/
def read (c : Char) (cs : List Char) : Lexeme :=
  if c.isDigit then number (c :: cs)
  else if isNameStart c then identifier (c :: cs)
  else if c = '"' then push c (stringBody cs)
  else if c = '\'' then push c (charBody cs)
  else symbol c cs

/-! ## Nothing is lost -/

theorem number_append (cs : List Char) : (number cs).text ++ (number cs).rest = cs := by
  have hsplit := List.takeWhile_append_dropWhile (p := Char.isDigit) (l := cs)
  unfold number
  split
  next r hr =>
    rw [hr] at hsplit
    dsimp only
    split
    · simp [hsplit]
    · simp [List.takeWhile_append_dropWhile, hsplit]
  next => exact hsplit

theorem identifier_append (cs : List Char) : (identifier cs).text ++ (identifier cs).rest = cs := by
  simp [identifier, List.takeWhile_append_dropWhile]

theorem stringBody_append (cs : List Char) : (stringBody cs).text ++ (stringBody cs).rest = cs := by
  fun_induction stringBody cs <;> simp_all [push]

theorem closeChar_append (inner cs : List Char) :
    (closeChar inner cs).text ++ (closeChar inner cs).rest = inner ++ cs := by
  unfold closeChar
  split <;> simp

theorem charBody_append (cs : List Char) : (charBody cs).text ++ (charBody cs).rest = cs := by
  unfold charBody
  split
  · rfl
  · rfl
  · rfl
  · split
    · rw [closeChar_append]; rfl
    · rfl
  · rw [closeChar_append]; rfl

theorem oneChar_append (c : Char) (cs : List Char) :
    (oneChar c cs).text ++ (oneChar c cs).rest = c :: cs := by
  unfold oneChar
  split <;> rfl

theorem symbol_append (c : Char) (cs : List Char) :
    (symbol c cs).text ++ (symbol c cs).rest = c :: cs := by
  unfold symbol
  split
  · exact oneChar_append c []
  · split
    · rfl
    · exact oneChar_append c _

/-- **A lexeme and what follows it are the input.** -/
theorem read_append (c : Char) (cs : List Char) :
    (read c cs).text ++ (read c cs).rest = c :: cs := by
  unfold read
  split
  · exact number_append _
  · split
    · exact identifier_append _
    · split
      · exact congrArg (c :: ·) (stringBody_append cs)
      · split
        · exact congrArg (c :: ·) (charBody_append cs)
        · exact symbol_append c cs

/-! ## A lexeme is not empty -/

theorem number_text_ne_nil {c : Char} (h : c.isDigit) (cs : List Char) :
    (number (c :: cs)).text ≠ [] := by
  unfold number
  split
  · dsimp only
    split <;> simp
  · simp [h]

theorem isNamePart_of_isNameStart {c : Char} (h : isNameStart c) : isNamePart c := by
  simp only [isNameStart, isNamePart, Char.isAlphanum, Bool.or_eq_true] at h ⊢
  exact h.imp_left Or.inl

theorem identifier_text_ne_nil {c : Char} (h : isNameStart c) (cs : List Char) :
    (identifier (c :: cs)).text ≠ [] := by
  simp [identifier, isNamePart_of_isNameStart h]

theorem symbol_text_ne_nil (c : Char) (cs : List Char) : (symbol c cs).text ≠ [] := by
  have hone : ∀ r, (oneChar c r).text ≠ [] := by
    intro r
    unfold oneChar
    split <;> simp
  unfold symbol
  split
  · exact hone _
  · split
    · simp
    · exact hone _

theorem read_text_ne_nil (c : Char) (cs : List Char) : (read c cs).text ≠ [] := by
  unfold read
  split
  next h => exact number_text_ne_nil h cs
  next =>
    split
    next h => exact identifier_text_ne_nil h cs
    next =>
      split
      · simp [push]
      · split
        · simp [push]
        · exact symbol_text_ne_nil c cs

/-- What follows a lexeme is shorter than the input. -/
theorem read_length (c : Char) (cs : List Char) : (read c cs).rest.length < (c :: cs).length := by
  rw [← read_append c cs, List.length_append]
  have := List.length_pos_iff.mpr (read_text_ne_nil c cs)
  omega

end Lexeme

end Reckon
