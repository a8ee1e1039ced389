import Reckon.Decimal.Basic
import Reckon.Integer
import Reckon.Token.Basic
import Reckon.Value

/-!
# Literals

A literal keeps its text and the value that the text denotes, so an evaluation never looks at the
text again. An integer must fit into 64 bits with a sign, and a float must round to a finite
number; every other text that the scanner takes for a literal denotes a value.
-/

namespace Reckon

/-- A literal of an expression. -/
structure Literal where
  kind : Kind
  /-- The text in the source. -/
  raw : String
  value : Value
deriving BEq

/-- The kind of literal that a token is, if it is one. The words `true` and `false` are. -/
def Kind.ofToken? (kind : TokenKind) (lexeme : String) : Option Kind :=
  match kind with
  | .integer => some .integer
  | .float => some .float
  | .char => some .char
  | .string => some .string
  | .identifier => if lexeme = "true" ∨ lexeme = "false" then some .bool else none
  | _ => none

namespace Literal

/-- The character that an escape stands for, by the character behind the backslash. -/
def unescapeChar? : Char → Option Char
  | 'a' => some '\x07'
  | 'b' => some '\x08'
  | 'f' => some '\x0C'
  | 'n' => some '\n'
  | 'r' => some '\r'
  | 't' => some '\t'
  | 'v' => some '\x0B'
  | '\\' => some '\\'
  | '"' => some '"'
  | '0' => some '\x00'
  | _ => none

/-- The characters that a quoted text stands for. -/
def unescape? : List Char → Option (List Char)
  | [] => some []
  | ['\\'] => none
  | '\\' :: c :: r =>
    match unescapeChar? c, unescape? r with
    | some d, some t => some (d :: t)
    | _, _ => none
  | c :: r => (unescape? r).map (c :: ·)

/-- What stands between the first and the last character. -/
def inner (cs : List Char) : List Char := (cs.drop 1).dropLast

/-- The value that digits denote, if it is not too large. -/
def integer? (cs : List Char) : Option Value :=
  if Decimal.isDigits cs then (int64? (Decimal.ofDigits cs)).map .integer else none

/-- The number nearest to a decimal, if it is finite. -/
def float? (cs : List Char) : Option Value :=
  match Decimal.ofText? cs with
  | none => none
  | some d =>
    let p := d.nearest .single
    if p < BinaryFormat.single.infinity then some (.float (Single.ofPattern false p)) else none

/-- The character between two apostrophes. -/
def char? (cs : List Char) : Option Value :=
  match unescape? (inner cs) with
  | some [c] => some (.char c)
  | _ => none

/-- The string between two quotation marks. -/
def string? (cs : List Char) : Option Value :=
  (unescape? (inner cs)).map fun t => .string (String.ofList t)

/-- One of the two truth values. -/
def bool? (lexeme : String) : Option Value :=
  if lexeme = "true" then some (.bool true)
  else if lexeme = "false" then some (.bool false)
  else none

/-- The value that a text of this kind denotes. -/
def decode? (kind : Kind) (lexeme : String) : Option Value :=
  match kind with
  | .integer => integer? lexeme.toList
  | .float => float? lexeme.toList
  | .char => char? lexeme.toList
  | .string => string? lexeme.toList
  | .bool => bool? lexeme

end Literal

end Reckon
