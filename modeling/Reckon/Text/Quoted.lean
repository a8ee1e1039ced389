import Reckon.Text.Hidden

/-!
# Quoted texts

How a message quotes a piece of text: between two quotation marks, with the mark, the backslash
and four control characters escaped by a letter, and every other hidden character by its number in
braces.
-/

namespace Reckon.Text

/-- A character as it stands between two marks `mark`. -/
def escape (mark c : Char) : List Char :=
  if c = mark then ['\\', c]
  else match c with
    | '\\' => ['\\', '\\']
    | '\n' => ['\\', 'n']
    | '\r' => ['\\', 'r']
    | '\t' => ['\\', 't']
    | '\x00' => ['\\', '0']
    | c => if isHidden c then ['\\', 'u', '{'] ++ Nat.toDigits 16 c.toNat ++ ['}'] else [c]

/-- The characters between two marks `mark`, escaped. -/
def quoteWith (mark : Char) (cs : List Char) : String :=
  String.ofList (mark :: cs.flatMap (escape mark) ++ [mark])

/-- A text in double quotation marks. A single one inside it stays as it is. -/
def quote (s : String) : String := quoteWith '"' s.toList

/-- A character in single quotation marks. A double one stays as it is. -/
def quoteChar (c : Char) : String := quoteWith '\'' [c]

end Reckon.Text
