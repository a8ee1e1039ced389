import Reckon.Token.Symbol

/-!
# Tokens

A token is a piece of the source with its kind and the place where it starts. Places are counted
in bytes of the UTF-8 encoding.
-/

namespace Reckon

/-- What a token is. Text that is no token of the language is an illegal token, and the end of the
source is a token of its own. -/
inductive TokenKind
  | symbol (s : Symbol)
  | identifier
  | integer
  | float
  | char
  | string
  | illegal
  | eof
deriving Repr, DecidableEq

namespace TokenKind

/-- The kind in messages: a symbol as it is written, any other kind in angle brackets. -/
def text : TokenKind → String
  | symbol s => s.text
  | identifier => "<IDENTIFIER>"
  | integer => "<INTEGER>"
  | float => "<FLOAT>"
  | char => "<CHAR>"
  | string => "<STRING>"
  | illegal => "<ILLEGAL>"
  | eof => "<EOF>"

/-- The kind's name in the log. -/
def name : TokenKind → String
  | symbol s => s.name
  | identifier => "Identifier"
  | integer => "Integer"
  | float => "Float"
  | char => "Char"
  | string => "String"
  | illegal => "Illegal"
  | eof => "Eof"

/-- All kinds. -/
def all : List TokenKind :=
  Symbol.all.map symbol ++ [identifier, integer, float, char, string, illegal, eof]

end TokenKind

/-- A token of a source. -/
structure Token where
  kind : TokenKind
  /-- The text of the token; empty at the end of the source. -/
  lexeme : String
  /-- The bytes before the token. -/
  offset : Nat
deriving Repr, DecidableEq

/-- The bytes that characters take in UTF-8. -/
def byteLength (cs : List Char) : Nat := cs.foldr (fun c n => c.utf8Size + n) 0

end Reckon
