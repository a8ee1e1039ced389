import Reckon.Text.Quoted
import Reckon.Token.Basic
import Reckon.Value

/-!
# Errors of parsing

Why a text is no expression, and how that is said.
-/

namespace Reckon

/-- Text that is no token. -/
structure LexError where
  offset : Nat
  lexeme : String
deriving Repr, DecidableEq

def LexError.message (e : LexError) : String :=
  "illegal token " ++ Text.quote e.lexeme ++ " at offset " ++ toString e.offset

/-- What had to come next where one thing only could. -/
inductive Expected
  | endOfInput
  | identifier
  | closing (s : Symbol)
deriving Repr, DecidableEq

def Expected.text : Expected → String
  | endOfInput => "end of input"
  | identifier => "an identifier"
  | closing s => "'" ++ s.text ++ "'"

/-- Why parsing failed. -/
inductive ParseError
  /-- The next token is illegal. -/
  | lex (e : LexError)
  /-- One certain token had to come next. -/
  | unexpectedToken (expected : Expected) (found : TokenKind) (offset : Nat)
  /-- An expression had to start here. -/
  | expectedExpression (found : TokenKind) (offset : Nat)
  /-- The text of a literal denotes no value. -/
  | invalidLiteral (kind : Kind) (lexeme : String)
  /-- The nesting exceeds the limit. -/
  | tooDeep (limit : Nat)
deriving Repr, DecidableEq

def ParseError.message : ParseError → String
  | lex e => "lex error: " ++ e.message
  | unexpectedToken expected found offset =>
    "expected " ++ expected.text ++ ", found " ++ found.text ++ " at offset " ++ toString offset
  | expectedExpression found offset =>
    "expected an expression, found " ++ found.text ++ " at offset " ++ toString offset
  | invalidLiteral kind lexeme => "invalid " ++ kind.text ++ " literal " ++ Text.quote lexeme
  | tooDeep limit =>
    "expression too complex: nesting exceeds " ++ toString limit ++ " levels"

end Reckon
