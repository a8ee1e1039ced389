/-!
# Symbols

The operators, brackets and separators of the language. Every symbol is written with one or two
characters. Reading tries two characters first, so `<=` is never read as `<` and `=`; a single `=`
is no symbol, because there is no assignment.
-/

namespace Reckon

/-- A token with a fixed text. -/
inductive Symbol
  | leftParen | rightParen | leftBracket | rightBracket | comma | dot
  | minus | plus | slash | star | percent | caret | tilde
  | bang | bangEqual | equalEqual
  | greater | greaterEqual | greaterGreater | less | lessEqual | lessLess
  | amp | ampAmp | pipe | pipePipe
deriving Repr, DecidableEq

namespace Symbol

/-- The symbol as it is written. -/
def text : Symbol → String
  | leftParen => "("
  | rightParen => ")"
  | leftBracket => "["
  | rightBracket => "]"
  | comma => ","
  | dot => "."
  | minus => "-"
  | plus => "+"
  | slash => "/"
  | star => "*"
  | percent => "%"
  | caret => "^"
  | tilde => "~"
  | bang => "!"
  | bangEqual => "!="
  | equalEqual => "=="
  | greater => ">"
  | greaterEqual => ">="
  | greaterGreater => ">>"
  | less => "<"
  | lessEqual => "<="
  | lessLess => "<<"
  | amp => "&"
  | ampAmp => "&&"
  | pipe => "|"
  | pipePipe => "||"

/-- The symbol's name in the log. -/
def name : Symbol → String
  | leftParen => "LeftParen"
  | rightParen => "RightParen"
  | leftBracket => "LeftBracket"
  | rightBracket => "RightBracket"
  | comma => "Comma"
  | dot => "Dot"
  | minus => "Minus"
  | plus => "Plus"
  | slash => "Slash"
  | star => "Star"
  | percent => "Percent"
  | caret => "Caret"
  | tilde => "Tilde"
  | bang => "Bang"
  | bangEqual => "BangEqual"
  | equalEqual => "EqualEqual"
  | greater => "Greater"
  | greaterEqual => "GreaterEqual"
  | greaterGreater => "GreaterGreater"
  | less => "Less"
  | lessEqual => "LessEqual"
  | lessLess => "LessLess"
  | amp => "Amp"
  | ampAmp => "AmpAmp"
  | pipe => "Pipe"
  | pipePipe => "PipePipe"

/-- All symbols. -/
def all : List Symbol :=
  [leftParen, rightParen, leftBracket, rightBracket, comma, dot, minus, plus, slash, star, percent,
   caret, tilde, bang, bangEqual, equalEqual, greater, greaterEqual, greaterGreater, less,
   lessEqual, lessLess, amp, ampAmp, pipe, pipePipe]

/-- The symbol written with two characters. -/
def ofPair? : Char → Char → Option Symbol
  | '!', '=' => some bangEqual
  | '=', '=' => some equalEqual
  | '>', '=' => some greaterEqual
  | '>', '>' => some greaterGreater
  | '<', '=' => some lessEqual
  | '<', '<' => some lessLess
  | '&', '&' => some ampAmp
  | '|', '|' => some pipePipe
  | _, _ => none

/-- The symbol written with one character. -/
def ofChar? : Char → Option Symbol
  | '(' => some leftParen
  | ')' => some rightParen
  | '[' => some leftBracket
  | ']' => some rightBracket
  | ',' => some comma
  | '.' => some dot
  | '-' => some minus
  | '+' => some plus
  | '/' => some slash
  | '*' => some star
  | '%' => some percent
  | '^' => some caret
  | '~' => some tilde
  | '!' => some bang
  | '>' => some greater
  | '<' => some less
  | '&' => some amp
  | '|' => some pipe
  | _ => none

end Symbol

end Reckon
