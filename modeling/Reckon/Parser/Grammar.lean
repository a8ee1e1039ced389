import Reckon.Parser.Effects

/-!
# Parsing expressions

The rules of the grammar, by recursive descent:

* an expression is an operand followed by binary operators; operators of a smaller rank bind
  tighter, and those of one rank group to the left
* an operand may have operators in front of it, which bind tighter than all binary ones
* an operand is a literal, a name or an expression in parentheses, with at most one index or member
  behind it

Parsing stops at the first error. A token is only looked at once the one before it has been
accepted: an illegal token is reported as soon as it is ahead, and a literal is decoded once the
token behind it is known to be legal.

## Depth

Operators in front, parentheses and indices raise the depth while they last. A binary operator
raises it too, but the level is given back only when its whole row of operators has ended, because
every operator of a row puts the tree before it one level down.

## Termination

Each rule either goes past a token before it calls another one, or calls one of a lower level with
the tokens unchanged. So the pair of the number of tokens and the level falls.
-/

namespace Reckon

namespace Parser

/-- The operator in front of an operand that is ahead. -/
def unaryAhead? (p : Parser) : Option UnaryOp := UnaryOp.ofKind? p.peek.kind

/-- The operator between two operands that is ahead, if it binds tighter than `bound`. -/
def binaryAhead? (p : Parser) (bound : Nat) : Option BinaryOp :=
  (BinaryOp.ofKind? p.peek.kind).filter fun op => op.rank < bound

theorem tokens_pos_of_unary {p : Parser} {op : UnaryOp} (h : p.unaryAhead? = some op) :
    0 < p.tokens.length := by
  refine tokens_pos fun he => ?_
  simp [unaryAhead?, he, UnaryOp.ofKind?] at h

theorem tokens_pos_of_binary {p : Parser} {bound : Nat} {op : BinaryOp}
    (h : p.binaryAhead? bound = some op) : 0 < p.tokens.length := by
  refine tokens_pos fun he => ?_
  simp [binaryAhead?, he, BinaryOp.ofKind?] at h

theorem tokens_pos_of_kind {p : Parser} {k : TokenKind} (h : p.peek.kind = k) (hk : k ≠ .eof) :
    0 < p.tokens.length :=
  tokens_pos fun he => hk (h.symm.trans he)

theorem tokens_pos_of_isOperand {p : Parser} (h : p.peek.kind.isOperand = true) :
    0 < p.tokens.length :=
  tokens_pos fun he => by simp [he, TokenKind.isOperand] at h

end Parser

namespace Effects

variable {m : Type → Type} [Monad m] (fx : Effects m)

/-- A literal or a name, which is decoded once the token behind it is known to be legal. -/
def parseToken (p : Parser) : m (Step Expr (p.tokens.length - 1)) :=
  andThen (fx.bump p) fun token q hq => do
  match ← fx.decode token with
  | .error e => return .fail e q
  | .ok e => return .done e q hq

mutual

/-- An operand, then every operator that binds tighter than `bound`. The depth is what it was
before. -/
def parseBinary (bound : Nat) (p : Parser) : m (Step Expr p.tokens.length) :=
  andThen (parseUnary p) fun left q hq =>
  andThen (parseRow bound left q) fun e r hr =>
  pure (.done e { r with depth := p.depth } (Nat.le_trans hr hq))
termination_by (p.tokens.length, 3)
decreasing_by
  · exact Prod.Lex.right _ (by decide)
  · exact Prod.Lex.right' _ hq (by decide)

/-- The operators behind `left` that bind tighter than `bound`, each with its right operand. -/
def parseRow (bound : Nat) (left : Expr) (p : Parser) : m (Step Expr p.tokens.length) :=
  match h : p.binaryAhead? bound with
  | none => pure (.done left p (Nat.le_refl _))
  | some op =>
    have := Parser.tokens_pos_of_binary h
    andThen (pure p.enter) fun _ q _ =>
    andThen (fx.bump q) fun _ r _ =>
    andThen (parseBinary op.rank r) fun right s _ =>
    weaken (by omega) (parseRow bound (.binary left op right) s)
termination_by (p.tokens.length, 2)

/-- An operand with the operators in front of it. -/
def parseUnary (p : Parser) : m (Step Expr p.tokens.length) :=
  match h : p.unaryAhead? with
  | none => parseOperand p
  | some op =>
    have := Parser.tokens_pos_of_unary h
    andThen (pure p.enter) fun _ q _ =>
    andThen (fx.bump q) fun _ r _ =>
    andThen (parseUnary r) fun e s _ =>
    andThen (fx.leave s) fun _ t _ => pure (.done (.unary op e) t (by omega))
termination_by (p.tokens.length, 1)

/-- A literal, a name or parentheses, with at most one index or member behind it. -/
def parseOperand (p : Parser) : m (Step Expr p.tokens.length) :=
  if h : p.peek.kind = .symbol .leftParen then
    have := Parser.tokens_pos_of_kind h (by decide)
    andThen (pure p.enter) fun _ q _ =>
    andThen (fx.bump q) fun _ r _ =>
    andThen (parseBinary BinaryOp.loosest r) fun e s _ =>
    andThen (fx.expect s (.symbol .rightParen) (.closing .rightParen)) fun _ t _ =>
    andThen (fx.leave t) fun _ u _ => weaken (by omega) (parsePostfix (.paren e) u)
  else if h : p.peek.kind.isOperand then
    have := Parser.tokens_pos_of_isOperand h
    andThen (fx.parseToken p) fun e q _ => weaken (by omega) (parsePostfix e q)
  else pure (.fail (.expectedExpression p.peek.kind p.peek.offset) p)
termination_by (p.tokens.length, 0)

/-- An index or a member behind `base`, if there is one. -/
def parsePostfix (base : Expr) (p : Parser) : m (Step Expr p.tokens.length) :=
  if h : p.peek.kind = .symbol .leftBracket then
    have := Parser.tokens_pos_of_kind h (by decide)
    andThen (fx.bump p) fun _ q _ =>
    andThen (pure q.enter) fun _ r _ =>
    andThen (parseBinary BinaryOp.loosest r) fun i s _ =>
    andThen (fx.expect s (.symbol .rightBracket) (.closing .rightBracket)) fun _ t _ =>
    andThen (fx.leave t) fun _ u _ => pure (.done (.index base i) u (by omega))
  else if p.peek.kind = .symbol .dot then
    andThen (fx.bump p) fun _ q _ =>
    andThen (fx.expect q .identifier .identifier) fun name r _ =>
    pure (.done (.member base name.lexeme) r (by omega))
  else pure (.done base p (Nat.le_refl _))
termination_by (p.tokens.length, 0)

end

/-- One whole expression, up to the end of the source. -/
def parseAll (p : Parser) : m (Step Expr p.tokens.length) :=
  andThen (pure p.rejectIllegal) fun _ q hq =>
  andThen (fx.parseBinary BinaryOp.loosest q) fun e r hr =>
  pure <|
    if r.peek.kind = .eof then .done e r (Nat.le_trans hr hq)
    else .fail (.unexpectedToken .endOfInput r.peek.kind r.peek.offset) r

/-- Parses one whole expression and leaves the parser behind, after an error too. -/
def parse (p : Parser) : m (Except ParseError Expr × Parser) := Step.outcome <$> fx.parseAll p

end Effects

/-! ## Parsing without effects -/

namespace Parser

open Effects (silent)

/-- Goes past a certain token. -/
def expect (p : Parser) (kind : TokenKind) (expected : Expected) :
    Step Token (p.tokens.length - 1) :=
  silent.expect p kind expected

@[inherit_doc Effects.parseBinary]
def parseBinary (bound : Nat) (p : Parser) : Step Expr p.tokens.length :=
  silent.parseBinary bound p

@[inherit_doc Effects.parseRow]
def parseRow (bound : Nat) (left : Expr) (p : Parser) : Step Expr p.tokens.length :=
  silent.parseRow bound left p

@[inherit_doc Effects.parseUnary]
def parseUnary (p : Parser) : Step Expr p.tokens.length := silent.parseUnary p

@[inherit_doc Effects.parseOperand]
def parseOperand (p : Parser) : Step Expr p.tokens.length := silent.parseOperand p

@[inherit_doc Effects.parsePostfix]
def parsePostfix (base : Expr) (p : Parser) : Step Expr p.tokens.length :=
  silent.parsePostfix base p

@[inherit_doc Effects.parseAll]
def parseAll (p : Parser) : Step Expr p.tokens.length := silent.parseAll p

/-- Parses one whole expression and leaves the parser behind, after an error too. -/
def parse (p : Parser) : Except ParseError Expr × Parser := silent.parse p

end Parser

namespace Expr

/-- The expression that a source is, if its depth does not exceed the limit. -/
def parseWithin (limit : Nat) (source : String) : Except ParseError Expr :=
  (Parser.ofSource source limit).parse.1

/-- The expression that a source is. -/
def parse (source : String) : Except ParseError Expr := parseWithin Parser.defaultLimit source

end Expr

end Reckon
