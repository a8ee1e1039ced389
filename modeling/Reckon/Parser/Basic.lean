import Reckon.Parser.Error
import Reckon.Token.Scanner

/-!
# The state of a parser

A parser sees one token ahead. Besides the tokens it has a depth, which counts the operators,
parentheses and indices it is inside of, and a limit that the depth must not exceed.

A rule of the grammar ends in a `Step`: an error or a result. Both leave a state behind, so that
parsing can be taken up again after an error. A result also comes with a bound on the tokens that
are left, which is handed to the rule that takes over. That is all that the recursion of the grammar
needs to end.
-/

namespace Reckon

/-- A parser between two tokens.

The depth and the limit are natural numbers here and words of 64 bits in the program. A failure may
leave the depth raised, so that it grows from one failed call to the next; it is taken not to reach
the largest word. -/
structure Parser where
  /-- The tokens that are left, the one ahead first, without the end of the source. -/
  tokens : List Token
  /-- The place of the end of the source. -/
  stop : Nat
  /-- How many operators, parentheses and indices the parser is inside of. -/
  depth : Nat
  /-- What the depth must not exceed. -/
  limit : Nat
deriving Repr

/-- How a rule ends; after a result there are at most `n` tokens left. -/
inductive Step (α : Type) (n : Nat)
  | fail (e : ParseError) (p : Parser)
  | done (a : α) (p : Parser) (le : p.tokens.length ≤ n)

namespace Step

variable {α : Type} {n m : Nat}

/-- A larger bound holds as well. -/
def weaken (h : n ≤ m) : Step α n → Step α m
  | fail e p => fail e p
  | done a p le => done a p (Nat.le_trans le h)

/-- What a rule hands out: an error or a result, and the state. -/
def outcome : Step α n → Except ParseError α × Parser
  | fail e p => (.error e, p)
  | done a p _ => (.ok a, p)

end Step

namespace Parser

/-- The default limit of the depth. -/
def defaultLimit : Nat := 256

/-- A parser at the start of a source. -/
def ofSource (source : String) (limit : Nat) : Parser :=
  ⟨Token.tokens source, (Scanner.ofSource source).stop, 0, limit⟩

/-- The token ahead. -/
def peek (p : Parser) : Token :=
  match p.tokens with
  | [] => Scanner.eofAt p.stop
  | t :: _ => t

/-- Unless the end of the source is ahead, tokens are left. -/
theorem tokens_pos {p : Parser} (h : p.peek.kind ≠ .eof) : 0 < p.tokens.length := by
  unfold peek at h
  split at h
  · exact absurd rfl h
  next heq => rw [heq]; exact Nat.succ_pos _

/-! ## Steps of one token -/

/-- The state behind the token ahead. -/
def advance (p : Parser) : Parser := { p with tokens := p.tokens.tail }

/-- An illegal token ahead is an error. -/
def rejectIllegal (p : Parser) : Step Unit p.tokens.length :=
  if p.peek.kind = .illegal then .fail (.lex ⟨p.peek.offset, p.peek.lexeme⟩) p
  else .done () p (Nat.le_refl _)

/-- Goes past the token ahead and hands it out. The new token ahead must not be illegal. -/
def bump (p : Parser) : Step Token (p.tokens.length - 1) :=
  match p.advance.rejectIllegal with
  | .fail e q => .fail e q
  | .done _ q le => .done p.peek q (by simpa [advance] using le)

/-! ## Depth -/

/-- One level deeper. The depth stays raised if it exceeds the limit now. -/
def enter (p : Parser) : Step Unit p.tokens.length :=
  let q := { p with depth := p.depth + 1 }
  if q.limit < q.depth then .fail (.tooDeep q.limit) q else .done () q (Nat.le_refl _)

/-- One level up. -/
def leave (p : Parser) : Parser := { p with depth := p.depth - 1 }

end Parser

end Reckon
