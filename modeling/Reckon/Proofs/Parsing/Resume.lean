import Reckon.Proofs.Lexical.Places
import Reckon.Proofs.Parsing.Relocated

/-!
# Parsing again

A parser may be used once more after it has given an answer. It goes on at the token that is ahead
of it then, at the depth that it was left with, which after an error need not be zero.

What it does there is no more than what a new parser does that is given the text from this token
on and the levels that remain (`parse_resumed`). The two differ in places, depths and the limit
only (`Parser.moved`), and the parser looks at none of them but at how far the depth is from the
limit: to be moved is to be relocated by a number of bytes (`parse_moved`).
-/

namespace Reckon

/-- The error with every place `o` bytes further on, for a parser with the limit `limit`. -/
def ParseError.moved (o limit : Nat) : ParseError → ParseError
  | lex e => lex { e with offset := e.offset + o }
  | unexpectedToken expected found offset => unexpectedToken expected found (offset + o)
  | expectedExpression found offset => expectedExpression found (offset + o)
  | invalidLiteral kind lexeme => invalidLiteral kind lexeme
  | tooDeep _ => tooDeep limit

theorem ParseError.withLimit_relocated (o limit : Nat) (e : ParseError) :
    (e.relocated (· + o)).withLimit limit = e.moved o limit := by
  cases e <;> rfl

namespace Parser

/-- The parser with every place `o` bytes further on and `depth` levels deeper, with the limit
`limit`. -/
def moved (o depth limit : Nat) (p : Parser) : Parser :=
  ⟨p.tokens.map (Token.shift o), p.stop + o, p.depth + depth, limit⟩

/-- The parser after `n` answers. -/
def after : Nat → Parser → Parser
  | 0, p => p
  | n + 1, p => p.parse.2.after n

/-- How far the source has been read: up to the end of the token ahead. -/
def position (p : Parser) : Nat := p.peek.offset + p.peek.lexeme.utf8ByteSize

/-! ## Going on after an answer -/

/-- The parser goes on in its source, and never comes up. -/
theorem parse_onward (p : Parser) : Onward p p.parse.2 ∧ p.depth ≤ p.parse.2.depth := by
  rcases hparse : p.parse with ⟨answer, q⟩
  cases answer with
  | ok e =>
    obtain ⟨-, hrun, -⟩ := parse_eq_ok_state_iff.mp hparse
    exact ⟨hrun.onward, Nat.le_of_eq hrun.levels.symm⟩
  | error e =>
    obtain ⟨c, -, hrejects⟩ := parse_eq_error_iff.mp hparse
    -- beside itself, the run shows that the depth has risen
    obtain ⟨q', hrejects', -, k, hdepth, -⟩ :=
      hrejects.transfer (fun _ => Nat.le_refl _) (Nat.zero_le _) ⟨Nat.zero_le _, rfl, rfl⟩
        (Nat.le_refl _)
    exact ⟨hrejects.onward, Nat.le.intro hdepth.symm⟩

theorem after_onward (n : Nat) (p : Parser) : Onward p (p.after n) := by
  induction n generalizing p with
  | zero => exact .refl p
  | succ n ih => exact p.parse_onward.1.trans (ih p.parse.2)

/-! ## The same parser elsewhere -/

section

variable {o d m : Nat} {p q : Parser}

theorem eq_moved (ht : q.tokens = p.tokens.map (Token.shift o)) (hs : q.stop = p.stop + o)
    (hd : q.depth = p.depth + d) (hl : q.limit = m) : q = p.moved o d m := by
  rw [moved, ← ht, ← hs, ← hd, ← hl]

theorem peek_moved (o d m : Nat) (p : Parser) : (p.moved o d m).peek = p.peek.shift o :=
  p.peek_relocated (· + o) d m

theorem position_moved (o d m : Nat) (p : Parser) : (p.moved o d m).position = p.position + o := by
  rw [position, peek_moved]
  exact Nat.add_right_comm p.peek.offset o _

/--
**The parser does the same wherever it stands, if as many levels are left.**
-/
theorem parse_moved (h : p.limit = m - d) :
    (p.moved o d m).parse =
      (p.parse.1.mapError (ParseError.moved o m), p.parse.2.moved o d m) := by
  have hroom : p.limit - p.depth = m - (p.depth + d) := by omega
  have herror : (fun e => (ParseError.relocated (· + o) e).withLimit m) = ParseError.moved o m :=
    funext fun e => e.withLimit_relocated o m
  have hparse := parse_relocated (· + o) hroom
  rwa [herror] at hparse

end

/-! ## What is left of a source -/

/-- Wherever a parser has come to in a source, it is a parser at the start of the text that is
left, moved to its place and depth. -/
theorem eq_moved_of_onward {source : String} {limit : Nat} {p : Parser}
    (h : Onward (ofSource source limit) p) (k : Nat) :
    String.Pos.Raw.IsValid source ⟨p.peek.offset⟩ ∧
      p = (ofSource (Token.textFrom source p.peek.offset) k).moved p.peek.offset p.depth limit := by
  have hahead : p.peek = p.tokens.headD (Scanner.eofAt (Scanner.ofSource source).stop) := by
    rw [← show p.stop = (Scanner.ofSource source).stop from h.stop]
    unfold peek
    cases p.tokens with
    | nil => rfl
    | cons t ts => rfl
  obtain ⟨hvalid, htokens, hstop⟩ := Token.exists_textFrom h.suffix
  rw [← hahead] at hvalid htokens hstop
  exact ⟨hvalid, eq_moved htokens (h.stop.trans hstop) (Nat.zero_add _).symm h.limit⟩

/--
**Parsing again is parsing the text that is left with the levels that are left.**

After any number of answers, let a new parser have the text from the token ahead on, and as many
levels as the limit leaves above the depth. The next answer is that of the new parser: the same
expression, or the same error with its place counted from the start of the source and the limit of
the first parser. The token ahead, the place and the depth are those of the new parser then, moved
in the same way. An expression leaves the depth as it was, and an error never lowers it.
-/
theorem parse_resumed (source : String) (limit n : Nat) :
    let p : Parser := (ofSource source limit).after n
    let o : Nat := p.peek.offset
    let fresh : Parser := ofSource (Token.textFrom source o) (limit - p.depth)
    String.Pos.Raw.IsValid source ⟨o⟩ ∧
      p.parse.1 = fresh.parse.1.mapError (ParseError.moved o limit) ∧
      p.parse.2 = fresh.parse.2.moved o p.depth limit ∧
      p.parse.2.peek = fresh.parse.2.peek.shift o ∧
      p.parse.2.position = fresh.parse.2.position + o ∧
      p.parse.2.depth = p.depth + fresh.parse.2.depth ∧
      (∀ t, p.parse.1 = .ok t → p.parse.2.depth = p.depth) ∧ p.depth ≤ p.parse.2.depth := by
  intro p o fresh
  obtain ⟨hvalid, hp⟩ := eq_moved_of_onward (after_onward n (ofSource source limit))
    (limit - p.depth)
  have hparse : p.parse = (fresh.parse.1.mapError (ParseError.moved o limit),
      fresh.parse.2.moved o p.depth limit) :=
    (congrArg parse hp).trans (parse_moved rfl)
  have hstate := congrArg Prod.snd hparse
  refine ⟨hvalid, congrArg Prod.fst hparse, hstate, ?_, ?_, ?_, fun t ht => ?_,
    p.parse_onward.2⟩
  · rw [hstate, peek_moved]
  · rw [hstate, position_moved]
  · rw [hstate]
    exact Nat.add_comm _ _
  · obtain ⟨-, hrun, -⟩ := parse_eq_ok_state_iff.mp (Prod.ext ht rfl : p.parse = (.ok t, p.parse.2))
    exact hrun.levels

end Parser

end Reckon
