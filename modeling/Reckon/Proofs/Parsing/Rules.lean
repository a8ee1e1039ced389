import Reckon.Parser.Grammar

/-!
# The rules of the parser, case by case

The five functions of the parser are one function of a `Rule`, that is of the function that is meant
and of what it is given: `fx.run rule p` is what the rule does with the effects `fx`, and
`rule.step p` what it does without effects.

There is one equation for each way in which a rule goes on, and one induction along their recursion
(`Rule.induction`), with cases of the same names. Nothing else opens the functions of the parser.
-/

namespace Reckon

namespace Parser

/-- The state one level deeper. -/
def deeper (p : Parser) : Parser := { p with depth := p.depth + 1 }

/-- A rule of the grammar, with what it is given. -/
inductive Rule
  /-- An operand and the operators behind it that bind tighter than `bound`. -/
  | binary (bound : Nat)
  /-- The operators behind `left` that bind tighter than `bound`. -/
  | row (bound : Nat) (left : Expr)
  /-- An operand with the operators in front of it. -/
  | unary
  /-- A literal, a name or parentheses, and what stands behind. -/
  | operand
  /-- An index or a member behind `base`, or nothing. -/
  | behind (base : Expr)

theorem ne_leftParen_of_isOperand {k : TokenKind} (h : k.isOperand = true) :
    k ≠ .symbol .leftParen := by
  rintro rfl
  exact Bool.noConfusion h

end Parser

/-! ## Equations -/

/-- A bound holds in front of a token that is passed, too. -/
theorem le_of_passed {a b c : Nat} (h : a ≤ b - 1) (h' : b ≤ c) : a ≤ c := by
  omega

namespace Effects

open Reckon.Parser (Rule)

variable {m : Type → Type} [Monad m] (fx : Effects m)

/-- What the rule does. -/
def run : Rule → (p : Parser) → m (Step Expr p.tokens.length)
  | .binary bound, p => fx.parseBinary bound p
  | .row bound left, p => fx.parseRow bound left p
  | .unary, p => fx.parseUnary p
  | .operand, p => fx.parseOperand p
  | .behind base, p => fx.parsePostfix base p

variable {bound : Nat} {l base : Expr} {p : Parser}

theorem run_binary (bound : Nat) (p : Parser) :
    fx.run (.binary bound) p =
      andThen (fx.run .unary p) fun l q hq =>
      andThen (fx.run (.row bound l) q) fun e r hr =>
      pure (.done e { r with depth := p.depth } (Nat.le_trans hr hq)) := by
  rw [run, parseBinary]
  rfl

theorem run_rowEnd (h : p.binaryAhead? bound = none) :
    fx.run (.row bound l) p = pure (.done l p (Nat.le_refl _)) := by
  rw [run, parseRow]
  split
  · rfl
  next op hop => cases h.symm.trans hop

theorem run_rowFold {op : BinaryOp} (h : p.binaryAhead? bound = some op) :
    fx.run (.row bound l) p =
      andThen (pure p.enter) fun _ q hq =>
      andThen (fx.bump q) fun _ r hr =>
      andThen (fx.run (.binary op.rank) r) fun right s hs =>
      weaken (Nat.le_trans hs (le_of_passed hr hq))
        (fx.run (.row bound (.binary l op right)) s) := by
  rw [run, parseRow]
  split
  next hnone => cases hnone.symm.trans h
  next op' hop =>
    cases h.symm.trans hop
    rfl

theorem run_plain (h : p.unaryAhead? = none) : fx.run .unary p = fx.run .operand p := by
  rw [run, parseUnary]
  split
  · rfl
  next op hop => cases h.symm.trans hop

theorem run_unary {op : UnaryOp} (h : p.unaryAhead? = some op) :
    fx.run .unary p =
      andThen (pure p.enter) fun _ q hq =>
      andThen (fx.bump q) fun _ r hr =>
      andThen (fx.run .unary r) fun e s hs =>
      andThen (fx.leave s) fun _ t ht =>
      pure (.done (.unary op e) t (Nat.le_trans ht (Nat.le_trans hs (le_of_passed hr hq)))) := by
  rw [run, parseUnary]
  split
  next hnone => cases hnone.symm.trans h
  next op' hop =>
    cases h.symm.trans hop
    rfl

theorem run_paren (h : p.peek.kind = .symbol .leftParen) :
    fx.run .operand p =
      andThen (pure p.enter) fun _ q hq =>
      andThen (fx.bump q) fun _ r hr =>
      andThen (fx.run (.binary BinaryOp.loosest) r) fun e s hs =>
      andThen (fx.expect s (.symbol .rightParen) (.closing .rightParen)) fun _ t ht =>
      andThen (fx.leave t) fun _ u hu =>
      weaken (Nat.le_trans hu (le_of_passed ht (Nat.le_trans hs (le_of_passed hr hq))))
        (fx.run (.behind (.paren e)) u) := by
  rw [run, parseOperand, dif_pos h]
  rfl

theorem run_token (h : p.peek.kind.isOperand = true) :
    fx.run .operand p =
      andThen (fx.parseToken p) fun e q hq =>
      weaken (le_of_passed hq (Nat.le_refl _)) (fx.run (.behind e) q) := by
  rw [run, parseOperand, dif_neg (Parser.ne_leftParen_of_isOperand h), dif_pos h]
  rfl

theorem run_noOperand (hk : p.peek.kind ≠ .symbol .leftParen) (h : p.peek.kind.isOperand = false) :
    fx.run .operand p = pure (.fail (.expectedExpression p.peek.kind p.peek.offset) p) := by
  rw [run, parseOperand, dif_neg hk, dif_neg (by simp [h])]

theorem run_index (h : p.peek.kind = .symbol .leftBracket) :
    fx.run (.behind base) p =
      andThen (fx.bump p) fun _ q hq =>
      andThen (pure q.enter) fun _ r hr =>
      andThen (fx.run (.binary BinaryOp.loosest) r) fun i s hs =>
      andThen (fx.expect s (.symbol .rightBracket) (.closing .rightBracket)) fun _ t ht =>
      andThen (fx.leave t) fun _ u hu =>
      pure (.done (.index base i) u (Nat.le_trans hu (le_of_passed ht
        (Nat.le_trans hs (Nat.le_trans hr (le_of_passed hq (Nat.le_refl _))))))) := by
  rw [run, parsePostfix, dif_pos h]
  rfl

theorem run_member (h : p.peek.kind = .symbol .dot) :
    fx.run (.behind base) p =
      andThen (fx.bump p) fun _ q hq =>
      andThen (fx.expect q .identifier .identifier) fun name r hr =>
      pure (.done (.member base name.lexeme) r
        (le_of_passed hr (le_of_passed hq (Nat.le_refl _)))) := by
  rw [run, parsePostfix, dif_neg (by rw [h]; decide), if_pos h]

theorem run_bare (hb : p.peek.kind ≠ .symbol .leftBracket) (hd : p.peek.kind ≠ .symbol .dot) :
    fx.run (.behind base) p = pure (.done base p (Nat.le_refl _)) := by
  rw [run, parsePostfix, dif_neg hb, if_neg hd]

end Effects

namespace Parser

/-- The rule as the parser computes it. -/
def Rule.step (rule : Rule) (p : Parser) : Step Expr p.tokens.length := Effects.silent.run rule p

theorem parseAll_eq (p : Parser) :
    p.parseAll =
      Effects.andThen (m := Id) p.rejectIllegal fun _ q hq =>
      Effects.andThen (m := Id) ((Rule.binary BinaryOp.loosest).step q) fun e r hr =>
      if r.peek.kind = .eof then .done e r (Nat.le_trans hr hq)
      else .fail (.unexpectedToken .endOfInput r.peek.kind r.peek.offset) r := rfl

theorem parse_eq (p : Parser) : p.parse = p.parseAll.outcome := rfl

/-! ## Induction -/

/-- Induction along the recursion of the parser. A rule that opens a level and passes the token
ahead goes on in the state `p.deeper.advance`. -/
@[elab_as_elim]
theorem Rule.induction {motive : Rule → Parser → Prop}
    (binary : ∀ bound p, motive .unary p →
      (∀ l (q : Parser), q.tokens.length ≤ p.tokens.length → motive (.row bound l) q) →
      motive (.binary bound) p)
    (rowEnd : ∀ bound l p, p.binaryAhead? bound = none → motive (.row bound l) p)
    (rowFold : ∀ bound l p op, p.binaryAhead? bound = some op →
      motive (.binary op.rank) p.deeper.advance →
      (∀ r (q : Parser), q.tokens.length ≤ p.deeper.advance.tokens.length →
        motive (.row bound (.binary l op r)) q) →
      motive (.row bound l) p)
    (plain : ∀ p, p.unaryAhead? = none → motive .operand p → motive .unary p)
    (unary : ∀ p op, p.unaryAhead? = some op → motive .unary p.deeper.advance → motive .unary p)
    (paren : ∀ p, p.peek.kind = .symbol .leftParen →
      motive (.binary BinaryOp.loosest) p.deeper.advance →
      (∀ e (q : Parser), q.tokens.length ≤ p.deeper.advance.tokens.length →
        motive (.behind (.paren e)) q.advance.leave) →
      motive .operand p)
    (token : ∀ p, p.peek.kind.isOperand = true → (∀ e, motive (.behind e) p.advance) →
      motive .operand p)
    (noOperand : ∀ p, p.peek.kind ≠ .symbol .leftParen → p.peek.kind.isOperand = false →
      motive .operand p)
    (index : ∀ base p, p.peek.kind = .symbol .leftBracket →
      motive (.binary BinaryOp.loosest) p.deeper.advance → motive (.behind base) p)
    (member : ∀ base p, p.peek.kind = .symbol .dot → motive (.behind base) p)
    (bare : ∀ base p, p.peek.kind ≠ .symbol .leftBracket → p.peek.kind ≠ .symbol .dot →
      motive (.behind base) p)
    (rule : Rule) (p : Parser) : motive rule p := by
  have hadvance : ∀ p : Parser, p.advance.tokens.length ≤ p.tokens.length - 1 :=
    fun p => Nat.le_of_eq List.length_tail
  obtain ⟨hbinary, hrow, hunary, hoperand, hbehind⟩ := Effects.parseBinary.mutual_induct
    (fun bound p => motive (.binary bound) p) (fun bound l p => motive (.row bound l) p)
    (motive .unary) (motive .operand) (fun base p => motive (.behind base) p)
    (fun bound p ihu ihr => binary bound p ihu ihr)
    rowEnd
    (fun bound l p op h _ ihr ihs =>
      have hle := Nat.le_refl p.tokens.length
      rowFold bound l p op h (ihr p.deeper hle _ (hadvance p.deeper))
        (ihs p.deeper hle _ (hadvance p.deeper)))
    plain
    (fun p op h _ ih => unary p op h (ih p.deeper (Nat.le_refl _) _ (hadvance p.deeper)))
    (fun p h _ ihe iht =>
      have hle := Nat.le_refl p.tokens.length
      paren p h (ihe p.deeper hle _ (hadvance p.deeper)) fun e q hq =>
        iht p.deeper hle _ (hadvance p.deeper) e q hq _ (hadvance q) _ (Nat.le_refl _))
    (fun p _ h _ ih => token p h fun e => ih e p.advance (hadvance p))
    (fun p hk h => noOperand p hk (by simpa using h))
    (fun base p h _ ih => index base p h (ih p.advance (hadvance p) _ (Nat.le_refl _)))
    (fun base p _ h => member base p h)
    bare
  cases rule with
  | binary bound => exact hbinary bound p
  | row bound left => exact hrow bound left p
  | unary => exact hunary p
  | operand => exact hoperand p
  | behind base => exact hbehind base p

end Parser

end Reckon
