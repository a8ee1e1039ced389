import Reckon.Proofs.Parsing.Acts

/-!
# Levels are balanced

Whatever state a rule is started in, an accepted operand or expression leaves the depth as it was
and has cost at least one token, and a failure leaves the depth raised or as it was
(`Parser.step_balanced`). Nothing is assumed of the state: its depth may be any number, as after
earlier failures, and it may be anywhere in its source.

In between, a rule goes back to the depth it was started at, but never below: the states in which it
leaves a level are among its acts (`Rule.acts`), and each of them is deeper than the one at the
start.

Calls go down in the tokens that are left and then in the level of the rule (`Parser.Calls.lt`), so
there is no endless chain of them, and a rule either accepts or fails.
-/

namespace Reckon

namespace Parser

/-! ## Depth of calls and failures -/

theorem Calls.depth_le {rule rule' : Rule} {p p' : Parser} (h : Calls rule p rule' p') :
    p.depth ≤ p'.depth := by
  cases h with
  | first => exact Nat.le_refl _
  | row hu => exact Nat.le_of_eq (Eq.symm hu.levels)
  | right h hp => exact Nat.le_succ _
  | fold h hp hr =>
    have hdepth : p'.depth = p.depth + 1 := hr.levels
    omega
  | operand h => exact Nat.le_refl _
  | unary h hp => exact Nat.le_succ _
  | inner h hp => exact Nat.le_succ _
  | @paren _ q e h hp he hk hq =>
    have hdepth : q.advance.leave.depth = p.depth := congrArg (· - 1) he.levels
    exact Nat.le_of_eq hdepth.symm
  | token h hp he => exact Nat.le_refl _

theorem Stuck.depth_le {rule : Rule} {p q : Parser} {c : Cause} (h : Stuck rule p c q) :
    p.depth ≤ q.depth := by
  have hinner : ∀ {q : Parser} {e : Expr},
      Parses (.binary BinaryOp.loosest) p.deeper.advance e q → p.depth ≤ q.depth := by
    intro q e he
    have hdepth : q.depth = p.depth + 1 := he.levels
    omega
  cases h with
  | tooDeep h hd => exact Nat.le_succ _
  | opened h hd hp => exact Nat.le_succ _
  | passed h hp => exact Nat.le_refl _
  | indexTooDeep h hp hd => exact Nat.le_succ _
  | unclosed h hp he hk => exact hinner he
  | closed h hp he hk hq =>
    have hle := hinner he
    exact hle
  | literal h hp he => exact Nat.le_refl _
  | noOperand hk h => exact Nat.le_refl _
  | noName h hp hk => exact Nat.le_refl _
  | named h hp hk hq => exact Nat.le_refl _

/-- **A failure gives no level back.** -/
theorem Fails.depth_le {rule : Rule} {p q : Parser} {c : Cause} (h : Fails rule p c q) :
    p.depth ≤ q.depth := by
  induction h with
  | here h => exact h.depth_le
  | call h hf ih => exact Nat.le_trans h.depth_le ih

/-! ## Tokens that are passed -/

/-- The tokens that a run of the rule goes past at least. -/
def Rule.cost : Rule → Nat
  | binary _ | unary | operand => 1
  | row _ _ | behind _ => 0

theorem length_deeper_advance {p : Parser} (h : 0 < p.tokens.length) :
    p.deeper.advance.tokens.length < p.tokens.length := by
  have hlength : p.deeper.advance.tokens.length = p.tokens.length - 1 := p.length_advance
  omega

/-- **An operand costs a token.** -/
theorem Parses.cost_le {rule : Rule} {p q : Parser} {e : Expr} (h : Parses rule p e q) :
    q.tokens.length + rule.cost ≤ p.tokens.length := by
  induction h with
  | @binary _ _ q r _ _ hu hr ihu ihr =>
    have hrow : r.tokens.length ≤ q.tokens.length := ihr
    exact Nat.le_trans (Nat.add_le_add_right hrow 1) ihu
  | rowEnd h => exact Nat.le_refl _
  | rowFold h hp hr hs ihr ihs =>
    have hlt := length_deeper_advance (tokens_pos_of_binary h)
    have hright := hr.onward.length_le
    have hrest := hs.onward.length_le
    exact Nat.le_of_lt (Nat.lt_of_le_of_lt (Nat.le_trans hrest hright) hlt)
  | plain h ho ih => exact ih
  | unary h hp hu ih =>
    have hlt := length_deeper_advance (tokens_pos_of_unary h)
    have hle := hu.onward.length_le
    exact Nat.lt_of_le_of_lt hle hlt
  | paren h hp he hk hq ht ihe iht =>
    have hlt := length_deeper_advance (tokens_pos_of_kind h (by decide))
    have hinner := he.onward.advance.length_le
    have hbehind := ht.onward.length_le
    exact Nat.lt_of_le_of_lt (Nat.le_trans hbehind hinner) hlt
  | token h hp he ht ih =>
    have hlt := length_deeper_advance (tokens_pos_of_isOperand h)
    have hbehind := ht.onward.length_le
    exact Nat.lt_of_le_of_lt hbehind hlt
  | index h hp hi hk hq ih =>
    have hlt := length_deeper_advance (tokens_pos_of_kind h (by decide))
    have hinner := hi.onward.advance.length_le
    exact Nat.le_of_lt (Nat.lt_of_le_of_lt hinner hlt)
  | @member p _ h hp hk hq => exact ((Onward.refl p).advance.advance).length_le
  | bare hb hd => exact Nat.le_refl _

/-- A row ends at an operator that does not bind tighter than its bound, or at none. -/
theorem Parses.ahead {bound : Nat} {p q : Parser} {l e : Expr}
    (h : Parses (.row bound l) p e q) : q.binaryAhead? bound = none := by
  generalize hrule : Rule.row bound l = rule at h
  induction h generalizing l with
  | rowEnd h =>
    obtain ⟨rfl, rfl⟩ := Rule.row.inj hrule
    exact h
  | rowFold h hp hr hs ihr ihs =>
    obtain ⟨rfl, rfl⟩ := Rule.row.inj hrule
    exact ihs rfl
  | _ => cases hrule

/-! ## Chains of calls -/

/-- How far a rule is above the single token. -/
def Rule.height : Rule → Nat
  | binary _ => 3
  | row _ _ => 2
  | unary => 1
  | operand | behind _ => 0

/-- A call has fewer tokens left, or as many and is of a lower rule. -/
theorem Calls.lt {rule rule' : Rule} {p p' : Parser} (h : Calls rule p rule' p') :
    Prod.Lex (· < ·) (· < ·) (p'.tokens.length, rule'.height) (p.tokens.length, rule.height) := by
  cases h with
  | first => exact .right _ (by simp [Rule.height])
  | row hu => exact .left _ _ hu.cost_le
  | right h hp => exact .left _ _ (length_deeper_advance (tokens_pos_of_binary h))
  | fold h hp hr =>
    have hlt := length_deeper_advance (tokens_pos_of_binary h)
    exact .left _ _ (Nat.lt_of_le_of_lt hr.onward.length_le hlt)
  | operand h => exact .right _ (by simp [Rule.height])
  | unary h hp => exact .left _ _ (length_deeper_advance (tokens_pos_of_unary h))
  | inner h hp => exact .left _ _ (length_deeper_advance h.tokens_pos)
  | paren h hp he hk hq =>
    have hlt := length_deeper_advance (tokens_pos_of_kind h (by decide))
    exact .left _ _ (Nat.lt_of_le_of_lt he.onward.advance.length_le hlt)
  | token h hp he => exact .left _ _ (length_deeper_advance (tokens_pos_of_isOperand h))

/-- **No chain of calls is endless.** -/
theorem wellFounded_calls :
    WellFounded fun a b : Rule × Parser => Calls b.1 b.2 a.1 a.2 := by
  let size : Rule × Parser → Nat × Nat := fun a => (a.2.tokens.length, a.1.height)
  have hsize : WellFounded (InvImage (Prod.Lex (· < ·) (· < ·)) size) :=
    InvImage.wf size (Prod.lex Nat.lt_wfRel Nat.lt_wfRel).wf
  exact Subrelation.wf (fun h => h.lt) hsize

/-- A rule accepts or fails, in any state. -/
theorem parses_or_fails (rule : Rule) (p : Parser) :
    (∃ e q, Parses rule p e q) ∨ ∃ c q, Fails rule p c q := by
  cases hstep : rule.step p with
  | done e q le => exact .inl ⟨e, q, rule.runs p e q le hstep⟩
  | fail err q =>
    obtain ⟨c, -, hfails⟩ := step_eq_fail_iff.mp hstep
    exact .inr ⟨c, q, hfails⟩

/-! ## Whole rules -/

/-- How a step may end that starts in the state `p` and has to go past `cost` tokens. A result leaves
the depth as it was, a failure leaves it raised or as it was, and neither goes back in the
source. -/
structure Keeps (p : Parser) (cost : Nat) {n : Nat} (s : Step Expr n) : Prop where
  done : ∀ e q le, s = .done e q le →
    q.depth = p.depth ∧ Onward p q ∧ q.tokens.length + cost ≤ p.tokens.length
  fail : ∀ err q, s = .fail err q → p.depth ≤ q.depth ∧ Onward p q

theorem Rule.keeps (rule : Rule) (h : ∀ bound left, rule ≠ .row bound left) (p : Parser) :
    Keeps p rule.cost (rule.step p) := by
  refine ⟨fun e q le hdone => ?_, fun err q hfail => ?_⟩
  · have hrun := rule.runs p e q le hdone
    refine ⟨?_, hrun.onward, hrun.cost_le⟩
    have hlevels := hrun.levels
    cases rule with
    | row bound left => exact absurd rfl (h bound left)
    | _ => exact hlevels
  · obtain ⟨c, -, hfails⟩ := step_eq_fail_iff.mp hfail
    exact ⟨hfails.depth_le, hfails.onward⟩

/-- Behind an expression there is no operator that binds tighter than its bound. -/
theorem le_rank_of_parseBinary {bound : Nat} {p q : Parser} {e : Expr}
    {le : q.tokens.length ≤ p.tokens.length} (h : parseBinary bound p = .done e q le)
    {op : BinaryOp} (hop : BinaryOp.ofKind? q.peek.kind = some op) : bound ≤ op.rank := by
  have hrun : Parses (.binary bound) p e q := Rule.runs (.binary bound) p e q le h
  cases hrun with
  | binary hu hr =>
    have hnone := Option.filter_eq_none_iff.mp hr.ahead op hop
    simpa using hnone

/--
**Every rule is balanced and ends.**

Let the parser be in any state. A rule that accepts leaves the depth as it was, and an expression
or an operand with the operators in front of it or without them has cost a token; behind an
expression there is no operator that binds tighter than its bound. A rule that fails leaves the
depth raised or as it was, and never goes back. Every level that a rule leaves on its way is above
the depth at which the rule was started. These are the levels that the parser leaves: whatever is
done about its acts, the rule performs those of `Rule.acts`, in this order and no others, and then
ends as it does without effects.

So each rule either accepts or fails, by finitely many steps, and no chain of calls is endless, be
they calls of another rule or of the next operator of a row.
-/
theorem step_balanced (p : Parser) :
    (∀ bound, Keeps p 1 (parseBinary bound p) ∧
      ∀ e q le, parseBinary bound p = .done e q le →
        ∀ op, BinaryOp.ofKind? q.peek.kind = some op → bound ≤ op.rank) ∧
    Keeps p 1 (parseUnary p) ∧ Keeps p 1 (parseOperand p) ∧
    (∀ base, Keeps p 0 (parsePostfix base p)) ∧
    (∀ rule : Rule,
      (∀ (m : Type → Type) [Monad m] [LawfulMonad m] (fx : Effects m), fx.DecodesFrom p →
        fx.run rule p = fx.replay (rule.acts p) (rule.step p)) ∧
      ∀ q, .leave q ∈ rule.acts p → p.depth < q.depth) ∧
    (∀ rule, (∃ e q, Parses rule p e q) ∨ ∃ c q, Fails rule p c q) ∧
    WellFounded fun a b : Rule × Parser => Calls b.1 b.2 a.1 a.2 := by
  refine ⟨fun bound => ⟨Rule.keeps (.binary bound) (by simp) p,
      fun e q le h op => le_rank_of_parseBinary h⟩,
    Rule.keeps .unary (by simp) p, Rule.keeps .operand (by simp) p,
    fun base => Rule.keeps (.behind base) (by simp) p, fun rule => ?_,
    fun rule => parses_or_fails rule p, wellFounded_calls⟩
  constructor
  · intro m _ _ fx hfx
    exact Effects.run_eq_replay hfx rule
  · intro q h
    exact Rule.lt_depth_of_leave h

end Parser

end Reckon
