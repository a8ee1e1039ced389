import Reckon.Proofs.Parsing.Failures

/-!
# What a run leaves behind

A run goes on in the tokens of its source and leaves the limit as it was (`Onward`). When a rule
accepts, the depth is what it was before; only a row of operators leaves it raised
(`Parses.levels`), and its caller sets it back.

When a rule calls another one, every level that was entered on the way has cost a token
(`Calls.room`). So a limit that leaves one level for each token is never exceeded
(`Fails.limit_lt`).
-/

namespace Reckon.Parser

/-! ## Going on -/

/-- The state `q` is at the same place of the source as `p` or further on. -/
structure Onward (p q : Parser) : Prop where
  suffix : q.tokens <:+ p.tokens
  stop : q.stop = p.stop
  limit : q.limit = p.limit

namespace Onward

variable {p q r : Parser}

theorem refl (p : Parser) : Onward p p := ⟨List.suffix_rfl, rfl, rfl⟩

theorem trans (h : Onward p q) (h' : Onward q r) : Onward p r :=
  ⟨h'.suffix.trans h.suffix, h'.stop.trans h.stop, h'.limit.trans h.limit⟩

theorem advance (h : Onward p q) : Onward p q.advance :=
  h.trans ⟨List.tail_suffix _, rfl, rfl⟩

theorem of_advance (h : Onward p.deeper.advance q) : Onward p q :=
  (refl p).advance.trans ⟨h.suffix, h.stop, h.limit⟩

/-- The depth is no part of the place. -/
theorem set_depth (h : Onward p q) (n : Nat) : Onward p { q with depth := n } :=
  ⟨h.suffix, h.stop, h.limit⟩

theorem length_le (h : Onward p q) : q.tokens.length ≤ p.tokens.length := h.suffix.length_le

end Onward

theorem Parses.onward {rule : Rule} {p q : Parser} {e : Expr} (h : Parses rule p e q) :
    Onward p q := by
  induction h with
  | binary hu hr ihu ihr => exact (ihu.trans ihr).set_depth _
  | rowEnd h => exact .refl _
  | rowFold h hp hr hs ihr ihs => exact ihr.of_advance.trans ihs
  | plain h ho ih => exact ih
  | unary h hp hu ih => exact ih.of_advance.set_depth _
  | paren h hp he hk hq ht ihe iht => exact (ihe.of_advance.advance.set_depth _).trans iht
  | token h hp he ht ih => exact (Onward.refl _).advance.trans ih
  | index h hp hi hk hq ih => exact ih.of_advance.advance.set_depth _
  | member h hp hk hq => exact (Onward.refl _).advance.advance
  | bare hb hd => exact .refl _

/-- The depth that a run of the rule leaves. -/
def Rule.Levels : Rule → (p q : Parser) → Prop
  | .row _ _, p, q => p.depth ≤ q.depth
  | _, p, q => q.depth = p.depth

/-- **A rule that accepts leaves the depth as it was, and a row leaves it raised.** -/
theorem Parses.levels {rule : Rule} {p q : Parser} {e : Expr} (h : Parses rule p e q) :
    rule.Levels p q := by
  induction h with
  | binary hu hr ihu ihr => exact rfl
  | rowEnd h => exact Nat.le_refl _
  | @rowFold _ p q s _ _ _ _ h hp hr hs ihr ihs =>
    have hdepth : q.depth = p.depth + 1 := ihr
    have hrest : q.depth ≤ s.depth := ihs
    show p.depth ≤ s.depth
    omega
  | plain h ho ih => exact ih
  | unary h hp hu ih => exact congrArg (· - 1) ih
  | paren h hp he hk hq ht ihe iht => exact iht.trans (congrArg (· - 1) ihe)
  | token h hp he ht ih => exact ih
  | index h hp hi hk hq ih => exact congrArg (· - 1) ih
  | member h hp hk hq => exact rfl
  | bare hb hd => exact rfl

/-! ## Calls and failures -/

theorem Calls.onward {rule rule' : Rule} {p p' : Parser} (h : Calls rule p rule' p') :
    Onward p p' := by
  cases h with
  | first => exact .refl _
  | row hu => exact hu.onward
  | right h hp => exact (Onward.refl _).of_advance
  | fold h hp hr => exact hr.onward.of_advance
  | operand h => exact .refl _
  | unary h hp => exact (Onward.refl _).of_advance
  | inner h hp => exact (Onward.refl _).of_advance
  | paren h hp he hk hq => exact he.onward.of_advance.advance.set_depth _
  | token h hp he => exact (Onward.refl _).advance

theorem Stuck.onward {rule : Rule} {p q : Parser} {c : Cause} (h : Stuck rule p c q) :
    Onward p q := by
  cases h with
  | tooDeep h hd => exact (Onward.refl _).set_depth _
  | opened h hd hp => exact (Onward.refl _).of_advance
  | passed h hp => exact (Onward.refl _).advance
  | indexTooDeep h hp hd => exact (Onward.refl _).of_advance
  | unclosed h hp he hk => exact he.onward.of_advance
  | closed h hp he hk hq => exact he.onward.of_advance.advance
  | literal h hp he => exact (Onward.refl _).advance
  | noOperand hk h => exact .refl _
  | noName h hp hk => exact (Onward.refl _).advance
  | named h hp hk hq => exact (Onward.refl _).advance.advance

theorem Fails.onward {rule : Rule} {p q : Parser} {c : Cause} (h : Fails rule p c q) :
    Onward p q := by
  induction h with
  | here h => exact h.onward
  | call h hf ih => exact h.onward.trans ih

theorem Rejects.onward {p q : Parser} {c : Cause} (h : p.Rejects c q) : Onward p q := by
  cases h with
  | illegal h => exact .refl _
  | inside h hf => exact hf.onward
  | trailing h hp hk => exact hp.onward

/-! ## Levels cost tokens -/

theorem Rule.Opens.tokens_pos {rule : Rule} {p : Parser} (h : rule.Opens p) :
    0 < p.tokens.length := by
  cases h with
  | row h => exact tokens_pos_of_binary h
  | unary h => exact tokens_pos_of_unary h
  | paren h => exact tokens_pos_of_kind h (by decide)

theorem Rule.Passes.tokens_pos {rule : Rule} {p : Parser} (h : rule.Passes p) :
    0 < p.tokens.length := by
  cases h with
  | token h => exact tokens_pos_of_isOperand h
  | index h => exact tokens_pos_of_kind h (by decide)
  | member h => exact tokens_pos_of_kind h (by decide)

theorem Rule.Encloses.tokens_pos {rule : Rule} {p : Parser} {s : Symbol} (h : rule.Encloses p s) :
    0 < p.tokens.length := by
  cases h with
  | paren h => exact tokens_pos_of_kind h (by decide)
  | index h => exact tokens_pos_of_kind h (by decide)

theorem length_advance (p : Parser) : p.advance.tokens.length = p.tokens.length - 1 :=
  List.length_tail

/-- Every level that is entered on the way to a call has cost a token. -/
theorem Calls.room {rule rule' : Rule} {p p' : Parser} (h : Calls rule p rule' p') :
    p'.depth + p'.tokens.length ≤ p.depth + p.tokens.length := by
  have hopen : 0 < p.tokens.length →
      p.depth + 1 + p.deeper.advance.tokens.length = p.depth + p.tokens.length := by
    intro hpos
    have hlength : p.deeper.advance.tokens.length = p.tokens.length - 1 := p.length_advance
    omega
  cases h with
  | first => exact Nat.le_refl _
  | row hu =>
    have hdepth : p'.depth = p.depth := hu.levels
    have := hu.onward.length_le
    omega
  | right h hp => exact Nat.le_of_eq (hopen (tokens_pos_of_binary h))
  | fold h hp hr =>
    have hdepth : p'.depth = p.depth + 1 := hr.levels
    have := hr.onward.length_le
    have := hopen (tokens_pos_of_binary h)
    omega
  | operand h => exact Nat.le_refl _
  | unary h hp => exact Nat.le_of_eq (hopen (tokens_pos_of_unary h))
  | inner h hp => exact Nat.le_of_eq (hopen h.tokens_pos)
  | @paren _ q e h hp he hk hq =>
    have hdepth : q.advance.leave.depth = p.depth := congrArg (· - 1) he.levels
    have := (he.onward.of_advance.advance.set_depth (q.depth - 1)).length_le
    exact Nat.add_le_add (Nat.le_of_eq hdepth) this
  | token h hp he => exact Nat.add_le_add_left (Onward.refl p).advance.length_le _

theorem Stuck.limit_lt {rule : Rule} {p q : Parser} (h : Stuck rule p .tooDeep q) :
    p.limit < p.depth + p.tokens.length := by
  have hlt : p.limit ≤ p.depth → 0 < p.tokens.length → p.limit < p.depth + p.tokens.length :=
    fun hd hpos => Nat.lt_of_le_of_lt hd (Nat.lt_add_of_pos_right hpos)
  cases h with
  | tooDeep h hd => exact hlt hd h.tokens_pos
  | indexTooDeep h hp hd => exact hlt hd (tokens_pos_of_kind h (by decide))

/-- **Only a limit below the number of tokens is exceeded.** -/
theorem Fails.limit_lt {rule : Rule} {p q : Parser} (h : Fails rule p .tooDeep q) :
    p.limit < p.depth + p.tokens.length := by
  generalize hc : Cause.tooDeep = c at h
  induction h with
  | here h => exact (hc ▸ h).limit_lt
  | call h hf ih =>
    have hlt := ih hc
    rw [h.onward.limit] at hlt
    exact Nat.lt_of_lt_of_le hlt h.room

end Reckon.Parser
