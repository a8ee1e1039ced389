import Reckon.Proofs.Parsing.Rules

/-!
# Runs of the parser

What the rules of the parser do, as a relation: `Parses rule p e q` says that the rule, started in
the state `p`, accepts the expression `e` and leaves the state `q`. There is one constructor for
each way in which a rule can accept, with everything that the rule checks on its way.

`parses_iff` says that the relation is what the parser computes. Everything about accepted
expressions is then shown by induction on a run, where neither the recursion of the parser nor the
bounds that its steps carry are in the way.
-/

namespace Reckon

/-! ## Results of steps -/

theorem Step.outcome_eq_ok {α : Type} {n : Nat} {s : Step α n} {a : α} {q : Parser}
    (h : s.outcome = (.ok a, q)) : ∃ le, s = .done a q le := by
  cases s with
  | fail e r => cases h
  | done b r le =>
    cases h
    exact ⟨le, rfl⟩

namespace Effects

variable {α β : Type} {n m : Nat}

theorem andThen_eq {s : Id (Step α n)}
    {k : α → (p : Parser) → p.tokens.length ≤ n → Id (Step β m)} {a : α} {q : Parser}
    {le : q.tokens.length ≤ n} (hs : s = .done a q le) : andThen s k = k a q le := by
  rw [hs]
  rfl

theorem andThen_eq_done {s : Id (Step α n)}
    {k : α → (p : Parser) → p.tokens.length ≤ n → Id (Step β m)} {b : β} {p : Parser}
    {le : p.tokens.length ≤ m} (h : andThen s k = .done b p le) :
    ∃ a q hq, s = .done a q hq ∧ k a q hq = .done b p le := by
  cases s with
  | fail e q => cases h
  | done a q hq => exact ⟨a, q, hq, rfl, h⟩

theorem weaken_eq_done {s : Id (Step α n)} {h : n ≤ m} {a : α} {p : Parser}
    {le : p.tokens.length ≤ m} (hs : weaken h s = .done a p le) : ∃ le', s = .done a p le' := by
  cases s with
  | fail e q => cases hs
  | done b q hq =>
    obtain ⟨rfl, rfl⟩ := Step.done.inj hs
    exact ⟨hq, rfl⟩

end Effects

namespace Parser

open Effects

/-! ## Single tokens -/

/-- The token ahead may be passed: what comes ahead then is not illegal. -/
def CanAdvance (p : Parser) : Prop := p.advance.peek.kind ≠ .illegal

/-- There is room for one more level, and the token ahead may be passed. -/
def CanOpen (p : Parser) : Prop := p.depth < p.limit ∧ p.CanAdvance

theorem rejectIllegal_of_ne {p : Parser} (h : p.peek.kind ≠ .illegal) :
    ∃ le, p.rejectIllegal = .done () p le := ⟨Nat.le_refl _, if_neg h⟩

theorem rejectIllegal_eq_done {p q : Parser} {u : Unit} {le : q.tokens.length ≤ p.tokens.length}
    (h : p.rejectIllegal = .done u q le) : p.peek.kind ≠ .illegal ∧ q = p := by
  unfold rejectIllegal at h
  split at h
  · cases h
  next hlegal =>
    obtain ⟨-, rfl⟩ := Step.done.inj h
    exact ⟨hlegal, rfl⟩

theorem bump_of_canAdvance {p : Parser} (h : p.CanAdvance) :
    ∃ le, p.bump = .done p.peek p.advance le := by
  obtain ⟨le, hlegal⟩ := rejectIllegal_of_ne h
  unfold Parser.bump
  rw [hlegal]
  exact ⟨_, rfl⟩

theorem bump_eq_done {p q : Parser} {t : Token} {le : q.tokens.length ≤ p.tokens.length - 1}
    (h : p.bump = .done t q le) : p.CanAdvance ∧ t = p.peek ∧ q = p.advance := by
  unfold Parser.bump at h
  split at h
  · cases h
  next hreject =>
    obtain ⟨hlegal, rfl⟩ := rejectIllegal_eq_done hreject
    obtain ⟨rfl, rfl⟩ := Step.done.inj h
    exact ⟨hlegal, rfl, rfl⟩

theorem enter_of_lt {p : Parser} (h : p.depth < p.limit) : ∃ le, p.enter = .done () p.deeper le :=
  ⟨Nat.le_refl _, if_neg (Nat.not_lt.mpr h)⟩

theorem enter_eq_done {p q : Parser} {u : Unit} {le : q.tokens.length ≤ p.tokens.length}
    (h : p.enter = .done u q le) : p.depth < p.limit ∧ q = p.deeper := by
  unfold enter at h
  dsimp only at h
  split at h
  · cases h
  next hlt =>
    obtain ⟨-, rfl⟩ := Step.done.inj h
    exact ⟨Nat.not_lt.mp hlt, rfl⟩

/-- A rule that opens a level enters it and passes the token ahead. -/
theorem opens_eq_done {α : Type} {n : Nat} {p r : Parser} {a : α} {le : r.tokens.length ≤ n}
    {k : (q : Parser) → q.tokens.length ≤ p.tokens.length → Token → (s : Parser) →
      s.tokens.length ≤ q.tokens.length - 1 → Id (Step α n)}
    (h : (andThen (pure p.enter) fun _ q hq => andThen (silent.bump q) (k q hq)) = .done a r le) :
    p.CanOpen ∧ ∃ le₁ le₂, k p.deeper le₁ p.deeper.peek p.deeper.advance le₂ = .done a r le := by
  obtain ⟨_, q, hq, henter, h⟩ := andThen_eq_done h
  obtain ⟨hlt, rfl⟩ := enter_eq_done henter
  obtain ⟨t, s, hs, hbump, h⟩ := andThen_eq_done h
  obtain ⟨hadvance, rfl, rfl⟩ := bump_eq_done hbump
  exact ⟨⟨hlt, hadvance⟩, hq, hs, h⟩

theorem expect_of_kind {p : Parser} {k : TokenKind} (x : Expected) (hk : p.peek.kind = k)
    (h : p.CanAdvance) : ∃ le, p.expect k x = .done p.peek p.advance le := by
  unfold Parser.expect Effects.expect
  rw [if_pos hk]
  exact bump_of_canAdvance h

theorem expect_eq_done {p q : Parser} {k : TokenKind} {x : Expected} {t : Token}
    {le : q.tokens.length ≤ p.tokens.length - 1} (h : p.expect k x = .done t q le) :
    p.peek.kind = k ∧ p.CanAdvance ∧ t = p.peek ∧ q = p.advance := by
  unfold Parser.expect Effects.expect at h
  split at h
  next hk => exact ⟨hk, bump_eq_done h⟩
  · cases h

theorem silent_decode {t : Token} {r : Except ParseError Expr} (h : Expr.ofToken t = r) :
    silent.decode t = pure r := h

theorem parseToken_of_ok {p : Parser} {e : Expr} (h : p.CanAdvance)
    (he : Expr.ofToken p.peek = .ok e) : ∃ le, silent.parseToken p = .done e p.advance le := by
  obtain ⟨le, hbump⟩ := bump_of_canAdvance h
  refine ⟨le, (andThen_eq hbump).trans ?_⟩
  rw [silent_decode he]
  rfl

theorem parseToken_eq_done {p q : Parser} {e : Expr} {le : q.tokens.length ≤ p.tokens.length - 1}
    (h : silent.parseToken p = .done e q le) :
    p.CanAdvance ∧ Expr.ofToken p.peek = .ok e ∧ q = p.advance := by
  obtain ⟨t, r, _, hbump, h⟩ := andThen_eq_done h
  obtain ⟨hadvance, rfl, rfl⟩ := bump_eq_done hbump
  cases he : Expr.ofToken p.peek with
  | error err =>
    rw [silent_decode he] at h
    cases h
  | ok f =>
    rw [silent_decode he] at h
    obtain ⟨rfl, rfl⟩ := Step.done.inj h
    exact ⟨hadvance, rfl, rfl⟩

theorem leave_done (p : Parser) : ∃ le, silent.leave p = .done () p.leave le :=
  ⟨Nat.le_refl _, rfl⟩

/-! ## The relation -/

/-- The rule accepts an expression and leaves a state. -/
inductive Parses : Rule → Parser → Expr → Parser → Prop
  | binary {bound : Nat} {p q r : Parser} {l e : Expr} (hu : Parses .unary p l q)
      (hr : Parses (.row bound l) q e r) : Parses (.binary bound) p e { r with depth := p.depth }
  | rowEnd {bound : Nat} {p : Parser} {l : Expr} (h : p.binaryAhead? bound = none) :
      Parses (.row bound l) p l p
  | rowFold {bound : Nat} {p q s : Parser} {l r e : Expr} {op : BinaryOp}
      (h : p.binaryAhead? bound = some op) (hp : p.CanOpen)
      (hr : Parses (.binary op.rank) p.deeper.advance r q)
      (hs : Parses (.row bound (.binary l op r)) q e s) : Parses (.row bound l) p e s
  | plain {p q : Parser} {e : Expr} (h : p.unaryAhead? = none) (ho : Parses .operand p e q) :
      Parses .unary p e q
  | unary {p q : Parser} {e : Expr} {op : UnaryOp} (h : p.unaryAhead? = some op) (hp : p.CanOpen)
      (hu : Parses .unary p.deeper.advance e q) : Parses .unary p (.unary op e) q.leave
  | paren {p q s : Parser} {e t : Expr} (h : p.peek.kind = .symbol .leftParen) (hp : p.CanOpen)
      (he : Parses (.binary BinaryOp.loosest) p.deeper.advance e q)
      (hk : q.peek.kind = .symbol .rightParen) (hq : q.CanAdvance)
      (ht : Parses (.behind (.paren e)) q.advance.leave t s) : Parses .operand p t s
  | token {p s : Parser} {e t : Expr} (h : p.peek.kind.isOperand = true) (hp : p.CanAdvance)
      (he : Expr.ofToken p.peek = .ok e) (ht : Parses (.behind e) p.advance t s) :
      Parses .operand p t s
  | index {p q : Parser} {b i : Expr} (h : p.peek.kind = .symbol .leftBracket) (hp : p.CanOpen)
      (hi : Parses (.binary BinaryOp.loosest) p.deeper.advance i q)
      (hk : q.peek.kind = .symbol .rightBracket) (hq : q.CanAdvance) :
      Parses (.behind b) p (.index b i) q.advance.leave
  | member {p : Parser} {b : Expr} (h : p.peek.kind = .symbol .dot) (hp : p.CanAdvance)
      (hk : p.advance.peek.kind = .identifier) (hq : p.advance.CanAdvance) :
      Parses (.behind b) p (.member b p.advance.peek.lexeme) p.advance.advance
  | bare {p : Parser} {b : Expr} (hb : p.peek.kind ≠ .symbol .leftBracket)
      (hd : p.peek.kind ≠ .symbol .dot) : Parses (.behind b) p b p

/-! ## What the parser computes is a run -/

/-- What the rule computes from `p` is a run. -/
def Rule.Runs (rule : Rule) (p : Parser) : Prop :=
  ∀ e q le, rule.step p = .done e q le → Parses rule p e q

theorem Rule.runs (rule : Rule) (p : Parser) : rule.Runs p := by
  induction rule, p using Rule.induction with
  | binary bound p ihu ihr =>
    intro e r le h
    rw [Rule.step, run_binary] at h
    obtain ⟨l, q, hq, hl, h⟩ := andThen_eq_done h
    obtain ⟨f, s, hs, hf, h⟩ := andThen_eq_done h
    obtain ⟨rfl, rfl⟩ := Step.done.inj h
    exact .binary (ihu l q hq hl) (ihr l q hq f s hs hf)
  | rowEnd bound l p hnone =>
    intro e q le h
    rw [Rule.step, run_rowEnd _ hnone] at h
    obtain ⟨rfl, rfl⟩ := Step.done.inj h
    exact .rowEnd hnone
  | rowFold bound l p op hop ihr ihs =>
    intro e q le h
    rw [Rule.step, run_rowFold _ hop] at h
    obtain ⟨hopen, _, _, h⟩ := opens_eq_done h
    obtain ⟨r, s, hle, hr, h⟩ := andThen_eq_done h
    obtain ⟨_, hs⟩ := weaken_eq_done h
    exact .rowFold hop hopen (ihr _ _ _ hr) (ihs r s hle _ _ _ hs)
  | plain p hnone ih =>
    intro e q le h
    rw [Rule.step, run_plain _ hnone] at h
    exact .plain hnone (ih e q le h)
  | unary p op hop ih =>
    intro e q le h
    rw [Rule.step, run_unary _ hop] at h
    obtain ⟨hopen, _, _, h⟩ := opens_eq_done h
    obtain ⟨f, s, _, hf, h⟩ := andThen_eq_done h
    obtain ⟨rfl, rfl⟩ := Step.done.inj h
    exact .unary hop hopen (ih _ _ _ hf)
  | paren p hk ihe iht =>
    intro e q le h
    rw [Rule.step, run_paren _ hk] at h
    obtain ⟨hopen, _, _, h⟩ := opens_eq_done h
    obtain ⟨f, s, hle, hf, h⟩ := andThen_eq_done h
    obtain ⟨_, t, _, hexpect, h⟩ := andThen_eq_done h
    obtain ⟨hclose, hs, -, rfl⟩ := expect_eq_done hexpect
    obtain ⟨_, u, _, hleave, h⟩ := andThen_eq_done h
    obtain ⟨-, rfl⟩ := Step.done.inj hleave
    obtain ⟨_, ht⟩ := weaken_eq_done h
    exact .paren hk hopen (ihe _ _ _ hf) hclose hs (iht f s hle _ _ _ ht)
  | token p hoperand ih =>
    intro e q le h
    rw [Rule.step, run_token _ hoperand] at h
    obtain ⟨f, p₁, _, htoken, h⟩ := andThen_eq_done h
    obtain ⟨hadvance, hf, rfl⟩ := parseToken_eq_done htoken
    obtain ⟨_, ht⟩ := weaken_eq_done h
    exact .token hoperand hadvance hf (ih f _ _ _ ht)
  | noOperand p hk hoperand =>
    intro e q le h
    rw [Rule.step, run_noOperand _ hk hoperand] at h
    cases h
  | index base p hk ih =>
    intro e q le h
    rw [Rule.step, run_index _ hk] at h
    obtain ⟨_, p₁, _, hbump, h⟩ := andThen_eq_done h
    obtain ⟨_, p₂, _, henter, h⟩ := andThen_eq_done h
    obtain ⟨hadvance, -, rfl⟩ := bump_eq_done hbump
    obtain ⟨hlt, rfl⟩ := enter_eq_done henter
    obtain ⟨i, p₃, _, hi, h⟩ := andThen_eq_done h
    obtain ⟨_, p₄, _, hexpect, h⟩ := andThen_eq_done h
    obtain ⟨hclose, hq, -, rfl⟩ := expect_eq_done hexpect
    obtain ⟨rfl, rfl⟩ := Step.done.inj h
    exact .index hk ⟨hlt, hadvance⟩ (ih _ _ _ hi) hclose hq
  | member base p hdot =>
    intro e q le h
    rw [Rule.step, run_member _ hdot] at h
    obtain ⟨_, p₁, _, hbump, h⟩ := andThen_eq_done h
    obtain ⟨t, p₂, _, hexpect, h⟩ := andThen_eq_done h
    obtain ⟨rfl, rfl⟩ := Step.done.inj h
    obtain ⟨hadvance, -, rfl⟩ := bump_eq_done hbump
    obtain ⟨hname, hq, rfl, rfl⟩ := expect_eq_done hexpect
    exact .member hdot hadvance hname hq
  | bare base p hk hdot =>
    intro e q le h
    rw [Rule.step, run_bare _ hk hdot] at h
    obtain ⟨rfl, rfl⟩ := Step.done.inj h
    exact .bare hk hdot

/-! ## A run is what the parser computes -/

section

variable {α β : Type} {n m : Nat}

theorem andThen_done {s : Id (Step α n)}
    {k : α → (p : Parser) → p.tokens.length ≤ n → Id (Step β m)} {a : α} {b : β} {q r : Parser}
    (hs : ∃ le, s = .done a q le) (hk : ∀ le, ∃ le', k a q le = .done b r le') :
    ∃ le', andThen s k = .done b r le' := by
  obtain ⟨le, rfl⟩ := hs
  exact hk le

theorem weaken_done {s : Id (Step α n)} {h : n ≤ m} {a : α} {q : Parser}
    (hs : ∃ le, s = .done a q le) : ∃ le', weaken h s = .done a q le' := by
  obtain ⟨le, rfl⟩ := hs
  exact ⟨Nat.le_trans le h, rfl⟩

end

theorem Parses.step {rule : Rule} {p q : Parser} {e : Expr} (h : Parses rule p e q) :
    ∃ le, rule.step p = .done e q le := by
  induction h with
  | binary hu hr ihu ihr =>
    rw [Rule.step, run_binary]
    exact andThen_done ihu fun le => andThen_done ihr fun le' => ⟨Nat.le_trans le' le, rfl⟩
  | rowEnd h =>
    rw [Rule.step, run_rowEnd _ h]
    exact ⟨Nat.le_refl _, rfl⟩
  | rowFold h hp hr hs ihr ihs =>
    rw [Rule.step, run_rowFold _ h]
    exact andThen_done (enter_of_lt hp.1) fun _ => andThen_done (bump_of_canAdvance hp.2) fun _ =>
      andThen_done ihr fun _ => weaken_done ihs
  | plain h ho ih =>
    rw [Rule.step, run_plain _ h]
    exact ih
  | unary h hp hu ih =>
    rw [Rule.step, run_unary _ h]
    exact andThen_done (enter_of_lt hp.1) fun _ => andThen_done (bump_of_canAdvance hp.2) fun _ =>
      andThen_done ih fun _ => ⟨_, rfl⟩
  | paren h hp he hk hq ht ihe iht =>
    rw [Rule.step, run_paren _ h]
    exact andThen_done (enter_of_lt hp.1) fun _ => andThen_done (bump_of_canAdvance hp.2) fun _ =>
      andThen_done ihe fun _ => andThen_done (expect_of_kind _ hk hq) fun _ =>
        andThen_done (leave_done _) fun _ => weaken_done iht
  | token h hp he ht ih =>
    rw [Rule.step, run_token _ h]
    exact andThen_done (parseToken_of_ok hp he) fun _ => weaken_done ih
  | index h hp hi hk hq ih =>
    rw [Rule.step, run_index _ h]
    exact andThen_done (bump_of_canAdvance hp.2) fun _ => andThen_done (enter_of_lt hp.1) fun _ =>
      andThen_done ih fun _ => andThen_done (expect_of_kind _ hk hq) fun _ => ⟨_, rfl⟩
  | member h hp hk hq =>
    rw [Rule.step, run_member _ h]
    exact andThen_done (bump_of_canAdvance hp) fun _ =>
      andThen_done (expect_of_kind _ hk hq) fun _ => ⟨_, rfl⟩
  | bare hb hd =>
    rw [Rule.step, run_bare _ hb hd]
    exact ⟨Nat.le_refl _, rfl⟩

/-- **The relation is what the parser computes.** -/
theorem parses_iff {rule : Rule} {p q : Parser} {e : Expr} :
    Parses rule p e q ↔ (rule.step p).outcome = (.ok e, q) := by
  constructor
  · intro h
    obtain ⟨le, hstep⟩ := h.step
    rw [hstep]
    rfl
  · intro h
    obtain ⟨le, hstep⟩ := Step.outcome_eq_ok h
    exact rule.runs p e q le hstep

theorem Parses.unique {rule : Rule} {p q r : Parser} {e f : Expr} (he : Parses rule p e q)
    (hf : Parses rule p f r) : e = f := by
  cases (parses_iff.mp he).symm.trans (parses_iff.mp hf)
  rfl

/-- A whole expression ends with the source. -/
theorem parse_eq_ok_state_iff {p q : Parser} {e : Expr} :
    p.parse = (.ok e, q) ↔ p.peek.kind ≠ .illegal ∧
      Parses (.binary BinaryOp.loosest) p e q ∧ q.peek.kind = .eof := by
  rw [parse_eq]
  constructor
  · intro h
    obtain ⟨_, h⟩ := Step.outcome_eq_ok h
    rw [parseAll_eq] at h
    obtain ⟨_, r, _, hreject, h⟩ := andThen_eq_done h
    obtain ⟨hlegal, rfl⟩ := rejectIllegal_eq_done hreject
    obtain ⟨f, s, _, hstep, h⟩ := andThen_eq_done h
    split at h
    next heof =>
      obtain ⟨rfl, rfl⟩ := Step.done.inj h
      exact ⟨hlegal, Rule.runs _ _ _ _ _ hstep, heof⟩
    · cases h
  · rintro ⟨hlegal, hrun, heof⟩
    have hdone : ∃ le, p.parseAll = .done e q le := by
      rw [parseAll_eq]
      exact andThen_done (rejectIllegal_of_ne hlegal) fun _ =>
        andThen_done hrun.step fun _ => ⟨_, if_pos heof⟩
    obtain ⟨_, hdone⟩ := hdone
    rw [hdone]
    rfl

/-- The expression alone, without the state that is left. -/
theorem parse_eq_ok_iff {p : Parser} {e : Expr} :
    p.parse.1 = .ok e ↔ p.peek.kind ≠ .illegal ∧
      ∃ q, Parses (.binary BinaryOp.loosest) p e q ∧ q.peek.kind = .eof := by
  constructor
  · intro h
    obtain ⟨hk, hrun⟩ := parse_eq_ok_state_iff.mp (Prod.ext h rfl : p.parse = (.ok e, p.parse.2))
    exact ⟨hk, _, hrun⟩
  · rintro ⟨hk, q, hrun⟩
    rw [parse_eq_ok_state_iff.mpr ⟨hk, hrun⟩]

end Parser

end Reckon
