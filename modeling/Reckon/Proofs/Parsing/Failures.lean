import Reckon.Proofs.Parsing.Runs

/-!
# Runs that fail

Where the rules of the parser fail, as a relation: `Fails rule p c q` says that the rule, started
in the state `p`, fails for the cause `c` and leaves the state `q`. An error is made of the cause
and the token ahead of the state that is left (`Cause.error`).

A rule fails by itself (`Stuck`), or a rule that it calls fails (`Calls`): then its own error is
that of the other rule. So a fact about failing runs is shown for each way to be stuck and handed
on by each call. `step_eq_fail_iff` says that the relation is what the parser computes.
-/

namespace Reckon

/-! ## Failures of steps -/

theorem Step.outcome_eq_error {α : Type} {n : Nat} {s : Step α n} {e : ParseError} {q : Parser}
    (h : s.outcome = (.error e, q)) : s = .fail e q := by
  cases s with
  | fail f r =>
    cases h
    rfl
  | done a r le => cases h

namespace Effects

variable {α β : Type} {n m : Nat}

theorem andThen_eq_fail {s : Id (Step α n)}
    {k : α → (p : Parser) → p.tokens.length ≤ n → Id (Step β m)} {e : ParseError} {p : Parser}
    (h : andThen s k = .fail e p) :
    s = .fail e p ∨ ∃ a q hq, s = .done a q hq ∧ k a q hq = .fail e p := by
  cases s with
  | fail f q => exact .inl (by cases h; rfl)
  | done a q hq => exact .inr ⟨a, q, hq, rfl, h⟩

theorem weaken_eq_fail {s : Id (Step α n)} {h : n ≤ m} {e : ParseError} {p : Parser}
    (hs : weaken h s = .fail e p) : s = .fail e p := by
  cases s with
  | fail f q => cases hs; rfl
  | done a q hq => cases hs

theorem andThen_fail {s : Id (Step α n)}
    {k : α → (p : Parser) → p.tokens.length ≤ n → Id (Step β m)} {e : ParseError} {q : Parser}
    (hs : s = .fail e q) : andThen s k = .fail e q := by
  rw [hs]
  rfl

theorem andThen_of_done {s : Id (Step α n)}
    {k : α → (p : Parser) → p.tokens.length ≤ n → Id (Step β m)} {a : α} {e : ParseError}
    {q r : Parser} (hs : ∃ le, s = .done a q le) (hk : ∀ le, k a q le = .fail e r) :
    andThen s k = .fail e r := by
  obtain ⟨le, rfl⟩ := hs
  exact hk le

theorem weaken_fail {s : Id (Step α n)} {h : n ≤ m} {e : ParseError} {q : Parser}
    (hs : s = .fail e q) : weaken h s = .fail e q := by
  rw [hs]
  rfl

end Effects

namespace Parser

open Effects

/-! ## Causes -/

/-- What is wrong at the place where parsing stops. -/
inductive Cause
  /-- The token ahead is illegal. -/
  | illegal
  /-- Something else than the token ahead had to come. -/
  | unexpected (x : Expected)
  /-- The token ahead starts no operand. -/
  | noOperand
  /-- The literal behind which the parser is denotes no value. -/
  | badLiteral (kind : Kind) (lexeme : String)
  /-- There is no room for the level that was entered. -/
  | tooDeep

/-- The error in the state `q`. -/
def Cause.error (c : Cause) (q : Parser) : ParseError :=
  match c with
  | illegal => .lex ⟨q.peek.offset, q.peek.lexeme⟩
  | unexpected x => .unexpectedToken x q.peek.kind q.peek.offset
  | noOperand => .expectedExpression q.peek.kind q.peek.offset
  | badLiteral kind lexeme => .invalidLiteral kind lexeme
  | tooDeep => .tooDeep q.limit

/-! ## Single tokens -/

theorem enter_of_le {p : Parser} (h : p.limit ≤ p.depth) :
    p.enter = .fail (Cause.tooDeep.error p.deeper) p.deeper :=
  if_pos (Nat.lt_succ_of_le h)

theorem enter_eq_fail {p q : Parser} {e : ParseError} (h : p.enter = .fail e q) :
    p.limit ≤ p.depth ∧ q = p.deeper ∧ e = Cause.tooDeep.error q := by
  unfold enter at h
  dsimp only at h
  split at h
  next hlt =>
    cases h
    exact ⟨Nat.le_of_lt_succ hlt, rfl, rfl⟩
  · cases h

theorem rejectIllegal_of_eq {p : Parser} (h : p.peek.kind = .illegal) :
    p.rejectIllegal = .fail (Cause.illegal.error p) p := if_pos h

theorem rejectIllegal_eq_fail {p q : Parser} {e : ParseError} (h : p.rejectIllegal = .fail e q) :
    p.peek.kind = .illegal ∧ q = p ∧ e = Cause.illegal.error q := by
  unfold rejectIllegal at h
  split at h
  next hk =>
    cases h
    exact ⟨hk, rfl, rfl⟩
  · cases h

theorem bump_of_not_canAdvance {p : Parser} (h : ¬ p.CanAdvance) :
    p.bump = .fail (Cause.illegal.error p.advance) p.advance := by
  unfold Parser.bump
  rw [rejectIllegal_of_eq (Decidable.not_not.mp h)]

theorem bump_eq_fail {p q : Parser} {e : ParseError} (h : p.bump = .fail e q) :
    ¬ p.CanAdvance ∧ q = p.advance ∧ e = Cause.illegal.error q := by
  by_cases hp : p.CanAdvance
  · obtain ⟨le, hdone⟩ := bump_of_canAdvance hp
    cases hdone.symm.trans h
  · cases (bump_of_not_canAdvance hp).symm.trans h
    exact ⟨hp, rfl, rfl⟩

theorem expect_of_ne {p : Parser} {k : TokenKind} (x : Expected) (hk : p.peek.kind ≠ k) :
    p.expect k x = .fail ((Cause.unexpected x).error p) p := if_neg hk

theorem expect_of_not_canAdvance {p : Parser} {k : TokenKind} (x : Expected)
    (hk : p.peek.kind = k) (h : ¬ p.CanAdvance) :
    p.expect k x = .fail (Cause.illegal.error p.advance) p.advance :=
  (if_pos hk).trans (bump_of_not_canAdvance h)

theorem expect_eq_fail {p q : Parser} {k : TokenKind} {x : Expected} {e : ParseError}
    (h : p.expect k x = .fail e q) :
    (p.peek.kind ≠ k ∧ q = p ∧ e = (Cause.unexpected x).error q) ∨
      (p.peek.kind = k ∧ ¬ p.CanAdvance ∧ q = p.advance ∧ e = Cause.illegal.error q) := by
  unfold Parser.expect Effects.expect at h
  split at h
  next hk => exact .inr ⟨hk, bump_eq_fail h⟩
  next hk =>
    cases h
    exact .inl ⟨hk, rfl, rfl⟩

theorem parseToken_of_not_canAdvance {p : Parser} (h : ¬ p.CanAdvance) :
    silent.parseToken p = .fail (Cause.illegal.error p.advance) p.advance :=
  andThen_fail (bump_of_not_canAdvance h)

theorem parseToken_of_error {p : Parser} {e : ParseError} (h : p.CanAdvance)
    (he : Expr.ofToken p.peek = .error e) : silent.parseToken p = .fail e p.advance := by
  obtain ⟨le, hbump⟩ := bump_of_canAdvance h
  refine (andThen_eq hbump).trans ?_
  rw [silent_decode he]
  rfl

theorem parseToken_eq_fail {p q : Parser} {e : ParseError} (h : silent.parseToken p = .fail e q) :
    (¬ p.CanAdvance ∧ q = p.advance ∧ e = Cause.illegal.error q) ∨
      (p.CanAdvance ∧ q = p.advance ∧ Expr.ofToken p.peek = .error e) := by
  by_cases hp : p.CanAdvance
  · cases he : Expr.ofToken p.peek with
    | error err =>
      cases (parseToken_of_error hp he).symm.trans h
      exact .inr ⟨hp, rfl, rfl⟩
    | ok f =>
      obtain ⟨le, hdone⟩ := parseToken_of_ok hp he
      cases hdone.symm.trans h
  · cases (parseToken_of_not_canAdvance hp).symm.trans h
    exact .inl ⟨hp, rfl, rfl⟩

/-! ## The relation -/

/-- The rule starts with a level of its own and goes past the token ahead. -/
inductive Rule.Opens : Rule → Parser → Prop
  | row {bound : Nat} {l : Expr} {p : Parser} {op : BinaryOp} (h : p.binaryAhead? bound = some op) :
    Opens (.row bound l) p
  | unary {p : Parser} {op : UnaryOp} (h : p.unaryAhead? = some op) : Opens .unary p
  | paren {p : Parser} (h : p.peek.kind = .symbol .leftParen) : Opens .operand p

/-- The rule starts by going past the token ahead. -/
inductive Rule.Passes : Rule → Parser → Prop
  | token {p : Parser} (h : p.peek.kind.isOperand = true) : Passes .operand p
  | index {b : Expr} {p : Parser} (h : p.peek.kind = .symbol .leftBracket) : Passes (.behind b) p
  | member {b : Expr} {p : Parser} (h : p.peek.kind = .symbol .dot) : Passes (.behind b) p

/-- The token ahead opens a whole expression that has to be closed by the symbol. -/
inductive Rule.Encloses : Rule → Parser → Symbol → Prop
  | paren {p : Parser} (h : p.peek.kind = .symbol .leftParen) : Encloses .operand p .rightParen
  | index {b : Expr} {p : Parser} (h : p.peek.kind = .symbol .leftBracket) :
    Encloses (.behind b) p .rightBracket

/-- The rule, started in the first state, comes to call the other rule in the other state. -/
inductive Calls : Rule → Parser → Rule → Parser → Prop
  | first {bound : Nat} {p : Parser} : Calls (.binary bound) p .unary p
  | row {bound : Nat} {p q : Parser} {l : Expr} (hu : Parses .unary p l q) :
    Calls (.binary bound) p (.row bound l) q
  | right {bound : Nat} {p : Parser} {l : Expr} {op : BinaryOp}
      (h : p.binaryAhead? bound = some op) (hp : p.CanOpen) :
    Calls (.row bound l) p (.binary op.rank) p.deeper.advance
  | fold {bound : Nat} {p q : Parser} {l r : Expr} {op : BinaryOp}
      (h : p.binaryAhead? bound = some op) (hp : p.CanOpen)
      (hr : Parses (.binary op.rank) p.deeper.advance r q) :
    Calls (.row bound l) p (.row bound (.binary l op r)) q
  | operand {p : Parser} (h : p.unaryAhead? = none) : Calls .unary p .operand p
  | unary {p : Parser} {op : UnaryOp} (h : p.unaryAhead? = some op) (hp : p.CanOpen) :
    Calls .unary p .unary p.deeper.advance
  | inner {rule : Rule} {p : Parser} {s : Symbol} (h : rule.Encloses p s) (hp : p.CanOpen) :
    Calls rule p (.binary BinaryOp.loosest) p.deeper.advance
  | paren {p q : Parser} {e : Expr} (h : p.peek.kind = .symbol .leftParen) (hp : p.CanOpen)
      (he : Parses (.binary BinaryOp.loosest) p.deeper.advance e q)
      (hk : q.peek.kind = .symbol .rightParen) (hq : q.CanAdvance) :
    Calls .operand p (.behind (.paren e)) q.advance.leave
  | token {p : Parser} {e : Expr} (h : p.peek.kind.isOperand = true) (hp : p.CanAdvance)
      (he : Expr.ofToken p.peek = .ok e) : Calls .operand p (.behind e) p.advance

/-- The rule, started in the first state, fails by itself and leaves the other state. -/
inductive Stuck : Rule → Parser → Cause → Parser → Prop
  | tooDeep {rule : Rule} {p : Parser} (h : rule.Opens p) (hd : p.limit ≤ p.depth) :
    Stuck rule p .tooDeep p.deeper
  | opened {rule : Rule} {p : Parser} (h : rule.Opens p) (hd : p.depth < p.limit)
      (hp : ¬ p.CanAdvance) : Stuck rule p .illegal p.deeper.advance
  | passed {rule : Rule} {p : Parser} (h : rule.Passes p) (hp : ¬ p.CanAdvance) :
    Stuck rule p .illegal p.advance
  | indexTooDeep {p : Parser} {b : Expr} (h : p.peek.kind = .symbol .leftBracket)
      (hp : p.CanAdvance) (hd : p.limit ≤ p.depth) : Stuck (.behind b) p .tooDeep p.deeper.advance
  | unclosed {rule : Rule} {p q : Parser} {s : Symbol} {e : Expr} (h : rule.Encloses p s)
      (hp : p.CanOpen) (he : Parses (.binary BinaryOp.loosest) p.deeper.advance e q)
      (hk : q.peek.kind ≠ .symbol s) : Stuck rule p (.unexpected (.closing s)) q
  | closed {rule : Rule} {p q : Parser} {s : Symbol} {e : Expr} (h : rule.Encloses p s)
      (hp : p.CanOpen) (he : Parses (.binary BinaryOp.loosest) p.deeper.advance e q)
      (hk : q.peek.kind = .symbol s) (hq : ¬ q.CanAdvance) : Stuck rule p .illegal q.advance
  | literal {p : Parser} {k : Kind} {x : String} (h : p.peek.kind.isOperand = true)
      (hp : p.CanAdvance) (he : Expr.ofToken p.peek = .error (.invalidLiteral k x)) :
    Stuck .operand p (.badLiteral k x) p.advance
  | noOperand {p : Parser} (hk : p.peek.kind ≠ .symbol .leftParen)
      (h : p.peek.kind.isOperand = false) : Stuck .operand p .noOperand p
  | noName {p : Parser} {b : Expr} (h : p.peek.kind = .symbol .dot) (hp : p.CanAdvance)
      (hk : p.advance.peek.kind ≠ .identifier) :
    Stuck (.behind b) p (.unexpected .identifier) p.advance
  | named {p : Parser} {b : Expr} (h : p.peek.kind = .symbol .dot) (hp : p.CanAdvance)
      (hk : p.advance.peek.kind = .identifier) (hq : ¬ p.advance.CanAdvance) :
    Stuck (.behind b) p .illegal p.advance.advance

/-- The rule, started in the first state, fails and leaves the other state. -/
inductive Fails : Rule → Parser → Cause → Parser → Prop
  | here {rule : Rule} {p q : Parser} {c : Cause} (h : Stuck rule p c q) : Fails rule p c q
  | call {rule rule' : Rule} {p p' q : Parser} {c : Cause} (h : Calls rule p rule' p')
      (hf : Fails rule' p' c q) : Fails rule p c q

/-! ## A failing run is what the parser computes -/

/-- A rule that opens a level enters it and goes past the token ahead before anything else. -/
theorem Rule.Opens.step_eq {rule : Rule} {p : Parser} (h : rule.Opens p) :
    ∃ k : (q : Parser) → q.tokens.length ≤ p.tokens.length → Token → (r : Parser) →
        r.tokens.length ≤ q.tokens.length - 1 → Id (Step Expr p.tokens.length),
      rule.step p = andThen (pure p.enter) fun _ q hq => andThen (silent.bump q) (k q hq) := by
  cases h with
  | row h => exact ⟨_, run_rowFold silent h⟩
  | unary h => exact ⟨_, run_unary silent h⟩
  | paren h => exact ⟨_, run_paren silent h⟩

theorem Rule.Passes.step_of_not_canAdvance {rule : Rule} {p : Parser} (h : rule.Passes p)
    (hp : ¬ p.CanAdvance) : rule.step p = .fail (Cause.illegal.error p.advance) p.advance := by
  cases h with
  | token h => exact (run_token silent h).trans (andThen_fail (parseToken_of_not_canAdvance hp))
  | index h => exact (run_index silent h).trans (andThen_fail (bump_of_not_canAdvance hp))
  | member h => exact (run_member silent h).trans (andThen_fail (bump_of_not_canAdvance hp))

/-- Inside of two symbols, a rule reads a whole expression and expects the closing one. -/
theorem Rule.Encloses.step_eq {rule : Rule} {p : Parser} {s : Symbol} (h : rule.Encloses p s)
    (hp : p.CanOpen) :
    ∃ k : Expr → (q : Parser) → q.tokens.length ≤ p.deeper.advance.tokens.length → Token →
        (r : Parser) → r.tokens.length ≤ q.tokens.length - 1 → Id (Step Expr p.tokens.length),
      rule.step p = andThen ((Rule.binary BinaryOp.loosest).step p.deeper.advance) fun e q hq =>
        andThen (silent.expect q (.symbol s) (.closing s)) (k e q hq) := by
  cases h with
  | paren h =>
    obtain ⟨le, henter⟩ := enter_of_lt hp.1
    obtain ⟨le', hbump⟩ := bump_of_canAdvance (p := p.deeper) hp.2
    exact ⟨_, (run_paren silent h).trans ((andThen_eq henter).trans (andThen_eq hbump))⟩
  | index h =>
    obtain ⟨le, hbump⟩ := bump_of_canAdvance hp.2
    obtain ⟨le', henter⟩ := enter_of_lt (p := p.advance) hp.1
    exact ⟨_, (run_index silent h).trans ((andThen_eq hbump).trans (andThen_eq henter))⟩

/-- The error of a rule that is called is that of the caller. -/
theorem Calls.step {rule rule' : Rule} {p p' q : Parser} {e : ParseError}
    (h : Calls rule p rule' p') (hs : rule'.step p' = .fail e q) : rule.step p = .fail e q := by
  cases h with
  | first =>
    rw [Rule.step, run_binary]
    exact andThen_fail hs
  | row hu =>
    rw [Rule.step, run_binary]
    exact andThen_of_done hu.step fun _ => andThen_fail hs
  | right h hp =>
    rw [Rule.step, run_rowFold _ h]
    exact andThen_of_done (enter_of_lt hp.1) fun _ =>
      andThen_of_done (bump_of_canAdvance hp.2) fun _ => andThen_fail hs
  | fold h hp hr =>
    rw [Rule.step, run_rowFold _ h]
    exact andThen_of_done (enter_of_lt hp.1) fun _ =>
      andThen_of_done (bump_of_canAdvance hp.2) fun _ =>
        andThen_of_done hr.step fun _ => weaken_fail hs
  | operand h =>
    rw [Rule.step, run_plain _ h]
    exact hs
  | unary h hp =>
    rw [Rule.step, run_unary _ h]
    exact andThen_of_done (enter_of_lt hp.1) fun _ =>
      andThen_of_done (bump_of_canAdvance hp.2) fun _ => andThen_fail hs
  | inner h hp =>
    obtain ⟨k, hstep⟩ := h.step_eq hp
    rw [hstep]
    exact andThen_fail hs
  | paren h hp he hk hq =>
    rw [Rule.step, run_paren _ h]
    exact andThen_of_done (enter_of_lt hp.1) fun _ =>
      andThen_of_done (bump_of_canAdvance hp.2) fun _ => andThen_of_done he.step fun _ =>
        andThen_of_done (expect_of_kind _ hk hq) fun _ =>
          andThen_of_done (leave_done _) fun _ => weaken_fail hs
  | token h hp he =>
    rw [Rule.step, run_token _ h]
    exact andThen_of_done (parseToken_of_ok hp he) fun _ => weaken_fail hs

theorem Stuck.step {rule : Rule} {p q : Parser} {c : Cause} (h : Stuck rule p c q) :
    rule.step p = .fail (c.error q) q := by
  cases h with
  | tooDeep h hd =>
    obtain ⟨k, hstep⟩ := h.step_eq
    rw [hstep]
    exact andThen_fail (enter_of_le hd)
  | opened h hd hp =>
    obtain ⟨k, hstep⟩ := h.step_eq
    rw [hstep]
    exact andThen_of_done (enter_of_lt hd) fun _ => andThen_fail (bump_of_not_canAdvance hp)
  | passed h hp => exact h.step_of_not_canAdvance hp
  | indexTooDeep h hp hd =>
    rw [Rule.step, run_index _ h]
    exact andThen_of_done (bump_of_canAdvance hp) fun _ => andThen_fail (enter_of_le hd)
  | unclosed h hp he hk =>
    obtain ⟨k, hstep⟩ := h.step_eq hp
    rw [hstep]
    exact andThen_of_done he.step fun _ => andThen_fail (expect_of_ne _ hk)
  | closed h hp he hk hq =>
    obtain ⟨k, hstep⟩ := h.step_eq hp
    rw [hstep]
    exact andThen_of_done he.step fun _ => andThen_fail (expect_of_not_canAdvance _ hk hq)
  | literal h hp he =>
    rw [Rule.step, run_token _ h]
    exact andThen_fail (parseToken_of_error hp he)
  | noOperand hk h =>
    rw [Rule.step, run_noOperand _ hk h]
    rfl
  | noName h hp hk =>
    rw [Rule.step, run_member _ h]
    exact andThen_of_done (bump_of_canAdvance hp) fun _ => andThen_fail (expect_of_ne _ hk)
  | named h hp hk hq =>
    rw [Rule.step, run_member _ h]
    exact andThen_of_done (bump_of_canAdvance hp) fun _ =>
      andThen_fail (expect_of_not_canAdvance _ hk hq)

theorem Fails.step {rule : Rule} {p q : Parser} {c : Cause} (h : Fails rule p c q) :
    rule.step p = .fail (c.error q) q := by
  induction h with
  | here h => exact h.step
  | call h hf ih => exact h.step ih

/-! ## What the parser computes is a failing run -/

/-- What goes wrong with the rule in the state `p` is a failing run. -/
def Rule.Explains (rule : Rule) (p : Parser) : Prop :=
  ∀ e q, rule.step p = .fail e q → ∃ c, e = c.error q ∧ Fails rule p c q

theorem Rule.Explains.call {rule rule' : Rule} {p p' q : Parser} {e : ParseError}
    (hr : rule'.Explains p') (h : Calls rule p rule' p') (hs : rule'.step p' = .fail e q) :
    ∃ c, e = c.error q ∧ Fails rule p c q := by
  obtain ⟨c, he, hf⟩ := hr e q hs
  exact ⟨c, he, .call h hf⟩

theorem ofToken_eq_error {t : Token} {e : ParseError} (h : Expr.ofToken t = .error e) :
    ∃ k, e = .invalidLiteral k t.lexeme := by
  unfold Expr.ofToken at h
  split at h
  · cases h
  next k _ =>
    split at h
    · cases h
    · cases h
      exact ⟨k, rfl⟩

section

variable {n m : Nat} {rule : Rule} {p r : Parser} {e : ParseError}

/-- A rule that opens a level fails in doing so, or behind the token ahead. -/
theorem Rule.Opens.explain (ho : rule.Opens p)
    {k : (q : Parser) → q.tokens.length ≤ p.tokens.length → Token → (r : Parser) →
      r.tokens.length ≤ q.tokens.length - 1 → Id (Step Expr m)}
    (h : (andThen (pure p.enter) fun _ q hq => andThen (silent.bump q) (k q hq)) = .fail e r) :
    (∃ c, e = c.error r ∧ Fails rule p c r) ∨
      p.CanOpen ∧ ∃ le le', k p.deeper le p.deeper.peek p.deeper.advance le' = .fail e r := by
  rcases andThen_eq_fail h with henter | ⟨_, q, le, henter, h⟩
  · obtain ⟨hd, rfl, rfl⟩ := enter_eq_fail henter
    exact .inl ⟨.tooDeep, rfl, .here (.tooDeep ho hd)⟩
  obtain ⟨hlt, rfl⟩ := enter_eq_done henter
  rcases andThen_eq_fail h with hbump | ⟨t, q, le', hbump, h⟩
  · obtain ⟨hp, rfl, rfl⟩ := bump_eq_fail hbump
    exact .inl ⟨.illegal, rfl, .here (.opened ho hlt hp)⟩
  · obtain ⟨hp, rfl, rfl⟩ := bump_eq_done hbump
    exact .inr ⟨⟨hlt, hp⟩, le, le', h⟩

/-- A rule that goes past the token ahead fails in doing so, or behind it. -/
theorem Rule.Passes.explain (hp : rule.Passes p)
    {k : Token → (q : Parser) → q.tokens.length ≤ p.tokens.length - 1 → Id (Step Expr m)}
    (h : andThen (silent.bump p) k = .fail e r) :
    (∃ c, e = c.error r ∧ Fails rule p c r) ∨
      p.CanAdvance ∧ ∃ le, k p.peek p.advance le = .fail e r := by
  rcases andThen_eq_fail h with hbump | ⟨t, q, le, hbump, h⟩
  · obtain ⟨hnot, rfl, rfl⟩ := bump_eq_fail hbump
    exact .inl ⟨.illegal, rfl, .here (.passed hp hnot)⟩
  · obtain ⟨hadvance, rfl, rfl⟩ := bump_eq_done hbump
    exact .inr ⟨hadvance, le, h⟩

/-- A rule fails between two symbols, at the closing one, or behind it. -/
theorem Rule.Encloses.explain {s : Symbol} (he : rule.Encloses p s) (hp : p.CanOpen)
    (hinner : (Rule.binary BinaryOp.loosest).Explains p.deeper.advance)
    {k : Expr → (q : Parser) → q.tokens.length ≤ p.deeper.advance.tokens.length → Token →
      (r : Parser) → r.tokens.length ≤ q.tokens.length - 1 → Id (Step Expr m)}
    (h : (andThen ((Rule.binary BinaryOp.loosest).step p.deeper.advance) fun e q hq =>
      andThen (silent.expect q (.symbol s) (.closing s)) (k e q hq)) = .fail e r) :
    (∃ c, e = c.error r ∧ Fails rule p c r) ∨
      ∃ f q, Parses (.binary BinaryOp.loosest) p.deeper.advance f q ∧ q.peek.kind = .symbol s ∧
        q.CanAdvance ∧ ∃ le le', k f q le q.peek q.advance le' = .fail e r := by
  rcases andThen_eq_fail h with hf | ⟨f, q, le, hf, h⟩
  · exact .inl (hinner.call (.inner he hp) hf)
  have hrun := Rule.runs (.binary BinaryOp.loosest) _ _ _ _ hf
  rcases andThen_eq_fail h with hexpect | ⟨t, q', le', hexpect, h⟩
  · rcases expect_eq_fail hexpect with ⟨hk, rfl, rfl⟩ | ⟨hk, hq, rfl, rfl⟩
    · exact .inl ⟨_, rfl, .here (.unclosed he hp hrun hk)⟩
    · exact .inl ⟨_, rfl, .here (.closed he hp hrun hk hq)⟩
  · obtain ⟨hk, hq, rfl, rfl⟩ := expect_eq_done hexpect
    exact .inr ⟨f, q, hrun, hk, hq, le, le', h⟩

end

theorem Rule.explains (rule : Rule) (p : Parser) : rule.Explains p := by
  induction rule, p using Rule.induction with
  | binary bound p ihu ihr =>
    intro e r h
    rw [Rule.step, run_binary] at h
    rcases andThen_eq_fail h with hu | ⟨l, q, hq, hl, h⟩
    · exact ihu.call .first hu
    rcases andThen_eq_fail h with hr | ⟨_, _, _, _, h⟩
    · exact (ihr l q hq).call (.row (Rule.runs .unary _ _ _ _ hl)) hr
    · cases h
  | rowEnd bound l p hnone =>
    intro e q h
    rw [Rule.step, run_rowEnd _ hnone] at h
    cases h
  | rowFold bound l p op hop ihr ihs =>
    intro e q h
    rw [Rule.step, run_rowFold _ hop] at h
    rcases (Rule.Opens.row hop).explain h with hfails | ⟨hopen, le, le', h⟩
    · exact hfails
    rcases andThen_eq_fail h with hr | ⟨right, s, le₃, hr, h⟩
    · exact ihr.call (.right hop hopen) hr
    have hrun := Rule.runs (.binary op.rank) _ _ _ _ hr
    exact (ihs right s le₃).call (.fold hop hopen hrun) (weaken_eq_fail h)
  | plain p hnone ih =>
    intro e q h
    rw [Rule.step, run_plain _ hnone] at h
    exact ih.call (.operand hnone) h
  | unary p op hop ih =>
    intro e q h
    rw [Rule.step, run_unary _ hop] at h
    rcases (Rule.Opens.unary hop).explain h with hfails | ⟨hopen, le, le', h⟩
    · exact hfails
    rcases andThen_eq_fail h with hu | ⟨_, _, _, _, h⟩
    · exact ih.call (.unary hop hopen) hu
    · cases h
  | paren p hk ihe iht =>
    intro e q h
    rw [Rule.step, run_paren _ hk] at h
    rcases (Rule.Opens.paren hk).explain h with hfails | ⟨hopen, le, le', h⟩
    · exact hfails
    rcases (Rule.Encloses.paren hk).explain hopen ihe h with
      hfails | ⟨f, s, hrun, hclose, hs, le₃, le₄, h⟩
    · exact hfails
    rcases andThen_eq_fail h with hleave | ⟨_, _, _, hleave, h⟩
    · cases hleave
    · obtain ⟨-, rfl⟩ := Step.done.inj hleave
      exact (iht f s le₃).call (.paren hk hopen hrun hclose hs) (weaken_eq_fail h)
  | token p hoperand ih =>
    intro e q h
    rw [Rule.step, run_token _ hoperand] at h
    rcases andThen_eq_fail h with htoken | ⟨f, _, _, htoken, h⟩
    · rcases parseToken_eq_fail htoken with ⟨hp, rfl, rfl⟩ | ⟨hadvance, rfl, he⟩
      · exact ⟨.illegal, rfl, .here (.passed (.token hoperand) hp)⟩
      · obtain ⟨k, rfl⟩ := ofToken_eq_error he
        exact ⟨.badLiteral k _, rfl, .here (.literal hoperand hadvance he)⟩
    · obtain ⟨hadvance, hf, rfl⟩ := parseToken_eq_done htoken
      exact (ih f).call (.token hoperand hadvance hf) (weaken_eq_fail h)
  | noOperand p hk hoperand =>
    intro e q h
    rw [Rule.step, run_noOperand _ hk hoperand] at h
    cases h
    exact ⟨.noOperand, rfl, .here (.noOperand hk hoperand)⟩
  | index base p hk ih =>
    intro e q h
    rw [Rule.step, run_index _ hk] at h
    rcases (Rule.Passes.index hk).explain h with hfails | ⟨hadvance, le, h⟩
    · exact hfails
    rcases andThen_eq_fail h with henter | ⟨_, p₂, le₂, henter, h⟩
    · obtain ⟨hd, rfl, rfl⟩ := enter_eq_fail henter
      exact ⟨.tooDeep, rfl, .here (.indexTooDeep hk hadvance hd)⟩
    obtain ⟨hlt, rfl⟩ := enter_eq_done henter
    rcases (Rule.Encloses.index hk).explain ⟨hlt, hadvance⟩ ih h with
      hfails | ⟨_, _, _, _, _, _, _, h⟩
    · exact hfails
    · cases h
  | member base p hdot =>
    intro e q h
    rw [Rule.step, run_member _ hdot] at h
    rcases (Rule.Passes.member hdot).explain h with hfails | ⟨hadvance, le, h⟩
    · exact hfails
    rcases andThen_eq_fail h with hexpect | ⟨_, _, _, _, h⟩
    · rcases expect_eq_fail hexpect with ⟨hname, rfl, rfl⟩ | ⟨hname, hq, rfl, rfl⟩
      · exact ⟨_, rfl, .here (.noName hdot hadvance hname)⟩
      · exact ⟨_, rfl, .here (.named hdot hadvance hname hq)⟩
    · cases h
  | bare base p hk hdot =>
    intro e q h
    rw [Rule.step, run_bare _ hk hdot] at h
    cases h

/-- **The relation is what the parser computes when it fails.** -/
theorem step_eq_fail_iff {rule : Rule} {p q : Parser} {e : ParseError} :
    rule.step p = .fail e q ↔ ∃ c, e = c.error q ∧ Fails rule p c q := by
  constructor
  · exact rule.explains p e q
  · rintro ⟨c, rfl, h⟩
    exact h.step

/-- A rule does not both accept and fail. -/
theorem Parses.not_fails {rule : Rule} {p q r : Parser} {e : Expr} {c : Cause}
    (h : Parses rule p e q) : ¬ Fails rule p c r := by
  intro hf
  obtain ⟨le, hdone⟩ := h.step
  cases hdone.symm.trans hf.step

/-! ## Whole expressions -/

/-- The parser, started in the first state, rejects the source and leaves the other state. -/
inductive Rejects : Parser → Cause → Parser → Prop
  | illegal {p : Parser} (h : p.peek.kind = .illegal) : Rejects p .illegal p
  | inside {p q : Parser} {c : Cause} (h : p.peek.kind ≠ .illegal)
      (hf : Fails (.binary BinaryOp.loosest) p c q) : Rejects p c q
  | trailing {p q : Parser} {e : Expr} (h : p.peek.kind ≠ .illegal)
      (hp : Parses (.binary BinaryOp.loosest) p e q) (hk : q.peek.kind ≠ .eof) :
    Rejects p (.unexpected .endOfInput) q

theorem Rejects.parseAll {p q : Parser} {c : Cause} (h : p.Rejects c q) :
    p.parseAll = .fail (c.error q) q := by
  rw [parseAll_eq]
  cases h with
  | illegal h => exact andThen_fail (rejectIllegal_of_eq h)
  | inside h hf => exact andThen_of_done (rejectIllegal_of_ne h) fun _ => andThen_fail hf.step
  | trailing h hp hk =>
    exact andThen_of_done (rejectIllegal_of_ne h) fun _ =>
      andThen_of_done hp.step fun _ => if_neg hk

theorem rejects_of_parseAll {p q : Parser} {e : ParseError} (h : p.parseAll = .fail e q) :
    ∃ c, e = c.error q ∧ p.Rejects c q := by
  rw [parseAll_eq] at h
  rcases andThen_eq_fail h with hreject | ⟨_, r, _, hreject, h⟩
  · obtain ⟨hk, rfl, rfl⟩ := rejectIllegal_eq_fail hreject
    exact ⟨.illegal, rfl, .illegal hk⟩
  obtain ⟨hk, rfl⟩ := rejectIllegal_eq_done hreject
  rcases andThen_eq_fail h with hf | ⟨f, s, _, hs, h⟩
  · obtain ⟨c, rfl, hfails⟩ := Rule.explains _ _ _ _ hf
    exact ⟨c, rfl, .inside hk hfails⟩
  have hrun := Rule.runs _ _ _ _ _ hs
  split at h
  · cases h
  next heof =>
    cases h
    exact ⟨_, rfl, .trailing hk hrun heof⟩

/-- **A source is rejected where the relation says so.** -/
theorem parse_eq_error_iff {p q : Parser} {e : ParseError} :
    p.parse = (.error e, q) ↔ ∃ c, e = c.error q ∧ p.Rejects c q := by
  rw [parse_eq]
  constructor
  · exact fun h => rejects_of_parseAll (Step.outcome_eq_error h)
  · rintro ⟨c, rfl, h⟩
    rw [h.parseAll]
    rfl

/-- The error alone, without the state that is left. -/
theorem parse_fst_eq_error_iff {p : Parser} {e : ParseError} :
    p.parse.1 = .error e ↔ ∃ c q, e = c.error q ∧ p.Rejects c q := by
  constructor
  · intro h
    rcases hparse : p.parse with ⟨answer, q⟩
    obtain rfl : answer = .error e := by rwa [hparse] at h
    obtain ⟨c, he, hrejects⟩ := parse_eq_error_iff.mp hparse
    exact ⟨c, q, he, hrejects⟩
  · rintro ⟨c, q, rfl, h⟩
    rw [parse_eq_error_iff.mpr ⟨c, rfl, h⟩]

/-! ## Illegal tokens -/

theorem not_canAdvance {p : Parser} (h : ¬ p.CanAdvance) : p.advance.peek.kind = .illegal :=
  Decidable.not_not.mp h

/-- An illegal token is reported where it is ahead. -/
theorem Stuck.peek_illegal {rule : Rule} {p q : Parser} (h : Stuck rule p .illegal q) :
    q.peek.kind = .illegal := by
  cases h with
  | opened h hd hp => exact not_canAdvance hp
  | passed h hp => exact not_canAdvance hp
  | closed h hp he hk hq => exact not_canAdvance hq
  | named h hp hk hq => exact not_canAdvance hq

theorem Fails.peek_illegal {rule : Rule} {p q : Parser} (h : Fails rule p .illegal q) :
    q.peek.kind = .illegal := by
  generalize hc : Cause.illegal = c at h
  induction h with
  | here h => exact (hc ▸ h).peek_illegal
  | call h hf ih => exact ih hc

theorem Rejects.peek_illegal {p q : Parser} (h : p.Rejects .illegal q) :
    q.peek.kind = .illegal := by
  cases h with
  | illegal h => exact h
  | inside h hf => exact hf.peek_illegal

end Parser

end Reckon
