import Reckon.Proofs.Parsing.Progress

/-!
# The acts of a run

What a run does on its way does not depend on what it amounts to. For each rule and state there is a
list of acts (`Rule.acts`, what is listed if the acts are), and with any effects the rule performs
the acts of this list, one after the other, and then ends as without effects
(`Effects.run_eq_replay`). The effects must only decode the tokens that are left as they are.

Two things are known of the list. Each level that is left is deeper than the depth at the start, so
it has been entered since. And a token is scanned whenever one is passed, so what is scanned is what
the parser has ahead after each of its steps.
-/

namespace Reckon

/-! ## Lists of acts -/

/-- The tokens that are scanned. -/
def Act.tokens (acts : List Act) : List Token :=
  acts.filterMap fun
    | .scan t => some t
    | .leave _ => none

theorem Act.tokens_append (acts acts' : List Act) :
    Act.tokens (acts ++ acts') = Act.tokens acts ++ Act.tokens acts' := List.filterMap_append

namespace Effects

variable {m : Type → Type} [Monad m] {α β : Type}

/-- Performs the acts, one after the other, and hands out the value. -/
def replay (fx : Effects m) (acts : List Act) (a : α) : m α := do
  forM acts fx.perform
  return a

/-- The tokens that are left are decoded as they are. -/
def DecodesFrom (fx : Effects m) (p : Parser) : Prop :=
  ∀ t ∈ p.tokens, t.kind.isOperand = true → fx.decode t = pure (Expr.ofToken t)

theorem DecodesFrom.onward {fx : Effects m} {p q : Parser} (h : fx.DecodesFrom p)
    (hq : Parser.Onward p q) : fx.DecodesFrom q :=
  fun t ht => h t (hq.suffix.mem ht)

variable [LawfulMonad m] (fx : Effects m) {acts acts' : List Act}

theorem replay_nil (a : α) : fx.replay [] a = pure a := by simp [replay]

theorem replay_cons (act : Act) (a : α) :
    fx.replay (act :: acts) a = (do fx.perform act; fx.replay acts a) := by simp [replay]

theorem replay_singleton (act : Act) (a : α) :
    fx.replay [act] a = (do fx.perform act; return a) := by simp [replay]

theorem map_replay (f : α → β) (a : α) : f <$> fx.replay acts a = fx.replay acts (f a) := by
  simp [replay]

section

variable {n l : Nat} {k : α → (p : Parser) → p.tokens.length ≤ n → m (Step β l)}

theorem andThen_replay_fail (e : ParseError) (p : Parser) :
    andThen (fx.replay acts (.fail e p)) k = fx.replay acts (.fail e p) := by
  simp [andThen, replay]

theorem andThen_replay_done {a : α} {p : Parser} {le : p.tokens.length ≤ n} {t : Step β l}
    (hk : k a p le = fx.replay acts' t) :
    andThen (fx.replay acts (.done a p le)) k = fx.replay (acts ++ acts') t := by
  simp [andThen, replay, hk, List.forM_append]

end

/-- Acts that amount to nothing leave the value alone. -/
theorem replay_eq_pure (a : α) (h : ∀ act ∈ acts, fx.perform act = pure ()) :
    fx.replay acts a = pure a := by
  induction acts with
  | nil => exact fx.replay_nil a
  | cons act acts ih =>
    rw [replay_cons, h act List.mem_cons_self, pure_bind]
    exact ih fun act' hact => h act' (List.mem_cons_of_mem _ hact)

end Effects

/-! ## Tokens ahead -/

/-- The state that a step leaves. -/
def Step.state {α : Type} {n : Nat} (s : Step α n) : Parser := s.outcome.2

namespace Parser

/-- The tokens behind the one ahead, the end of the source included. -/
def unscanned (p : Parser) : List Token := (p.tokens ++ [Scanner.eofAt p.stop]).tail

theorem peek_cons_unscanned (p : Parser) :
    p.peek :: p.unscanned = p.tokens ++ [Scanner.eofAt p.stop] := by
  unfold peek unscanned
  cases p.tokens <;> rfl

theorem tokens_eq_cons {p : Parser} (h : 0 < p.tokens.length) :
    p.tokens = p.peek :: p.advance.tokens := by
  unfold peek advance
  cases htokens : p.tokens with
  | nil =>
    rw [htokens] at h
    cases h
  | cons t ts => rfl

/-- The token that comes ahead is the next one to be scanned. -/
theorem unscanned_of_pos {p : Parser} (h : 0 < p.tokens.length) :
    p.unscanned = p.advance.peek :: p.advance.unscanned := by
  rw [peek_cons_unscanned, unscanned, tokens_eq_cons h]
  rfl

theorem state_enter (p : Parser) : p.enter.state = p.deeper := by
  unfold enter Step.state
  dsimp only
  split <;> rfl

theorem state_bump (p : Parser) : p.bump.state = p.advance := by
  by_cases h : p.CanAdvance
  · obtain ⟨_, hbump⟩ := bump_of_canAdvance h
    rw [hbump]
    rfl
  · rw [bump_of_not_canAdvance h]
    rfl

end Parser

/-! ## One run with any effects -/

open Reckon.Parser (Rule Onward)
open Effects (silent recording andThen weaken)

section

variable {m : Type → Type} [Monad m] {α β : Type} {n l d d' : Nat} {p : Parser}

/-- One step, taken three times: the acts are listed, they amount to something, and they amount to
nothing. The step starts in the state `p`, and every level that it leaves is deeper than `d`. -/
structure Traces (fx : Effects m) (d : Nat) (p : Parser) (r : Reported Act (Step α n))
    (s : m (Step α n)) (t : Step α n) : Prop where
  value : r.value = t
  replays : s = fx.replay r.reports t
  above : ∀ q, .leave q ∈ r.reports → d < q.depth
  scans : p.unscanned = Act.tokens r.reports ++ t.state.unscanned
  onward : Onward p t.state

variable {fx : Effects m}

namespace Traces

variable {r : Reported Act (Step α n)} {s : m (Step α n)} {t : Step α n}

theorem mono (h : Traces fx d p r s t) (hd : d' ≤ d) : Traces fx d' p r s t :=
  { h with above := fun q hq => Nat.lt_of_le_of_lt hd (h.above q hq) }

variable [LawfulMonad m]

/-- A step without acts. -/
theorem pure (t : Step α n) (h : Onward p t.state) (hs : p.unscanned = t.state.unscanned) :
    Traces fx d p (Pure.pure t) (Pure.pure t) t :=
  ⟨rfl, (fx.replay_nil t).symm, fun _ hq => (nomatch hq), hs, h⟩

theorem weaken {hle : n ≤ l} (h : Traces fx d p r s t) :
    Traces fx d p (Effects.weaken hle r) (Effects.weaken hle s) (Step.weaken hle t) := by
  have hstate : (Step.weaken hle t).state = t.state := by cases t <;> rfl
  have hreports : (Effects.weaken hle r).reports = r.reports := List.append_nil r.reports
  refine ⟨congrArg (Step.weaken hle) h.value, ?_, fun q hq => ?_, ?_, ?_⟩
  · rw [hreports, Effects.weaken, h.replays, Effects.map_replay]
  · rw [hreports] at hq
    exact h.above q hq
  · rw [hreports, hstate]
    exact h.scans
  · rw [hstate]
    exact h.onward

/-- One step after the other. The tokens that are left behind the first one are decoded as they are,
too. -/
theorem andThen {k₁ : α → (p : Parser) → p.tokens.length ≤ n → Reported Act (Step β l)}
    {k₂ : α → (p : Parser) → p.tokens.length ≤ n → m (Step β l)}
    {k₃ : α → (p : Parser) → p.tokens.length ≤ n → Id (Step β l)} (hfx : fx.DecodesFrom p)
    (h : Traces fx d p r s t)
    (hk : ∀ a q le, t = .done a q le → fx.DecodesFrom q →
      Traces fx d q (k₁ a q le) (k₂ a q le) (k₃ a q le)) :
    Traces fx d p (Effects.andThen r k₁) (Effects.andThen s k₂)
      (Effects.andThen (m := Id) t k₃) := by
  obtain ⟨acts, u⟩ := r
  obtain rfl : u = t := h.value
  cases u with
  | fail e q =>
    have hlist : Effects.andThen ⟨acts, .fail e q⟩ k₁ = ⟨acts, .fail e q⟩ :=
      congrArg (Reported.mk · _) (List.append_nil acts)
    rw [hlist, h.replays]
    exact ⟨rfl, fx.andThen_replay_fail e q, h.above, h.scans, h.onward⟩
  | done a q le =>
    have hrest := hk a q le rfl (hfx.onward h.onward)
    refine ⟨hrest.value, ?_, fun r hr => ?_, ?_, h.onward.trans hrest.onward⟩
    · rw [h.replays]
      exact fx.andThen_replay_done hrest.replays
    · rcases List.mem_append.mp hr with hr | hr
      · exact h.above r hr
      · exact hrest.above r hr
    · refine h.scans.trans ?_
      show Act.tokens acts ++ q.unscanned = Act.tokens (acts ++ (k₁ a q le).reports) ++ _
      rw [Act.tokens_append, List.append_assoc]
      exact congrArg _ hrest.scans

/-! ### Single steps -/

theorem enter (p : Parser) :
    Traces fx d p (Pure.pure p.enter) (Pure.pure p.enter) (Pure.pure p.enter : Id _) := by
  refine .pure p.enter ?_ ?_
  · rw [p.state_enter]
    exact (Onward.refl p).set_depth _
  · rw [p.state_enter]
    rfl

theorem bump (h : 0 < p.tokens.length) :
    Traces fx d p (recording.bump p) (fx.bump p) (silent.bump p) := by
  have hstate : Step.state (silent.bump p) = p.advance := p.state_bump
  refine ⟨rfl, (fx.replay_singleton _ _).symm, fun q hq => ?_, ?_, ?_⟩
  · cases hq with
    | tail _ h => cases h
  · rw [hstate]
    exact Parser.unscanned_of_pos h
  · rw [hstate]
    exact (Onward.refl p).advance

/-- A rule that opens a level enters it and passes the token ahead. -/
theorem opens
    {k₁ : (q : Parser) → q.tokens.length ≤ p.tokens.length → Token → (r : Parser) →
      r.tokens.length ≤ q.tokens.length - 1 → Reported Act (Step α n)}
    {k₂ : (q : Parser) → q.tokens.length ≤ p.tokens.length → Token → (r : Parser) →
      r.tokens.length ≤ q.tokens.length - 1 → m (Step α n)}
    {k₃ : (q : Parser) → q.tokens.length ≤ p.tokens.length → Token → (r : Parser) →
      r.tokens.length ≤ q.tokens.length - 1 → Id (Step α n)}
    (hfx : fx.DecodesFrom p) (h : 0 < p.tokens.length)
    (hk : ∀ le t le', fx.DecodesFrom p.deeper.advance →
      Traces fx d p.deeper.advance (k₁ p.deeper le t p.deeper.advance le')
        (k₂ p.deeper le t p.deeper.advance le') (k₃ p.deeper le t p.deeper.advance le')) :
    Traces fx d p
      (Effects.andThen (Pure.pure p.enter) fun _ q hq =>
        Effects.andThen (recording.bump q) (k₁ q hq))
      (Effects.andThen (Pure.pure p.enter) fun _ q hq => Effects.andThen (fx.bump q) (k₂ q hq))
      (Effects.andThen (m := Id) p.enter fun _ q hq =>
        Effects.andThen (m := Id) (silent.bump q) (k₃ q hq)) := by
  refine .andThen hfx (.enter p) fun _ q _ henter hfx => ?_
  obtain ⟨-, rfl⟩ := Parser.enter_eq_done henter
  refine .andThen hfx (.bump h) fun t q _ hbump hfx => ?_
  obtain ⟨-, -, rfl⟩ := Parser.bump_eq_done hbump
  exact hk _ t _ hfx

theorem expect {k : TokenKind} (hk : k ≠ .eof) (x : Expected) :
    Traces fx d p (recording.expect p k x) (fx.expect p k x) (silent.expect p k x) := by
  unfold Effects.expect
  split
  next h => exact bump (Parser.tokens_pos_of_kind h hk)
  · exact .pure _ (.refl p) rfl

/-- A level is left, which there is. -/
theorem leave (h : d < p.depth) :
    Traces fx d p (recording.leave p) (fx.leave p) (silent.leave p) := by
  refine ⟨rfl, (fx.replay_singleton _ _).symm, fun q hq => ?_, rfl, (Onward.refl p).set_depth _⟩
  cases hq with
  | head => exact h
  | tail _ h => cases h

theorem parseToken (hfx : fx.DecodesFrom p) (h : p.peek.kind.isOperand = true) :
    Traces fx d p (recording.parseToken p) (fx.parseToken p) (silent.parseToken p) := by
  have hpos := Parser.tokens_pos_of_isOperand h
  refine .andThen hfx (.bump hpos) fun t q le hbump _ => ?_
  obtain ⟨-, rfl, rfl⟩ := Parser.bump_eq_done hbump
  have hmem : p.peek ∈ p.tokens := Parser.tokens_eq_cons hpos ▸ List.mem_cons_self
  have hrecording : recording.decode p.peek = Pure.pure (Expr.ofToken p.peek) := rfl
  rw [hrecording, hfx _ hmem h, Parser.silent_decode rfl, pure_bind, pure_bind, pure_bind]
  cases Expr.ofToken p.peek with
  | error e => exact .pure _ (.refl _) rfl
  | ok e => exact .pure _ (.refl _) rfl

end Traces

/-- **The rule traces its acts.** -/
theorem traces (fx : Effects m) [LawfulMonad m] (rule : Rule) (p : Parser)
    (hfx : fx.DecodesFrom p) :
    Traces fx p.depth p (recording.run rule p) (fx.run rule p) (rule.step p) := by
  rw [Rule.step]
  induction rule, p using Rule.induction with
  | binary bound p ihu ihr =>
    simp only [Effects.run_binary]
    refine .andThen hfx (ihu hfx) fun l q hq hl hfx => ?_
    have hdepth : q.depth = p.depth := (Rule.runs .unary _ _ _ _ hl).levels
    refine .andThen hfx ((ihr l q hq hfx).mono (Nat.le_of_eq hdepth.symm)) fun e r _ _ _ => ?_
    exact .pure _ ((Onward.refl r).set_depth _) rfl
  | rowEnd bound l p hnone =>
    simp only [Effects.run_rowEnd _ hnone]
    exact .pure _ (.refl p) rfl
  | rowFold bound l p op hop ihr ihs =>
    simp only [Effects.run_rowFold _ hop]
    have hpos := Parser.tokens_pos_of_binary hop
    refine .opens hfx hpos fun _ _ _ hfx => ?_
    refine .andThen hfx ((ihr hfx).mono (Nat.le_succ _)) fun right s hs hright hfx => ?_
    have hdepth : s.depth = p.depth + 1 := (Rule.runs (.binary op.rank) _ _ _ _ hright).levels
    exact ((ihs right s hs hfx).mono (by omega)).weaken
  | plain p hnone ih =>
    simp only [Effects.run_plain _ hnone]
    exact ih hfx
  | unary p op hop ih =>
    simp only [Effects.run_unary _ hop]
    have hpos := Parser.tokens_pos_of_unary hop
    refine .opens hfx hpos fun _ _ _ hfx => ?_
    refine .andThen hfx ((ih hfx).mono (Nat.le_succ _)) fun e s _ hs hfx => ?_
    have hdepth : s.depth = p.depth + 1 := (Rule.runs .unary _ _ _ _ hs).levels
    refine .andThen hfx (.leave (by omega)) fun _ r _ _ _ => ?_
    exact .pure _ (.refl r) rfl
  | paren p hk ihe iht =>
    simp only [Effects.run_paren _ hk]
    have hpos := Parser.tokens_pos_of_kind hk (by decide)
    refine .opens hfx hpos fun _ _ _ hfx => ?_
    refine .andThen hfx ((ihe hfx).mono (Nat.le_succ _)) fun e s hs he hfx => ?_
    have hdepth : s.depth = p.depth + 1 :=
      (Rule.runs (.binary BinaryOp.loosest) _ _ _ _ he).levels
    refine .andThen hfx (.expect (by decide) _) fun _ t _ hexpect hfx => ?_
    obtain ⟨-, -, -, rfl⟩ := Parser.expect_eq_done hexpect
    refine .andThen hfx (.leave (Nat.lt_of_lt_of_eq (Nat.lt_succ_self _) hdepth.symm))
      fun _ u _ hleave hfx => ?_
    obtain ⟨-, rfl⟩ := Step.done.inj hleave
    have hback : s.advance.leave.depth = p.depth := congrArg (· - 1) hdepth
    exact ((iht e s hs hfx).mono (Nat.le_of_eq hback.symm)).weaken
  | token p h ih =>
    simp only [Effects.run_token _ h]
    refine .andThen hfx (.parseToken hfx h) fun e q _ htoken hfx => ?_
    obtain ⟨-, -, rfl⟩ := Parser.parseToken_eq_done htoken
    exact (ih e hfx).weaken
  | noOperand p hk h =>
    simp only [Effects.run_noOperand _ hk h]
    exact .pure _ (.refl p) rfl
  | index base p hk ih =>
    simp only [Effects.run_index _ hk]
    have hpos := Parser.tokens_pos_of_kind hk (by decide)
    refine .andThen hfx (.bump hpos) fun _ q _ hbump hfx => ?_
    obtain ⟨-, -, rfl⟩ := Parser.bump_eq_done hbump
    refine .andThen hfx (.enter _) fun _ q _ henter hfx => ?_
    obtain ⟨-, rfl⟩ := Parser.enter_eq_done henter
    have hindex : Traces fx p.depth p.deeper.advance _ _ _ := (ih hfx).mono (Nat.le_succ _)
    refine .andThen hfx hindex fun i s hs hi hfx => ?_
    have hdepth : s.depth = p.depth + 1 :=
      (Rule.runs (.binary BinaryOp.loosest) _ _ _ _ hi).levels
    refine .andThen hfx (.expect (by decide) _) fun _ t _ hexpect hfx => ?_
    obtain ⟨-, -, -, rfl⟩ := Parser.expect_eq_done hexpect
    refine .andThen hfx (.leave (Nat.lt_of_lt_of_eq (Nat.lt_succ_self _) hdepth.symm))
      fun _ u _ _ _ => ?_
    exact .pure _ (.refl u) rfl
  | member base p hdot =>
    simp only [Effects.run_member _ hdot]
    have hpos := Parser.tokens_pos_of_kind hdot (by decide)
    refine .andThen hfx (.bump hpos) fun _ q _ _ hfx => ?_
    refine .andThen hfx (.expect (by decide) _) fun name r _ _ _ => ?_
    exact .pure _ (.refl r) rfl
  | bare base p hb hd =>
    simp only [Effects.run_bare _ hb hd]
    exact .pure _ (.refl p) rfl

theorem traces_parseAll (fx : Effects m) [LawfulMonad m] (p : Parser) (hfx : fx.DecodesFrom p) :
    Traces fx p.depth p (recording.parseAll p) (fx.parseAll p) p.parseAll := by
  have hreject : p.rejectIllegal.state = p := by
    unfold Parser.rejectIllegal
    split <;> rfl
  refine .andThen hfx (.pure p.rejectIllegal ?_ ?_) fun _ q _ hq hfx => ?_
  · rw [hreject]
    exact .refl p
  · rw [hreject]
  obtain ⟨-, rfl⟩ := Parser.rejectIllegal_eq_done hq
  refine .andThen hfx (traces fx (.binary BinaryOp.loosest) _ hfx) fun e r _ _ _ => ?_
  split
  · exact .pure _ (.refl r) rfl
  · exact .pure _ (.refl r) rfl

end

/-! ## The acts of a run -/

namespace Parser

/-- The acts of the rule, in their order. -/
def Rule.acts (rule : Rule) (p : Parser) : List Act := (recording.run rule p).reports

/-- The acts of parsing a whole expression, in their order. -/
def acts (p : Parser) : List Act := (recording.parseAll p).reports

variable {p q : Parser} {rule : Rule}

theorem decodesFrom_silent (p : Parser) : silent.DecodesFrom p := fun _ _ _ => rfl

/-- **A level that is left has been entered since the start.** -/
theorem Rule.lt_depth_of_leave (h : .leave q ∈ rule.acts p) : p.depth < q.depth :=
  (traces silent rule p (decodesFrom_silent p)).above q h

theorem lt_depth_of_leave (h : .leave q ∈ p.acts) : p.depth < q.depth :=
  (traces_parseAll silent p (decodesFrom_silent p)).above q h

/-- **What is scanned is what comes ahead.** -/
theorem unscanned_eq (p : Parser) : p.unscanned = Act.tokens p.acts ++ p.parse.2.unscanned :=
  (traces_parseAll silent p (decodesFrom_silent p)).scans

end Parser

namespace Effects

variable {m : Type → Type} [Monad m] [LawfulMonad m] {fx : Effects m} {p : Parser}

/-- **With any effects, a rule performs its acts and ends as without effects.** -/
theorem run_eq_replay (hfx : fx.DecodesFrom p) (rule : Rule) :
    fx.run rule p = fx.replay (rule.acts p) (rule.step p) :=
  (traces fx rule p hfx).replays

theorem parse_eq_replay (hfx : fx.DecodesFrom p) : fx.parse p = fx.replay p.acts p.parse := by
  rw [Effects.parse, (traces_parseAll fx p hfx).replays, map_replay]
  rfl

end Effects

end Reckon
