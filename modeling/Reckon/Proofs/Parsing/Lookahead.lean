import Reckon.Proofs.Parsing.Complete
import Reckon.Proofs.Parsing.Progress

/-!
# What a run depends on

A run looks at the words up to the one that is ahead where it ends, and at how many levels there is
room for. Another state that agrees on these words (`Agree`) and has as much room (`Roomier`) runs
in the same way: it accepts the same expression, or fails for the same cause, and is left in a
state that agrees with the other one again (`Parses.transfer`, `Rejects.transfer`). A run that
finds no room is one of them only if there is no more room in the other state; otherwise it may go
on there.
-/

namespace Reckon.Parser

/-! ## Agreement -/

/-- The words that are left, with the end of the source. -/
def stream (p : Parser) : List Word := p.words ++ [(.eof, "")]

/-- The words of the two states agree up to the one that is ahead when `n` tokens are left in the
first state and `m` in the second. -/
structure Agree (n m : Nat) (p p' : Parser) : Prop where
  le : n ≤ p.tokens.length
  length : p.tokens.length + m = p'.tokens.length + n
  take : p.stream.take (p.tokens.length - n + 1) = p'.stream.take (p.tokens.length - n + 1)

/-- There is room for as many levels in the state `p'` as in `p`, or for more. -/
def Roomier (p p' : Parser) : Prop := p.limit - p.depth ≤ p'.limit - p'.depth

theorem stream_eq (p : Parser) : p.stream = p.peek.word :: p.stream.tail := by
  unfold stream words peek
  cases p.tokens with
  | nil => rfl
  | cons t ts => rfl

theorem stream_advance {p : Parser} (h : 0 < p.tokens.length) :
    p.advance.stream = p.stream.tail := by
  unfold stream words advance
  cases hp : p.tokens with
  | nil => rw [hp] at h; cases h
  | cons t ts => rfl

theorem length_stream (p : Parser) : p.stream.length = p.tokens.length + 1 := by
  simp [stream, words]

/-- States agree where the words of one that are looked at start those of the other. -/
theorem agree_of_prefix {p p' : Parser} {n : Nat} (hn : n ≤ p.tokens.length)
    (h : p.stream.take (p.tokens.length - n + 1) <+: p'.stream) : ∃ m, Agree n m p p' := by
  have hlength := h.length_le
  rw [List.length_take, length_stream, length_stream] at hlength
  refine ⟨p'.tokens.length - (p.tokens.length - n), hn, by omega, ?_⟩
  have htake := List.prefix_iff_eq_take.mp h
  rwa [List.length_take, length_stream, Nat.min_eq_left (by omega)] at htake

namespace Agree

variable {n m : Nat} {p p' q q' : Parser}

theorem congr (h : Agree n m p p') (hq : q.tokens = p.tokens) (hq' : q'.tokens = p'.tokens) :
    Agree n m q q' := by
  have hstream : q.stream = p.stream := by rw [stream, words, hq]; rfl
  have hstream' : q'.stream = p'.stream := by rw [stream, words, hq']; rfl
  exact ⟨hq ▸ h.le, by rw [hq, hq']; exact h.length, by rw [hq, hstream, hstream']; exact h.take⟩

theorem word (h : Agree n m p p') : p'.peek.word = p.peek.word := by
  have htake := h.take
  rw [stream_eq p, stream_eq p', List.take_succ_cons, List.take_succ_cons] at htake
  exact (List.cons.inj htake).1.symm

theorem kind (h : Agree n m p p') : p'.peek.kind = p.peek.kind := congrArg Prod.fst h.word

theorem lexeme (h : Agree n m p p') : p'.peek.lexeme = p.peek.lexeme := congrArg Prod.snd h.word

/-- Past a token that is not the last one looked at, the words agree again. -/
theorem advance (h : Agree n m p p') (hn : n ≤ p.advance.tokens.length)
    (hpos : 0 < p.tokens.length) : Agree n m p.advance p'.advance := by
  have hlength := p.length_advance
  have hlength' := p'.length_advance
  have hsum := h.length
  have htake := h.take
  refine ⟨hn, by omega, ?_⟩
  rw [stream_eq p, stream_eq p', List.take_succ_cons, List.take_succ_cons] at htake
  rw [stream_advance hpos, stream_advance (by omega),
    show p.advance.tokens.length - n + 1 = p.tokens.length - n by omega]
  exact (List.cons.inj htake).2

theorem canAdvance (h : Agree n m p p') (hn : n ≤ p.advance.tokens.length)
    (hpos : 0 < p.tokens.length) : p'.CanAdvance ↔ p.CanAdvance := by
  rw [CanAdvance, CanAdvance, (h.advance hn hpos).kind]

/-- A token of a certain kind that may be passed in one state may be passed in the other. -/
theorem pass {k : TokenKind} (h : Agree n m p p') (hk : p.peek.kind = k) (he : k ≠ .eof)
    (hp : p.CanAdvance) (hn : n ≤ p.advance.tokens.length) :
    p'.peek.kind = k ∧ p'.CanAdvance ∧ Agree n m p.advance p'.advance :=
  have hpos := tokens_pos_of_kind hk he
  ⟨h.kind.trans hk, (h.canAdvance hn hpos).mpr hp, h.advance hn hpos⟩

theorem binaryAhead? (h : Agree n m p p') (bound : Nat) :
    p'.binaryAhead? bound = p.binaryAhead? bound := by
  rw [Parser.binaryAhead?, Parser.binaryAhead?, h.kind]

theorem unaryAhead? (h : Agree n m p p') : p'.unaryAhead? = p.unaryAhead? := by
  rw [Parser.unaryAhead?, Parser.unaryAhead?, h.kind]

theorem opens {rule : Rule} (h : Agree n m p p') (ho : rule.Opens p) : rule.Opens p' := by
  cases ho with
  | row ho => exact .row ((h.binaryAhead? _).trans ho)
  | unary ho => exact .unary (h.unaryAhead?.trans ho)
  | paren ho => exact .paren (h.kind.trans ho)

theorem passes {rule : Rule} (h : Agree n m p p') (hp : rule.Passes p) : rule.Passes p' := by
  cases hp with
  | token hp => exact .token (h.kind ▸ hp)
  | index hp => exact .index (h.kind.trans hp)
  | member hp => exact .member (h.kind.trans hp)

theorem encloses {rule : Rule} {s : Symbol} (h : Agree n m p p') (he : rule.Encloses p s) :
    rule.Encloses p' s := by
  cases he with
  | paren he => exact .paren (h.kind.trans he)
  | index he => exact .index (h.kind.trans he)

end Agree

namespace Roomier

variable {p p' q q' : Parser}

/-- Where depths and limits are what they were, there is as much room as before. -/
theorem congr (h : Roomier p p') (hd : q.depth = p.depth) (hl : q.limit = p.limit)
    (hd' : q'.depth = p'.depth) (hl' : q'.limit = p'.limit) : Roomier q q' := by
  rw [Roomier, hd, hl, hd', hl']
  exact h

theorem deeper_advance (h : Roomier p p') : Roomier p.deeper.advance p'.deeper.advance := by
  show p.limit - (p.depth + 1) ≤ p'.limit - (p'.depth + 1)
  rw [Roomier] at h
  omega

end Roomier

/-- A level that is opened in one state is opened in the other. -/
theorem Agree.opened {n m : Nat} {p p' : Parser} (h : Agree n m p p') (hr : Roomier p p')
    (hp : p.CanOpen) (hpos : 0 < p.tokens.length) (hn : n ≤ p.advance.tokens.length) :
    p'.CanOpen ∧ Agree n m p.deeper.advance p'.deeper.advance ∧
      Roomier p.deeper.advance p'.deeper.advance := by
  refine ⟨⟨?_, (h.canAdvance hn hpos).mpr hp.2⟩, (h.advance hn hpos).congr rfl rfl,
    hr.deeper_advance⟩
  have hlt := hp.1
  rw [Roomier] at hr
  omega

theorem le_of_advance {n : Nat} {p : Parser} (h : n ≤ p.advance.tokens.length) :
    n ≤ p.tokens.length := Nat.le_trans h (Onward.refl p).advance.length_le

/-! ## Runs that accept -/

/-- A run leaves as much room as it found. -/
theorem Parses.roomier {rule rule' : Rule} {p p' q q' : Parser} {e e' : Expr}
    (h : Parses rule p e q) (h' : Parses rule' p' e' q') (hd : q.depth = p.depth)
    (hd' : q'.depth = p'.depth) (hr : Roomier p p') : Roomier q q' :=
  hr.congr hd h.onward.limit hd' h'.onward.limit

/-- Behind a closing symbol there is as much room as in front of the opening one. -/
theorem Parses.roomier_closed {bound : Nat} {p p' q q' : Parser} {e e' : Expr}
    (h : Parses (.binary bound) p.deeper.advance e q)
    (h' : Parses (.binary bound) p'.deeper.advance e' q') (hr : Roomier p p') :
    Roomier q.advance.leave q'.advance.leave :=
  hr.congr (congrArg (· - 1) h.levels) h.onward.limit (congrArg (· - 1) h'.levels) h'.onward.limit

/--
**A run goes the same way wherever the words that it looks at are the same and there is as much
room.**
-/
theorem Parses.transfer {rule : Rule} {p q : Parser} {e : Expr} (h : Parses rule p e q) :
    ∀ {n m : Nat} {p' : Parser}, n ≤ q.tokens.length → Agree n m p p' → Roomier p p' →
      ∃ q', Parses rule p' e q' ∧ Agree n m q q' := by
  induction h with
  | binary hu hr ihu ihr =>
    intro n m p' hn ha hroom
    obtain ⟨q', hu', hq⟩ := ihu (Nat.le_trans hn hr.onward.length_le) ha hroom
    obtain ⟨r', hr', har⟩ := ihr hn hq (hu.roomier hu' hu.levels hu'.levels hroom)
    exact ⟨_, .binary hu' hr', har.congr rfl rfl⟩
  | rowEnd h =>
    intro n m p' hn ha hroom
    exact ⟨p', .rowEnd ((ha.binaryAhead? _).trans h), ha⟩
  | @rowFold bound p q s l r e op h hp hr hs ihr ihs =>
    intro n m p' hn ha hroom
    have hq : n ≤ q.tokens.length := Nat.le_trans hn hs.onward.length_le
    obtain ⟨hp', hap, hroomp⟩ := ha.opened hroom hp (tokens_pos_of_binary h)
      (Nat.le_trans hq hr.onward.length_le)
    obtain ⟨q', hr', haq⟩ := ihr hq hap hroomp
    obtain ⟨s', hs', has⟩ := ihs hn haq (hr.roomier hr' hr.levels hr'.levels hroomp)
    exact ⟨s', .rowFold ((ha.binaryAhead? _).trans h) hp' hr' hs', has⟩
  | plain h ho ih =>
    intro n m p' hn ha hroom
    obtain ⟨q', ho', hq⟩ := ih hn ha hroom
    exact ⟨q', .plain (ha.unaryAhead?.trans h) ho', hq⟩
  | @unary p q e op h hp hu ih =>
    intro n m p' hn ha hroom
    obtain ⟨hp', hap, hroomp⟩ := ha.opened hroom hp (tokens_pos_of_unary h)
      (Nat.le_trans hn hu.onward.length_le)
    obtain ⟨q', hu', haq⟩ := ih hn hap hroomp
    exact ⟨_, .unary (ha.unaryAhead?.trans h) hp' hu', haq.congr rfl rfl⟩
  | @paren p q s e t h hp he hk hq ht ihe iht =>
    intro n m p' hn ha hroom
    have hclose : n ≤ q.advance.tokens.length := Nat.le_trans hn ht.onward.length_le
    obtain ⟨hp', hap, hroomp⟩ := ha.opened hroom hp (tokens_pos_of_kind h (by decide))
      (Nat.le_trans (le_of_advance hclose) he.onward.length_le)
    obtain ⟨q', he', haq⟩ := ihe (le_of_advance hclose) hap hroomp
    obtain ⟨hk', hq', hclosed⟩ := haq.pass hk (by decide) hq hclose
    have hbehind : Agree n m q.advance.leave q'.advance.leave := hclosed.congr rfl rfl
    obtain ⟨s', ht', has⟩ := iht hn hbehind (he.roomier_closed he' hroom)
    exact ⟨s', .paren (ha.kind.trans h) hp' he' hk' hq' ht', has⟩
  | @token p s e t h hp he ht ih =>
    intro n m p' hn ha hroom
    have hpos := tokens_pos_of_isOperand h
    have hadvance : n ≤ p.advance.tokens.length := Nat.le_trans hn ht.onward.length_le
    obtain ⟨s', ht', has⟩ := ih hn (ha.advance hadvance hpos) (hroom.congr rfl rfl rfl rfl)
    exact ⟨s', .token (ha.kind ▸ h) ((ha.canAdvance hadvance hpos).mpr hp)
      ((ofToken_of_word ha.word).trans he) ht', has⟩
  | @index p q b i h hp hi hk hq ih =>
    intro n m p' hn ha hroom
    have hclose : n ≤ q.advance.tokens.length := hn
    obtain ⟨hp', hap, hroomp⟩ := ha.opened hroom hp (tokens_pos_of_kind h (by decide))
      (Nat.le_trans (le_of_advance hclose) hi.onward.length_le)
    obtain ⟨q', hi', haq⟩ := ih (le_of_advance hclose) hap hroomp
    obtain ⟨hk', hq', hclosed⟩ := haq.pass hk (by decide) hq hclose
    exact ⟨_, .index (ha.kind.trans h) hp' hi' hk' hq', hclosed.congr rfl rfl⟩
  | @member p b h hp hk hq =>
    intro n m p' hn ha hroom
    obtain ⟨h', hp', hname⟩ := ha.pass h (by decide) hp (le_of_advance hn)
    obtain ⟨hk', hq', hbehind⟩ := hname.pass hk (by decide) hq hn
    -- a member is named by the text of its token, not by the token
    have hrun := Parses.member (b := b) h' hp' hk' hq'
    rw [hname.lexeme] at hrun
    exact ⟨_, hrun, hbehind⟩
  | bare hb hd =>
    intro n m p' hn ha hroom
    exact ⟨p', .bare (ha.kind ▸ hb) (ha.kind ▸ hd), ha⟩

/-! ## Runs that fail -/

/-- From `p` to `q` the depth has risen by as much as from `p'` to `q'`. -/
def Rises (p p' q q' : Parser) : Prop := ∃ k, q.depth = p.depth + k ∧ q'.depth = p'.depth + k

namespace Rises

variable {p p' q q' r r' : Parser}

theorem of_eq (hd : q.depth = p.depth) (hd' : q'.depth = p'.depth) : Rises p p' q q' :=
  ⟨0, hd, hd'⟩

/-- One level has been opened. -/
theorem of_deeper (hd : q.depth = p.depth + 1) (hd' : q'.depth = p'.depth + 1) :
    Rises p p' q q' := ⟨1, hd, hd'⟩

theorem trans (h : Rises p p' q q') (h' : Rises q q' r r') : Rises p p' r r' := by
  obtain ⟨k, hd, hd'⟩ := h
  obtain ⟨l, hl, hl'⟩ := h'
  exact ⟨k + l, by omega, by omega⟩

/-- As many levels are lost on both sides. -/
theorem roomier (h : Rises p p' q q') (hq : q.limit = p.limit) (hq' : q'.limit = p'.limit)
    (hr : Roomier p p') : Roomier q q' := by
  obtain ⟨k, hd, hd'⟩ := h
  rw [Roomier] at hr ⊢
  omega

theorem symm (h : Rises p p' q q') : Rises p' p q' q := by
  obtain ⟨k, hd, hd'⟩ := h
  exact ⟨k, hd', hd⟩

end Rises

section

variable {rule rule' : Rule} {n m : Nat} {p p' q r : Parser} {c : Cause}

theorem Calls.transfer (h : Calls rule p rule' r) (hn : n ≤ r.tokens.length) (ha : Agree n m p p')
    (hroom : Roomier p p') : ∃ r', Calls rule p' rule' r' ∧ Agree n m r r' ∧ Rises p p' r r' := by
  cases h with
  | first => exact ⟨p', .first, ha, .of_eq rfl rfl⟩
  | row hu =>
    obtain ⟨q', hu', hq⟩ := hu.transfer hn ha hroom
    exact ⟨q', .row hu', hq, .of_eq hu.levels hu'.levels⟩
  | right h hp =>
    obtain ⟨hp', hap, -⟩ := ha.opened hroom hp (tokens_pos_of_binary h) hn
    exact ⟨_, .right ((ha.binaryAhead? _).trans h) hp', hap, .of_deeper rfl rfl⟩
  | fold h hp hr =>
    obtain ⟨hp', hap, hroomp⟩ := ha.opened hroom hp (tokens_pos_of_binary h)
      (Nat.le_trans hn hr.onward.length_le)
    obtain ⟨q', hr', hq⟩ := hr.transfer hn hap hroomp
    exact ⟨q', .fold ((ha.binaryAhead? _).trans h) hp' hr', hq, .of_deeper hr.levels hr'.levels⟩
  | operand h => exact ⟨p', .operand (ha.unaryAhead?.trans h), ha, .of_eq rfl rfl⟩
  | unary h hp =>
    obtain ⟨hp', hap, -⟩ := ha.opened hroom hp (tokens_pos_of_unary h) hn
    exact ⟨_, .unary (ha.unaryAhead?.trans h) hp', hap, .of_deeper rfl rfl⟩
  | inner h hp =>
    obtain ⟨hp', hap, -⟩ := ha.opened hroom hp h.tokens_pos hn
    exact ⟨_, .inner (ha.encloses h) hp', hap, .of_deeper rfl rfl⟩
  | @paren _ q e h hp he hk hq =>
    have hclose : n ≤ q.advance.tokens.length := hn
    obtain ⟨hp', hap, hroomp⟩ := ha.opened hroom hp (tokens_pos_of_kind h (by decide))
      (Nat.le_trans (le_of_advance hclose) he.onward.length_le)
    obtain ⟨q', he', haq⟩ := he.transfer (le_of_advance hclose) hap hroomp
    obtain ⟨hk', hq', hclosed⟩ := haq.pass hk (by decide) hq hclose
    exact ⟨_, .paren (ha.kind.trans h) hp' he' hk' hq', hclosed.congr rfl rfl,
      .of_eq (congrArg (· - 1) he.levels) (congrArg (· - 1) he'.levels)⟩
  | token h hp he =>
    have hpos := tokens_pos_of_isOperand h
    exact ⟨_, .token (ha.kind ▸ h) ((ha.canAdvance hn hpos).mpr hp)
      ((ofToken_of_word ha.word).trans he), ha.advance hn hpos, .of_eq rfl rfl⟩

theorem Stuck.transfer (h : Stuck rule p c q) (hc : c = .tooDeep → Roomier p' p)
    (hn : n ≤ q.tokens.length) (ha : Agree n m p p') (hroom : Roomier p p') :
    ∃ q', Stuck rule p' c q' ∧ Agree n m q q' ∧ Rises p p' q q' := by
  have hfull : c = .tooDeep → p.limit ≤ p.depth → p'.limit ≤ p'.depth := by
    intro h hd
    have hr := hc h
    rw [Roomier] at hr
    omega
  cases h with
  | tooDeep h hd =>
    exact ⟨_, .tooDeep (ha.opens h) (hfull rfl hd), ha.congr rfl rfl, .of_deeper rfl rfl⟩
  | opened h hd hp =>
    have hlt : p'.depth < p'.limit := by
      rw [Roomier] at hroom
      omega
    exact ⟨_, .opened (ha.opens h) hlt fun hp' => hp ((ha.canAdvance hn h.tokens_pos).mp hp'),
      (ha.advance hn h.tokens_pos).congr rfl rfl, .of_deeper rfl rfl⟩
  | passed h hp =>
    exact ⟨_, .passed (ha.passes h) fun hp' => hp ((ha.canAdvance hn h.tokens_pos).mp hp'),
      ha.advance hn h.tokens_pos, .of_eq rfl rfl⟩
  | indexTooDeep h hp hd =>
    obtain ⟨hk', hp', hap⟩ := ha.pass h (by decide) hp hn
    exact ⟨_, .indexTooDeep hk' hp' (hfull rfl hd), hap.congr rfl rfl, .of_deeper rfl rfl⟩
  | unclosed h hp he hk =>
    obtain ⟨hp', hap, hroomp⟩ := ha.opened hroom hp h.tokens_pos
      (Nat.le_trans hn he.onward.length_le)
    obtain ⟨q', he', haq⟩ := he.transfer hn hap hroomp
    exact ⟨q', .unclosed (ha.encloses h) hp' he' (haq.kind ▸ hk), haq,
      .of_deeper he.levels he'.levels⟩
  | @closed _ _ q s e h hp he hk hq =>
    have hqpos := tokens_pos_of_kind hk TokenKind.noConfusion
    obtain ⟨hp', hap, hroomp⟩ := ha.opened hroom hp h.tokens_pos
      (Nat.le_trans (le_of_advance hn) he.onward.length_le)
    obtain ⟨q', he', haq⟩ := he.transfer (le_of_advance hn) hap hroomp
    exact ⟨_, .closed (ha.encloses h) hp' he' (haq.kind.trans hk)
      (fun hq' => hq ((haq.canAdvance hn hqpos).mp hq')), haq.advance hn hqpos,
      .of_deeper he.levels he'.levels⟩
  | literal h hp he =>
    have hpos := tokens_pos_of_isOperand h
    exact ⟨_, .literal (ha.kind ▸ h) ((ha.canAdvance hn hpos).mpr hp)
      ((ofToken_of_word ha.word).trans he), ha.advance hn hpos, .of_eq rfl rfl⟩
  | noOperand hk h => exact ⟨p', .noOperand (ha.kind ▸ hk) (ha.kind ▸ h), ha, .of_eq rfl rfl⟩
  | noName h hp hk =>
    obtain ⟨h', hp', hname⟩ := ha.pass h (by decide) hp hn
    exact ⟨_, .noName h' hp' (hname.kind ▸ hk), hname, .of_eq rfl rfl⟩
  | named h hp hk hq =>
    have hnamepos := tokens_pos_of_kind hk (by decide)
    obtain ⟨h', hp', hname⟩ := ha.pass h (by decide) hp (le_of_advance hn)
    exact ⟨_, .named h' hp' (hname.kind.trans hk)
      (fun hq' => hq ((hname.canAdvance hn hnamepos).mp hq')), hname.advance hn hnamepos,
      .of_eq rfl rfl⟩

theorem Fails.transfer (h : Fails rule p c q) :
    ∀ {p' : Parser}, (c = .tooDeep → Roomier p' p) → n ≤ q.tokens.length → Agree n m p p' →
      Roomier p p' → ∃ q', Fails rule p' c q' ∧ Agree n m q q' ∧ Rises p p' q q' := by
  induction h with
  | here h =>
    intro p' hc hn ha hroom
    obtain ⟨q', hs, hq⟩ := h.transfer hc hn ha hroom
    exact ⟨q', .here hs, hq⟩
  | call h hf ih =>
    intro p' hc hn ha hroom
    obtain ⟨r', hcall, har, hrises⟩ := h.transfer (Nat.le_trans hn hf.onward.length_le) ha hroom
    have hl := h.onward.limit
    have hl' := hcall.onward.limit
    obtain ⟨q', hf', hq, hrest⟩ :=
      ih (fun hdeep => hrises.symm.roomier hl' hl (hc hdeep)) hn har (hrises.roomier hl hl' hroom)
    exact ⟨q', .call hcall hf', hq, hrises.trans hrest⟩

/--
**A source is rejected wherever the words up to the wrong one are the same and there is as much
room, and for the same cause.** If the cause is that there is no room, the room has to be the same.
-/
theorem Rejects.transfer (h : p.Rejects c q) (hc : c = .tooDeep → Roomier p' p)
    (hn : n ≤ q.tokens.length) (ha : Agree n m p p') (hroom : Roomier p p') :
    ∃ q', p'.Rejects c q' ∧ Agree n m q q' ∧ Rises p p' q q' := by
  cases h with
  | illegal h => exact ⟨p', .illegal (ha.kind.trans h), ha, .of_eq rfl rfl⟩
  | inside h hf =>
    obtain ⟨q', hf', hq⟩ := hf.transfer hc hn ha hroom
    exact ⟨q', .inside (ha.kind ▸ h) hf', hq⟩
  | trailing h hp hk =>
    obtain ⟨q', hp', hq⟩ := hp.transfer hn ha hroom
    exact ⟨q', .trailing (ha.kind ▸ h) hp' (hq.kind ▸ hk), hq, .of_eq hp.levels hp'.levels⟩

end

end Reckon.Parser
