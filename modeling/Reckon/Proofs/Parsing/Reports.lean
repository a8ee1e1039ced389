import Reckon.Log
import Reckon.Proofs.Parsing.Acts
import Reckon.Proofs.Parsing.Resume
import Reckon.Proofs.Parsing.Decoding

/-!
# What the log says of a parse

A parser has one token ahead, so it has had its scanner called once more than it has gone past
tokens. A `Reader` is that much of a parser: a scanner, the token ahead and the tokens that were
reported when they were scanned. Whatever a run does, its reader has only gone from token to token
(`Onward.reads`), and the reports of the reader are those of the log.

So the reports are the tokens up to the one that is ahead when the parser stops. An error that has
a place is at that token. A literal that denotes no value is found out one token later: it is the
first one in the source (`Fails.misread`), and the token behind it is ahead.
-/

namespace Reckon

/-! ## Readers -/

/-- A source that is scanned one token at a time. -/
structure Reader where
  /-- The scanner behind the token ahead. -/
  scanner : Scanner
  ahead : Token
  /-- The tokens that have been reported. -/
  reports : List Token

namespace Reader

/-- Every token is reported but the end of the source. -/
def report (t : Token) : List Token := if t.kind = .eof then [] else [t]

/-- The first token is ahead. -/
def start (source : String) : Reader :=
  let (t, s) := (Scanner.ofSource source).scan
  ⟨s, t, report t⟩

/-- The token ahead is passed, and the next one is scanned. -/
def bump (r : Reader) : Reader :=
  let (t, s) := r.scanner.scan
  ⟨s, t, r.reports ++ report t⟩

/-- As many tokens are passed. -/
def bumps : Nat → Reader → Reader
  | 0, r => r
  | n + 1, r => bumps n r.bump

/-- The reader is at the place of the parser. -/
structure Reads (r : Reader) (p : Parser) : Prop where
  ahead : r.ahead = p.peek
  left : report r.ahead ++ r.scanner.tokens = p.tokens
  stop : r.scanner.stop = p.stop

theorem report_scan (s : Scanner) : report s.scan.1 ++ s.scan.2.tokens = s.tokens := by
  cases hs : s.skipBlanks.rest with
  | nil =>
    have htokens : s.skipBlanks.tokens = [] := by
      rw [Scanner.tokens_skipBlanks, Scanner.tokens_of_rest_nil hs]
    rw [Scanner.scan_of_rest_nil hs, Scanner.tokens_of_rest_nil hs, htokens]
    rfl
  | cons c cs =>
    have heof : s.scan.1.kind ≠ .eof := by
      refine Scanner.kind_ne_eof s _ ?_
      rw [Scanner.tokens_of_rest hs]
      exact List.mem_cons_self
    rw [Scanner.tokens_of_rest hs, report, if_neg heof]
    rfl

/-- What is scanned next is the token that is ahead then. -/
theorem reads_of_scanner {s : Scanner} {p : Parser} {reports : List Token}
    (htokens : s.tokens = p.tokens) (hstop : s.stop = p.stop) :
    Reads ⟨s.scan.2, s.scan.1, reports⟩ p := by
  refine ⟨?_, (report_scan s).trans htokens, (Scanner.stop_scan s).trans hstop⟩
  rw [Parser.peek, ← htokens, ← hstop]
  cases hs : s.skipBlanks.rest with
  | nil => rw [Scanner.scan_of_rest_nil hs, Scanner.tokens_of_rest_nil hs]
  | cons c cs => rw [Scanner.tokens_of_rest hs]

theorem reads_start (source : String) (limit : Nat) :
    Reads (start source) (Parser.ofSource source limit) := reads_of_scanner rfl rfl

variable {r : Reader} {p q : Parser} {source : String}

/-- No token behind the one ahead is left when that one is the end of the source. -/
theorem Reads.scanner_tokens (h : Reads r p) : r.scanner.tokens = p.tokens.tail := by
  have hleft := h.left
  rw [h.ahead, report] at hleft
  split at hleft
  next heof =>
    rw [Parser.peek] at heof
    rw [List.nil_append] at hleft
    split at heof
    next hnil => rw [hleft, hnil]; rfl
    next t ts hcons =>
      have hmem : t ∈ r.scanner.tokens := by
        rw [hleft, hcons]
        exact List.mem_cons_self
      exact absurd heof (Scanner.kind_ne_eof _ t hmem)
  next heof =>
    rw [← hleft]
    rfl

/-- **Going past a token scans one token.** -/
theorem Reads.bump (h : Reads r p) : Reads r.bump p.advance :=
  reads_of_scanner h.scanner_tokens h.stop

theorem reports_bump (r : Reader) :
    r.bump.reports ++ r.bump.scanner.tokens = r.reports ++ r.scanner.tokens := by
  rw [bump, List.append_assoc, report_scan]

theorem reports_bumps (n : Nat) (r : Reader) :
    (r.bumps n).reports ++ (r.bumps n).scanner.tokens = r.reports ++ r.scanner.tokens := by
  induction n generalizing r with
  | zero => rfl
  | succ n ih => rw [bumps, ih, reports_bump]

/-- The reports and what is still to be scanned are the tokens of the source. -/
theorem reports_start (source : String) (n : Nat) :
    ((start source).bumps n).reports ++ ((start source).bumps n).scanner.tokens =
      Token.tokens source := by
  rw [reports_bumps]
  exact report_scan _

/-- The tokens in front of the one ahead are those that were passed. -/
theorem Reads.reports_eq (h : Reads r p) {before : List Token}
    (hr : r.reports ++ r.scanner.tokens = before ++ p.tokens) :
    r.reports = before ++ p.tokens.take 1 := by
  refine List.append_cancel_right (hr.trans ?_)
  rw [h.scanner_tokens, List.append_assoc, ← List.drop_one, List.take_append_drop]

end Reader

/-! ## Runs -/

/-- The token is no literal without a value. -/
def Token.Decodes (t : Token) : Prop := ∃ e, Expr.ofToken t = .ok e

theorem Token.decodes_of_kind {t : Token} (h : ∀ k, Kind.ofToken? t.kind t.lexeme ≠ some k) :
    t.Decodes := by
  refine ⟨.identifier t.lexeme, ?_⟩
  rw [Expr.ofToken, Option.eq_none_iff_forall_ne_some.mpr h]

theorem Token.decodes_symbol {t : Token} {s : Symbol} (h : t.kind = .symbol s) : t.Decodes := by
  refine decodes_of_kind fun k => ?_
  rw [h]
  exact (Option.some_ne_none k).symm

/-- A name denotes itself, and the two that are literals denote truth values. -/
theorem Token.decodes_identifier {t : Token} (h : t.kind = .identifier) : t.Decodes := by
  by_cases htrue : t.lexeme = "true"
  · exact ⟨_, by rw [Expr.ofToken, h, htrue]; rfl⟩
  · by_cases hfalse : t.lexeme = "false"
    · exact ⟨_, by rw [Expr.ofToken, h, hfalse]; rfl⟩
    · refine decodes_of_kind fun k => ?_
      rw [h, Kind.ofToken?, if_neg (not_or.mpr ⟨htrue, hfalse⟩)]
      exact (Option.some_ne_none k).symm

namespace Parser

variable {p q s : Parser} {rule rule' : Rule} {e : Expr}

/-- **A run goes from token to token.** -/
theorem Onward.reads (h : Onward p q) {r : Reader} (hr : r.Reads p) :
    ∃ n, n + q.tokens.length = p.tokens.length ∧ (r.bumps n).Reads q := by
  obtain ⟨⟨before, hbefore⟩, hstop, -⟩ := h
  induction before generalizing p r with
  | nil =>
    have htokens : p.tokens = q.tokens := hbefore.symm
    refine ⟨0, by rw [htokens, Nat.zero_add], ?_, ?_, ?_⟩
    · rw [Reader.bumps, hr.ahead, peek, peek, htokens, hstop]
    · exact hr.left.trans htokens
    · exact hr.stop.trans hstop.symm
  | cons t before ih =>
    have hrest : before ++ q.tokens = p.advance.tokens := congrArg List.tail hbefore
    obtain ⟨n, hlength, hreads⟩ := ih hr.bump hstop hrest
    refine ⟨n + 1, ?_, hreads⟩
    rw [← hbefore, List.cons_append, hrest, List.length_cons]
    omega

/-- Between the two states, no literal without a value was passed. -/
def Clean (p q : Parser) : Prop :=
  ∃ before, p.tokens = before ++ q.tokens ∧ ∀ t ∈ before, t.Decodes

namespace Clean

theorem refl (p : Parser) : Clean p p := ⟨[], rfl, by simp⟩

theorem trans (h : Clean p q) (h' : Clean q s) : Clean p s := by
  obtain ⟨before, hbefore, hdecodes⟩ := h
  obtain ⟨before', hbefore', hdecodes'⟩ := h'
  refine ⟨before ++ before', ?_, List.forall_mem_append.mpr ⟨hdecodes, hdecodes'⟩⟩
  rw [hbefore, hbefore', List.append_assoc]

/-- The depth is no part of the place. -/
theorem set_depth (h : Clean p q) (n : Nat) : Clean p { q with depth := n } := h

theorem advance (h : q.peek.Decodes) : Clean q q.advance := by
  rw [peek] at h
  unfold Clean Parser.advance
  cases ht : q.tokens with
  | nil => exact ⟨[], rfl, by simp⟩
  | cons t ts =>
    rw [ht] at h
    exact ⟨[t], rfl, by simpa using h⟩

end Clean

theorem Parses.clean (h : Parses rule p e q) : Clean p q := by
  induction h with
  | binary hu hr ihu ihr => exact (ihu.trans ihr).set_depth _
  | rowEnd h => exact .refl _
  | rowFold h hp hr hs ihr ihs =>
    have hsymbol := Token.decodes_symbol (binaryAhead?_eq_some_iff.mp h).1
    exact (Clean.advance hsymbol).trans (ihr.trans ihs)
  | plain h ho ih => exact ih
  | unary h hp hu ih =>
    have hsymbol := Token.decodes_symbol (unary_ofKind?_eq_some_iff.mp h)
    exact ((Clean.advance hsymbol).trans ih).set_depth _
  | paren h hp he hk hq ht ihe iht =>
    have hclosed := ihe.trans (.advance (Token.decodes_symbol hk))
    exact (Clean.advance (Token.decodes_symbol h)).trans ((hclosed.set_depth _).trans iht)
  | token h hp he ht ih => exact (Clean.advance ⟨_, he⟩).trans ih
  | index h hp hi hk hq ih =>
    have hclosed := ih.trans (.advance (Token.decodes_symbol hk))
    exact (Clean.advance (Token.decodes_symbol h)).trans (hclosed.set_depth _)
  | member h hp hk hq =>
    exact (Clean.advance (Token.decodes_symbol h)).trans (.advance (Token.decodes_identifier hk))
  | bare hb hd => exact .refl _

theorem Rule.Encloses.decodes {y : Symbol} (h : rule.Encloses p y) : p.peek.Decodes := by
  cases h with
  | paren h => exact Token.decodes_symbol h
  | index h => exact Token.decodes_symbol h

theorem Calls.clean (h : Calls rule p rule' q) : Clean p q := by
  cases h with
  | first => exact .refl _
  | row hu => exact hu.clean
  | right h hp => exact Clean.advance (Token.decodes_symbol (binaryAhead?_eq_some_iff.mp h).1)
  | fold h hp hr =>
    exact (Clean.advance (Token.decodes_symbol (binaryAhead?_eq_some_iff.mp h).1)).trans hr.clean
  | operand h => exact .refl _
  | unary h hp => exact Clean.advance (Token.decodes_symbol (unary_ofKind?_eq_some_iff.mp h))
  | inner h hp => exact Clean.advance h.decodes
  | paren h hp he hk hq =>
    have hclosed := he.clean.trans (.advance (Token.decodes_symbol hk))
    exact (Clean.advance (Token.decodes_symbol h)).trans (hclosed.set_depth _)
  | token h hp he => exact Clean.advance ⟨_, he⟩

/-- **The literal at fault is the first one without a value, and has just been passed.** -/
theorem Fails.misread {k : Kind} {x : String} (h : Fails rule p (.badLiteral k x) q) :
    ∃ before t, p.tokens = before ++ t :: q.tokens ∧ (∀ u ∈ before, u.Decodes) ∧
      Expr.ofToken t = .error (.invalidLiteral k x) := by
  generalize hc : Cause.badLiteral k x = c at h
  induction h with
  | @here rule p _ _ h =>
    cases h with
    | literal hoperand hadvance he =>
      cases hc
      exact ⟨[], p.peek, tokens_eq_cons (tokens_pos_of_isOperand hoperand), by simp, he⟩
    | _ => cases hc
  | call h hf ih =>
    obtain ⟨before, t, htokens, hdecodes, ht⟩ := ih hc
    obtain ⟨before', hbefore', hdecodes'⟩ := h.clean
    refine ⟨before' ++ before, t, ?_, List.forall_mem_append.mpr ⟨hdecodes', hdecodes⟩, ht⟩
    rw [hbefore', htokens, List.append_assoc]

end Parser

/-! ## The log -/

/-- The events of tokens that are scanned. -/
def scanEvents (ts : List Token) : List Event := (ts.filter (·.kind ≠ .eof)).map Event.scanned

theorem scanEvents_cons (t : Token) (ts : List Token) :
    scanEvents (t :: ts) = (logging.perform (.scan t)).reports ++ scanEvents ts := by
  by_cases heof : t.kind = .eof <;> simp [scanEvents, logging, heof]

theorem reports_replay (acts : List Act) {α : Type} (a : α) :
    (logging.replay acts a).reports = scanEvents (Act.tokens acts) := by
  induction acts with
  | nil => rfl
  | cons act acts ih =>
    rw [Effects.replay_cons, Reported.reports_bind, ih]
    cases act with
    | scan t => exact (scanEvents_cons t (Act.tokens acts)).symm
    | leave p => rfl

/-- The log of a parser are the events of its acts, and its answer is that of the parser. -/
theorem logging_parse (p : Parser) :
    (logging.parse p).reports = scanEvents (Act.tokens p.acts) ∧
      (logging.parse p).value = p.parse := by
  rw [Effects.parse_eq_replay fun _ _ _ => rfl]
  exact ⟨reports_replay p.acts p.parse, rfl⟩

/-- What has been scanned when the parser stops are the tokens up to the one ahead. -/
theorem Parser.scanned_eq {p q : Parser} {before : List Token} (hq : p.parse.2 = q)
    (h : p.tokens = before ++ q.tokens) (hstop : q.stop = p.stop) :
    p.peek :: Act.tokens p.acts = before ++ [q.peek] := by
  have hstream : p.peek :: (Act.tokens p.acts ++ q.unscanned) =
      before ++ q.peek :: q.unscanned := by
    rw [← hq, ← p.unscanned_eq, hq, peek_cons_unscanned, peek_cons_unscanned, hstop, h,
      List.append_assoc]
  refine List.append_cancel_right (hstream.trans ?_)
  rw [List.append_assoc, List.singleton_append]

/-- The end of the source is not reported. -/
theorem scanEvents_append_peek {before : List Token} {q : Parser}
    (h : ∀ t ∈ before ++ q.tokens, t.kind ≠ .eof) :
    scanEvents (before ++ [q.peek]) = (before ++ q.tokens.take 1).map Event.scanned := by
  have hbefore : before.filter (·.kind ≠ .eof) = before :=
    List.filter_eq_self.mpr fun t ht => by simpa using h t (List.mem_append_left _ ht)
  have hpeek : [q.peek].filter (·.kind ≠ .eof) = q.tokens.take 1 := by
    rw [Parser.peek]
    cases htokens : q.tokens with
    | nil => rfl
    | cons t ts =>
      have ht : t.kind ≠ .eof := h t (by simp [htokens])
      simp [ht]
  rw [scanEvents, List.filter_append, hbefore, hpeek]

/-- The tokens up to the one ahead are those whose place is not behind its place. -/
theorem filter_tokens {source : String} {limit : Nat} {q : Parser} {before : List Token}
    (h : Token.tokens source = before ++ q.tokens)
    (hq : Parser.Onward (.ofSource source limit) q) :
    (Token.tokens source).filter (·.offset ≤ q.peek.offset) = before ++ q.tokens.take 1 := by
  have hpairwise := Token.pairwise_offset source
  rw [Token.scanAll, h, List.append_assoc] at hpairwise
  have hbefore : ∀ t ∈ before, t.offset < q.peek.offset := by
    intro t ht
    have hpeek := q.peek_mem
    rw [hq.stop] at hpeek
    exact (List.pairwise_append.mp hpairwise).2.2 t ht q.peek hpeek
  have hahead : q.tokens.filter (·.offset ≤ q.peek.offset) = q.tokens.take 1 := by
    cases htokens : q.tokens with
    | nil => rfl
    | cons t ts =>
      have hpeek : q.peek = t := by rw [Parser.peek, htokens]
      have hbehind : ∀ u ∈ ts, ¬ u.offset ≤ t.offset := by
        rw [htokens] at hpairwise
        have hrest := (List.pairwise_append.mp (List.pairwise_append.mp hpairwise).2.1).1
        exact fun u hu => Nat.not_le.mpr ((List.pairwise_cons.mp hrest).1 u hu)
      rw [hpeek, List.filter_cons_of_pos (by simp), List.take_succ_cons, List.take_zero,
        List.filter_eq_nil_iff.mpr (by simpa using hbehind)]
  rw [h, List.filter_append, hahead, List.filter_eq_self.mpr]
  exact fun t ht => decide_eq_true (Nat.le_of_lt (hbefore t ht))

theorem evalLogged_snd (source : String) (env : Environment) :
    (evalLogged source env).2 = eval source env := by
  have hanswer := (logging_parse (.ofSource source Parser.defaultLimit)).2
  rw [evalLogged, evalReported, eval, Expr.parse, Expr.parseWithin, Effects.start]
  rcases hparse : (Parser.ofSource source Parser.defaultLimit).parse with ⟨_ | e, q⟩
  · simp [hanswer, hparse]
  · cases hv : e.evaluate env <;> simp [hanswer, hparse, hv, Except.mapError]

theorem evalLogged_fst (source : String) (env : Environment) :
    (evalLogged source env).1 =
      scanEvents ((Parser.ofSource source Parser.defaultLimit).peek ::
        Act.tokens (Parser.ofSource source Parser.defaultLimit).acts) ++
      (match Expr.parse source with
      | .error _ => []
      | .ok e => Event.parsed source Parser.defaultLimit ::
        match e.evaluate env with
        | .error _ => []
        | .ok v => [Event.evaluated e v]) := by
  obtain ⟨hreports, hanswer⟩ := logging_parse (.ofSource source Parser.defaultLimit)
  rw [scanEvents_cons, evalLogged, evalReported, Expr.parse, Expr.parseWithin, Effects.start]
  rcases hparse : (Parser.ofSource source Parser.defaultLimit).parse with ⟨_ | e, q⟩
  · simp [hreports, hanswer, hparse]
  · cases hv : e.evaluate env <;> simp [hreports, hanswer, hparse, hv]

section Outcome

variable {source : String} {limit : Nat} {q : Parser}

/-- An expression leaves no token behind. -/
theorem tokens_of_parse_ok {e : Expr} (h : (Parser.ofSource source limit).parse = (.ok e, q)) :
    q.tokens = [] := by
  obtain ⟨-, hrun, heof⟩ := Parser.parse_eq_ok_state_iff.mp h
  exact List.map_eq_nil_iff.mp
    ((hrun.onward.scanned (Parser.ofSource_scanned _ _)).words_of_eof heof)

/-- An error with a place is about the token ahead. -/
theorem offset_of_parse_error {err : ParseError} {o : Nat}
    (h : (Parser.ofSource source limit).parse = (.error err, q)) (ho : err.offset? = some o) :
    o = q.peek.offset := by
  obtain ⟨c, rfl, -⟩ := Parser.parse_eq_error_iff.mp h
  exact Parser.Cause.offset_of_error ho

/-- A literal without a value is the token behind which the parser stopped. -/
theorem misread_of_parse {k : Kind} {x : String} {before : List Token}
    (h : (Parser.ofSource source limit).parse = (.error (.invalidLiteral k x), q))
    (htokens : Token.tokens source = before ++ q.tokens) :
    ∃ passed t, before = passed ++ [t] ∧ (∀ u ∈ passed, u.Decodes) ∧
      Expr.ofToken t = .error (.invalidLiteral k x) := by
  obtain ⟨c, hc, hrejects⟩ := Parser.parse_eq_error_iff.mp h
  obtain rfl := Parser.Cause.error_eq_invalidLiteral hc.symm
  cases hrejects with
  | inside hlegal hfails =>
    obtain ⟨passed, t, hpassed, hdecodes, ht⟩ := hfails.misread
    refine ⟨passed, t, ?_, hdecodes, ht⟩
    refine List.append_cancel_right (htokens.symm.trans (hpassed.trans ?_))
    rw [List.append_assoc, List.singleton_append]

end Outcome

/--
**The log is what was read.**

The answer of an evaluation that keeps a log is that of one that does not. The log starts with the
tokens that were scanned, in the order of the source and none of them twice: one at the start and
one whenever a token is passed. Only if the source is an expression does the log go on with it, and
only if that has a value does it go on with the value, and nothing else is in the log.

A source that is an expression has been scanned as a whole. An error with a place is reported when
the token at this place is the last one that was scanned. A literal without a value is the first one
in the source, and only the token behind it was scanned after it.
-/
theorem evalLogged_reports (source : String) (env : Environment) :
    (evalLogged source env).2 = eval source env ∧
    ∃ ts, ts <+: Token.tokens source ∧ (ts.Pairwise fun t u => t.offset < u.offset) ∧
      (∃ n, let r := (Reader.start source).bumps n
        let q := (Parser.ofSource source Parser.defaultLimit).parse.2
        n + q.tokens.length = (Token.tokens source).length ∧ r.Reads q ∧ ts = r.reports) ∧
      (evalLogged source env).1 = ts.map Event.scanned ++
        (match Expr.parse source with
        | .error _ => []
        | .ok e => Event.parsed source Parser.defaultLimit ::
          match e.evaluate env with
          | .error _ => []
          | .ok v => [Event.evaluated e v]) ∧
      (∀ e, Expr.parse source = .ok e → ts = Token.tokens source) ∧
      (∀ err o, Expr.parse source = .error err → err.offset? = some o →
        ts = (Token.tokens source).filter (·.offset ≤ o)) ∧
      ∀ k x, Expr.parse source = .error (.invalidLiteral k x) →
        ∃ before t after, Token.tokens source = before ++ t :: after ∧
          (∀ u ∈ before, u.Decodes) ∧ Expr.ofToken t = .error (.invalidLiteral k x) ∧
          ts = before ++ t :: after.take 1 := by
  rcases hparse : (Parser.ofSource source Parser.defaultLimit).parse with ⟨answer, q⟩
  have hanswer : Expr.parse source = answer := congrArg Prod.fst hparse
  have honward : Parser.Onward (Parser.ofSource source Parser.defaultLimit) q := by
    have h := (Parser.parse_onward (Parser.ofSource source Parser.defaultLimit)).1
    rwa [hparse] at h
  obtain ⟨before, hbefore, -⟩ := honward.exists_before
  have htokens : Token.tokens source = before ++ q.tokens := hbefore
  obtain ⟨n, hn, hreads⟩ := honward.reads (Reader.reads_start source _)
  have hreports := hreads.reports_eq ((Reader.reports_start source n).trans htokens)
  have hprefix : before ++ q.tokens.take 1 <+: Token.tokens source := by
    rw [htokens]
    exact (List.prefix_append_right_inj before).mpr (List.take_prefix 1 q.tokens)
  have hpairwise := (List.pairwise_append.mp (Token.pairwise_offset source)).1
  refine ⟨evalLogged_snd source env, before ++ q.tokens.take 1, hprefix,
    hpairwise.sublist hprefix.sublist, ⟨n, hn, hreads, hreports.symm⟩, ?_, ?_, ?_, ?_⟩
  · have hq : (Parser.ofSource source Parser.defaultLimit).parse.2 = q := by rw [hparse]
    have hkinds : ∀ t ∈ before ++ q.tokens, t.kind ≠ .eof := by
      rw [← htokens]
      exact Scanner.kind_ne_eof _
    rw [evalLogged_fst, Parser.scanned_eq hq htokens honward.stop, scanEvents_append_peek hkinds]
  · intro e he
    obtain rfl := hanswer.symm.trans he
    rw [htokens, tokens_of_parse_ok hparse, List.take_nil]
  · intro err o he ho
    obtain rfl := hanswer.symm.trans he
    rw [offset_of_parse_error hparse ho, filter_tokens htokens honward]
  · intro k x he
    obtain rfl := hanswer.symm.trans he
    obtain ⟨passed, t, rfl, hdecodes, ht⟩ := misread_of_parse hparse htokens
    rw [List.append_assoc, List.singleton_append] at htokens ⊢
    exact ⟨passed, t, q.tokens, htokens, hdecodes, ht, rfl⟩

end Reckon
