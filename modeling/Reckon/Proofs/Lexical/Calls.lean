import Mathlib.Data.List.ReduceOption
import Reckon.Proofs.Lexical.Places

/-!
# Calls of a scanner in any order

A scanner is called for its next token in two ways, `scan` and `next`, and the two may be mixed. A
call does one of two things: it hands out the next token of the one stream that both share, or it
is a `next` on a scanner that is finished, and hands out and changes nothing (`Scanner.serve_cases`).

Only a `next` that hands out the end of the source finishes a scanner (`Scanner.serve_finished`).
So the flag tells what has happened among the calls of this one kind, while the place tells what
has happened among all calls, and neither depends on the other.
-/

namespace Reckon.Scanner

/-- A call of a scanner. -/
inductive Call
  /-- For the next token, or the end once more. -/
  | scan
  /-- For the next token of an iteration. -/
  | next
deriving Repr, DecidableEq

/-- The answer to a call, and the scanner behind it. -/
def serve (s : Scanner) : Call → Option Token × Scanner
  | .scan => (some s.scan.1, s.scan.2)
  | .next => s.next

/-- The answers to some calls. -/
def answers : List Call → Scanner → List (Option Token)
  | [], _ => []
  | call :: calls, s => (s.serve call).1 :: answers calls (s.serve call).2

/-! ## One call -/

theorem scan_finished (s : Scanner) : s.scan.2.finished = s.finished := by
  cases h : s.skipBlanks.rest with
  | nil => rw [scan_of_rest_nil h]; rfl
  | cons c cs => rw [scan_of_rest h]

/-- The tokens that are left do not depend on whether the iteration has ended. -/
theorem tokens_setFinished (s : Scanner) (b : Bool) :
    tokens { s with finished := b } = s.tokens := by
  induction s using Scanner.tokens.induct with
  | case1 s hs =>
    have hs' : ({ s with finished := b } : Scanner).skipBlanks.rest = [] := hs
    rw [tokens_of_rest_nil hs, tokens_of_rest_nil hs']
  | case2 s c cs hs ih =>
    have hs' : ({ s with finished := b } : Scanner).skipBlanks.rest = c :: cs := hs
    rw [tokens_of_rest hs, tokens_of_rest hs', scan_of_rest hs, scan_of_rest hs']
    rw [scan_of_rest hs] at ih
    exact congrArg _ ih

/-- **A call hands out the next token, or it is one of an iteration that has ended.** -/
theorem serve_cases (s : Scanner) (call : Call) :
    (call = .next ∧ s.finished = true ∧ s.serve call = (none, s)) ∨
      ∃ b, (call = .next → s.finished = false) ∧
        (b = true ↔ s.finished = true ∨ call = .next ∧ s.scan.1.kind = .eof) ∧
        s.serve call = (some s.scan.1, { s.scan.2 with finished := b }) := by
  cases call with
  | scan => exact .inr ⟨s.scan.2.finished, by simp, by simp [scan_finished], rfl⟩
  | next =>
    by_cases h : s.finished = true
    · exact .inl ⟨rfl, h, if_pos h⟩
    · exact .inr ⟨s.scan.1.kind = .eof, by simpa using h, by simp [h], if_neg h⟩

theorem serve_eq_none_iff (s : Scanner) (call : Call) :
    (s.serve call).1 = none ↔ call = .next ∧ s.finished = true := by
  rcases s.serve_cases call with ⟨hnext, hfinished, heq⟩ | ⟨b, hopen, -, heq⟩
  · rw [heq]
    exact iff_of_true rfl ⟨hnext, hfinished⟩
  · rw [heq]
    refine iff_of_false (by simp) ?_
    rintro ⟨hnext, hfinished⟩
    simp [hopen hnext] at hfinished

/-- **Only a call of an iteration that hands out the end finishes a scanner.** -/
theorem serve_finished (s : Scanner) (call : Call) :
    (s.serve call).2.finished = true ↔
      s.finished = true ∨ call = .next ∧ ∃ t, (s.serve call).1 = some t ∧ t.kind = .eof := by
  rcases s.serve_cases call with ⟨-, hfinished, heq⟩ | ⟨b, -, hb, heq⟩
  · simp [heq, hfinished]
  · simpa [heq] using hb

/-! ## The stream -/

/-- The tokens that are left, and then the end of the source `n` times. -/
def stream (s : Scanner) (n : Nat) : List Token := s.tokens ++ List.replicate n (eofAt s.stop)

theorem stream_setFinished (s : Scanner) (b : Bool) (n : Nat) :
    stream { s with finished := b } n = s.stream n :=
  congrArg (· ++ List.replicate n (eofAt s.stop)) (s.tokens_setFinished b)

theorem stream_grows (s : Scanner) (n : Nat) : s.stream n <+: s.stream (n + 1) := by
  rw [stream, stream, List.replicate_succ', ← List.append_assoc]
  exact List.prefix_append _ _

/-- The next token is the first of the stream, at the end of the source too. -/
theorem cons_stream (s : Scanner) (n : Nat) :
    s.scan.1 :: s.scan.2.stream n <+: s.stream (n + 1) := by
  cases h : s.skipBlanks.rest with
  | nil =>
    rw [stream, stream, stop_scan, tokens_of_rest_nil h, scan_of_rest_nil h, tokens_skipBlanks,
      tokens_of_rest_nil h, List.replicate_succ]
    exact List.prefix_rfl
  | cons c cs =>
    have hcons : s.scan.1 :: s.scan.2.stream n = s.stream n := by
      rw [stream, stream, stop_scan, tokens_of_rest h, List.cons_append]
    rw [hcons]
    exact s.stream_grows n

/-- **The tokens that are handed out are those of the stream, in whatever way they are called
for.** -/
theorem answers_stream (calls : List Call) (s : Scanner) :
    (s.answers calls).reduceOption <+: s.stream calls.length := by
  induction calls generalizing s with
  | nil => exact List.nil_prefix
  | cons call calls ih =>
    have hrest := ih (s.serve call).2
    rcases s.serve_cases call with ⟨-, -, heq⟩ | ⟨b, -, -, heq⟩
    · rw [heq] at hrest
      rw [answers, heq, List.reduceOption_cons_of_none]
      exact hrest.trans (s.stream_grows _)
    · rw [heq, stream_setFinished] at hrest
      rw [answers, heq, List.reduceOption_cons_of_some]
      exact ((List.prefix_cons_inj _).mpr hrest).trans (s.cons_stream _)

/-! ## The end of an iteration -/

theorem length_answers (calls : List Call) (s : Scanner) :
    (s.answers calls).length = calls.length := by
  induction calls generalizing s with
  | nil => rfl
  | cons call calls ih => rw [answers, List.length_cons, List.length_cons, ih]

theorem exists_answer_scan (calls : List Call) (s : Scanner) {i : Nat}
    (hi : calls[i]? = some .scan) : ∃ t, (s.answers calls)[i]? = some (some t) := by
  induction calls generalizing s i with
  | nil => cases hi
  | cons call calls ih =>
    cases i with
    | zero =>
      obtain rfl : call = .scan := Option.some.inj hi
      exact ⟨s.scan.1, rfl⟩
    | succ i => exact ih _ hi

/-- The `j`-th call is one of an iteration, and it is answered with the end of the source. -/
def EndsAt (calls : List Call) (s : Scanner) (j : Nat) : Prop :=
  calls[j]? = some .next ∧ ∃ t, (s.answers calls)[j]? = some (some t) ∧ t.kind = .eof

theorem endsAt_zero {call : Call} {calls : List Call} {s : Scanner} :
    EndsAt (call :: calls) s 0 ↔
      call = .next ∧ ∃ t, (s.serve call).1 = some t ∧ t.kind = .eof := by
  simp [EndsAt, answers]

theorem endsAt_succ {call : Call} {calls : List Call} {s : Scanner} {j : Nat} :
    EndsAt (call :: calls) s (j + 1) ↔ EndsAt calls (s.serve call).2 j := Iff.rfl

/-- A call of an iteration gets nothing if the scanner was finished, or was finished by an earlier
call. -/
theorem answer_eq_none_iff (calls : List Call) (s : Scanner) {i : Nat}
    (hi : calls[i]? = some .next) :
    (s.answers calls)[i]? = some none ↔ s.finished = true ∨ ∃ j < i, EndsAt calls s j := by
  induction calls generalizing s i with
  | nil => cases hi
  | cons call calls ih =>
    cases i with
    | zero =>
      obtain rfl : call = .next := Option.some.inj hi
      have hnone := s.serve_eq_none_iff .next
      simpa [answers] using hnone
    | succ i =>
      have hrest := ih (s.serve call).2 hi
      rw [serve_finished, ← @endsAt_zero call calls s, or_assoc] at hrest
      rw [answers, List.getElem?_cons_succ, hrest]
      refine or_congr_right ⟨?_, ?_⟩
      · rintro (hzero | ⟨j, hj, hends⟩)
        · exact ⟨0, Nat.succ_pos i, hzero⟩
        · exact ⟨j + 1, Nat.succ_lt_succ hj, endsAt_succ.mpr hends⟩
      · rintro ⟨j, hj, hends⟩
        cases j with
        | zero => exact .inl hends
        | succ j => exact .inr ⟨j, Nat.lt_of_succ_lt_succ hj, endsAt_succ.mp hends⟩

/--
**Both ways to call a scanner share one stream.**

Whatever calls are made one after the other, every `scan` is answered with a token, and the tokens
that are handed out are those of the source in their order, and then its end again and again. A
`next` is answered with nothing if and only if an earlier `next` was answered with the end of the
source: an end that a `scan` has handed out does not count.
-/
theorem answers_shared (source : String) (calls : List Call) :
    let answers := (ofSource source).answers calls
    answers.length = calls.length ∧
      answers.reduceOption <+: Token.tokens source ++
        List.replicate calls.length (eofAt source.utf8ByteSize) ∧
      (∀ i : Nat, calls[i]? = some .scan → ∃ t, answers[i]? = some (some t)) ∧
      ∀ i : Nat, calls[i]? = some .next → (answers[i]? = some none ↔
        ∃ j < i, calls[j]? = some .next ∧ ∃ t, answers[j]? = some (some t) ∧ t.kind = .eof) := by
  intro answers
  have hstop : (ofSource source).stop = source.utf8ByteSize := by
    rw [stop, ← byteLength_toList]
    exact Nat.zero_add _
  refine ⟨length_answers calls _, ?_, fun i hi => exists_answer_scan calls _ hi, fun i hi => ?_⟩
  · rw [← hstop]
    exact answers_stream calls (ofSource source)
  · have hnone := answer_eq_none_iff calls (ofSource source) hi
    rwa [show (ofSource source).finished = false from rfl, or_iff_right Bool.false_ne_true] at hnone

-- the end that is handed out by a `scan` is handed out once more by the next `next`
example : (ofSource "a ").answers [.next, .scan, .next, .next, .scan] =
    [some ⟨.identifier, "a", 0⟩, some (eofAt 2), some (eofAt 2), none, some (eofAt 2)] := by
  decide +kernel

end Reckon.Scanner
