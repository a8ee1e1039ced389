import Reckon.Proofs.Parsing.Depth

/-!
# The same tokens at other places

The parser never looks at the places of its tokens, at where its source ends, or at its depth and
its limit but for how far one is from the other. So if the places are changed by a function, and
the depth and the limit by the same number of levels, the parser does the same as before
(`Parser.parse_relocated`): the expression is the same, and an error is the same with its place
changed in the same way.
-/

namespace Reckon

/-- The token at the place that `f` gives for its own. -/
def Token.relocated (f : Nat → Nat) (t : Token) : Token := { t with offset := f t.offset }

namespace ParseError

/-- The error at the place that `f` gives for its own, if it has one. -/
def relocated (f : Nat → Nat) : ParseError → ParseError
  | lex e => lex { e with offset := f e.offset }
  | unexpectedToken expected found offset => unexpectedToken expected found (f offset)
  | expectedExpression found offset => expectedExpression found (f offset)
  | invalidLiteral kind lexeme => invalidLiteral kind lexeme
  | tooDeep limit => tooDeep limit

/-- The error of a parser with another limit. -/
def withLimit (limit : Nat) : ParseError → ParseError
  | tooDeep _ => tooDeep limit
  | e => e

/-- The place that is reported, if there is one. -/
def offset? : ParseError → Option Nat
  | lex e => some e.offset
  | unexpectedToken _ _ offset => some offset
  | expectedExpression _ offset => some offset
  | invalidLiteral _ _ => none
  | tooDeep _ => none

end ParseError

namespace Parser

/-- The parser with its tokens at the places that `f` gives, and `depth` levels deeper, with the
limit `limit`. -/
def relocated (f : Nat → Nat) (depth limit : Nat) (p : Parser) : Parser :=
  ⟨p.tokens.map (Token.relocated f), f p.stop, p.depth + depth, limit⟩

section

variable {f : Nat → Nat} {d m : Nat} {p q q' : Parser}

theorem peek_relocated (f : Nat → Nat) (d m : Nat) (p : Parser) :
    (p.relocated f d m).peek = p.peek.relocated f := by
  unfold peek relocated
  cases p.tokens with
  | nil => rfl
  | cons t ts => rfl

theorem words_relocated (f : Nat → Nat) (d m : Nat) (p : Parser) :
    (p.relocated f d m).words = p.words := by
  unfold words relocated
  rw [List.map_map]
  rfl

theorem agree_relocated (f : Nat → Nat) (d m : Nat) (p : Parser) :
    Agree 0 0 p (p.relocated f d m) :=
  ⟨Nat.zero_le _, (List.length_map _).symm, by rw [stream, stream, words_relocated]⟩

theorem Cause.error_relocated (f : Nat → Nat) (d m : Nat) (c : Cause) (p : Parser) :
    c.error (p.relocated f d m) = ((c.error p).relocated f).withLimit m := by
  have hpeek := p.peek_relocated f d m
  cases c with
  | illegal => rw [error, hpeek]; rfl
  | unexpected x => rw [error, hpeek]; rfl
  | noOperand => rw [error, hpeek]; rfl
  | badLiteral kind lexeme => rfl
  | tooDeep => rfl

/-- A parser that has gone on with relocated tokens is where the first one has come to,
relocated. -/
theorem relocated_of_onward (h : Onward p q) (h' : Onward (p.relocated f d m) q')
    (ha : q.tokens.length = q'.tokens.length) (hd : Rises p (p.relocated f d m) q q') :
    q' = q.relocated f d m := by
  have hmap := h.suffix.map (Token.relocated f)
  have hlength : q'.tokens.length = (q.tokens.map (Token.relocated f)).length := by
    rw [List.length_map, ha]
  have htokens : q'.tokens = q.tokens.map (Token.relocated f) :=
    (List.suffix_of_suffix_length_le h'.suffix hmap (Nat.le_of_eq hlength)).eq_of_length hlength
  have hstop : q'.stop = f q.stop := h'.stop.trans (congrArg f h.stop.symm)
  have hlimit : q'.limit = m := h'.limit
  have hdepth : q'.depth = q.depth + d := by
    obtain ⟨k, hk, hk'⟩ := hd
    have hstart : (p.relocated f d m).depth = p.depth + d := rfl
    omega
  rw [relocated, ← htokens, ← hstop, ← hdepth, ← hlimit]

/--
**The parser does the same wherever its tokens stand, if as many levels are left.**
-/
theorem parse_relocated (f : Nat → Nat) (h : p.limit - p.depth = m - (p.depth + d)) :
    (p.relocated f d m).parse =
      (p.parse.1.mapError (fun e => (e.relocated f).withLimit m), p.parse.2.relocated f d m) := by
  have hagree := p.agree_relocated f d m
  rcases hparse : p.parse with ⟨answer, q⟩
  cases answer with
  | ok e =>
    obtain ⟨hlegal, hrun, heof⟩ := parse_eq_ok_state_iff.mp hparse
    obtain ⟨q', hrun', hq⟩ := hrun.transfer (Nat.zero_le _) hagree (Nat.le_of_eq h)
    obtain rfl := relocated_of_onward hrun.onward hrun'.onward hq.length
      (.of_eq hrun.levels hrun'.levels)
    exact parse_eq_ok_state_iff.mpr ⟨hagree.kind ▸ hlegal, hrun', hq.kind.trans heof⟩
  | error e =>
    obtain ⟨c, rfl, hrejects⟩ := parse_eq_error_iff.mp hparse
    obtain ⟨q', hrejects', hq, hrises⟩ := hrejects.transfer (fun _ => Nat.le_of_eq h.symm)
      (Nat.zero_le _) hagree (Nat.le_of_eq h)
    obtain rfl := relocated_of_onward hrejects.onward hrejects'.onward hq.length hrises
    exact parse_eq_error_iff.mpr ⟨c, (c.error_relocated f d m q).symm, hrejects'⟩

/-- An error of the depth reports the limit anyway. -/
theorem withLimit_of_parse {e : ParseError} (h : p.parse.1 = .error e) :
    (e.relocated f).withLimit p.limit = e.relocated f := by
  cases e with
  | tooDeep k => rw [(parse_tooDeep h).1]; rfl
  | _ => rfl

/-- With the same depth and limit the answer differs in places only. -/
theorem parse_relocated_fst (f : Nat → Nat) (p : Parser) :
    (p.relocated f 0 p.limit).parse.1 = p.parse.1.mapError (ParseError.relocated f) := by
  rw [parse_relocated f rfl]
  cases hparse : p.parse.1 with
  | ok e => rfl
  | error e => exact congrArg Except.error (withLimit_of_parse hparse)

/-- A place that is reported is that of the token ahead. -/
theorem Cause.offset_of_error {c : Cause} {o : Nat} (ho : (c.error q).offset? = some o) :
    o = q.peek.offset := by
  cases c <;> cases ho <;> rfl

theorem peek_mem (p : Parser) : p.peek ∈ p.tokens ++ [Scanner.eofAt p.stop] := by
  unfold peek
  split
  next hnil => simp [hnil]
  next t ts hcons => simp [hcons]

/-- A place that is reported is that of a token, or the end of the source. -/
theorem offset_of_parse {e : ParseError} {o : Nat} (h : p.parse.1 = .error e)
    (ho : e.offset? = some o) : ∃ t ∈ p.tokens ++ [Scanner.eofAt p.stop], t.offset = o := by
  obtain ⟨c, q, rfl, hrejects⟩ := parse_fst_eq_error_iff.mp h
  have honward := hrejects.onward
  have hpeek := q.peek_mem
  rw [honward.stop] at hpeek
  refine ⟨q.peek, ?_, (Cause.offset_of_error ho).symm⟩
  exact (List.mem_append.mp hpeek).elim
    (fun ht => List.mem_append_left _ (honward.suffix.subset ht)) (List.mem_append_right _)

end

end Parser

end Reckon
