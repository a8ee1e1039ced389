import Reckon.Proofs.Parsing.Prefix

/-!
# The scanner and the decoder agree

The scanner finds where a literal ends and the decoder finds out what it denotes. Each of them knows
the escapes by itself, so a text that one of them takes could be one that the other refuses. It is
not: a scanned literal denotes a value unless it is a number that is too large
(`Literal.TooLarge`), and this is the only reason for which the parser calls a literal invalid
(`Expr.parseWithin_invalidLiteral`).

What the parser takes for an operand is a literal or a name. So when it decodes a token, it never
finds that there is no literal at all (`Literal.ofToken`); where it does miss an operand, the token
is still ahead.
-/

namespace Reckon

namespace Literal

/-- The text is a number that no value holds: digits that denote more than 63 bits do, or digits
with a point whose nearest number is infinity. -/
inductive TooLarge : Kind → (w : List Char) → Prop
  | integer {w : List Char} (hw : Decimal.isDigits w = true)
      (hn : 0x7FFFFFFFFFFFFFFF < Decimal.ofDigits w) : TooLarge .integer w
  | float {a b : List Char} (ha : Decimal.isDigits a = true) (hb : Decimal.isDigits b = true)
      (hn : Decimal.nearest ⟨Decimal.ofDigits (a ++ b), -(b.length : Int)⟩ .single =
        BinaryFormat.single.infinity) : TooLarge .float (a ++ '.' :: b)

/-- The literal of this kind that a text is. -/
def decoded (k : Kind) (lexeme : String) : Except ParseError Literal :=
  match decode? k lexeme with
  | some v => .ok ⟨k, lexeme, v⟩
  | none => .error (.invalidLiteral k lexeme)

/-- The literal that a token is, if it is one at all. -/
def ofToken (t : Token) : Except ParseError Literal :=
  match t.kind with
  | .integer => decoded .integer t.lexeme
  | .float => decoded .float t.lexeme
  | .char => decoded .char t.lexeme
  | .string => decoded .string t.lexeme
  | .identifier => decoded .bool t.lexeme
  | k => .error (.expectedExpression k t.offset)

/-! ## Numbers that are too large -/

/-- A scanned literal is too large if it denotes no value. -/
theorem tooLarge_of_decode? {t : Token} {k : Kind} (hs : Lexeme.Spells t.kind t.lexeme.toList)
    (hk : Kind.ofToken? t.kind t.lexeme = some k) (hnone : decode? k t.lexeme = none) :
    TooLarge k t.lexeme.toList := by
  cases (decode?_eq_none_iff hs hk).mp hnone with
  | integer hkind hn =>
    rw [hkind] at hs hk
    cases hk
    exact .integer hs hn
  | @float d hkind hd hn =>
    rw [hkind] at hs hk
    cases hk
    obtain ⟨a, b, hw, ha, hb⟩ := hs
    rw [hw, ofText?_point ha hb] at hd
    cases hd
    rw [hw]
    exact .float ha hb (Nat.le_antisymm (BinaryFormat.nearest_le_infinity _ _ _) hn)

/-! ## Quoted texts -/

theorem unescape?_string {w : List Char} (h : Lexeme.Spells .string w) :
    ∃ text, unescape? (inner w) = some text := by
  obtain ⟨b, rfl, hb⟩ := h
  rw [inner_quoted]
  exact unescape?_items hb

theorem unescape?_char {w : List Char} (h : Lexeme.Spells .char w) :
    ∃ c, unescape? (inner w) = some [c] := by
  obtain ⟨i, rfl, hi⟩ := h
  obtain ⟨c, hc⟩ := unescape?_item (b := []) hi rfl
  rw [List.append_nil] at hc
  rw [inner_quoted]
  exact ⟨c, hc⟩

end Literal

/-! ## Operands of one token -/

namespace Expr

theorem ofToken_of_kind {t : Token} {k : Kind} (hk : Kind.ofToken? t.kind t.lexeme = some k) :
    ofToken t = (Literal.decoded k t.lexeme).map literal := by
  rw [ofToken, hk, Literal.decoded]
  dsimp only
  cases Literal.decode? k t.lexeme <;> rfl

/-- A token that is an operand is a name or a literal. -/
theorem ofToken_eq {t : Token} (h : t.kind.isOperand = true) :
    ofToken t =
      if t.kind = .identifier ∧ t.lexeme ≠ "true" ∧ t.lexeme ≠ "false" then
        .ok (identifier t.lexeme)
      else (Literal.ofToken t).map literal := by
  obtain ⟨kind, lexeme, offset⟩ := t
  cases kind with
  | integer => exact ofToken_of_kind rfl
  | float => exact ofToken_of_kind rfl
  | char => exact ofToken_of_kind rfl
  | string => exact ofToken_of_kind rfl
  | identifier =>
    by_cases hbool : lexeme = "true" ∨ lexeme = "false"
    · rw [if_neg (by simpa [or_iff_not_imp_left] using hbool)]
      exact ofToken_of_kind (if_pos hbool)
    · obtain ⟨htrue, hfalse⟩ := not_or.mp hbool
      rw [if_pos ⟨rfl, htrue, hfalse⟩, ofToken]
      have hnone : Kind.ofToken? .identifier lexeme = none := if_neg hbool
      rw [hnone]
  | symbol s => cases h
  | illegal => cases h
  | eof => cases h

theorem ofToken_eq_invalidLiteral {t : Token} {k : Kind} {x : String}
    (h : ofToken t = .error (.invalidLiteral k x)) :
    Kind.ofToken? t.kind t.lexeme = some k ∧ x = t.lexeme ∧
      Literal.decode? k t.lexeme = none := by
  unfold ofToken at h
  split at h
  · cases h
  next k' hk =>
    split at h
    · cases h
    next hnone =>
      cases h
      exact ⟨hk, rfl, hnone⟩

end Expr

/-- A token that is an operand is of the kind of a literal, whatever its text. -/
theorem Literal.ofToken_ne_expectedExpression {t : Token} (h : t.kind.isOperand = true)
    (k : TokenKind) (o : Nat) : Literal.ofToken t ≠ .error (.expectedExpression k o) := by
  have hdecoded (l : Kind) : decoded l t.lexeme ≠ .error (.expectedExpression k o) := by
    unfold decoded
    split <;> exact nofun
  unfold ofToken
  split
  next hkind => exact hdecoded .integer
  next hkind => exact hdecoded .float
  next hkind => exact hdecoded .char
  next hkind => exact hdecoded .string
  next hkind => exact hdecoded .bool
  next hinteger hfloat hchar hstring hidentifier =>
    cases hkind : t.kind with
    | integer => exact absurd hkind hinteger
    | float => exact absurd hkind hfloat
    | char => exact absurd hkind hchar
    | string => exact absurd hkind hstring
    | identifier => exact absurd hkind hidentifier
    | _ => rw [hkind] at h; cases h

/-! ## Runs that fail -/

namespace Parser

/-- A literal that the parser calls invalid is a scanned one. -/
theorem Fails.tooLarge {rule : Rule} {p q : Parser} {k : Kind} {x : String}
    (h : Fails rule p (.badLiteral k x) q) (hp : p.Scanned) :
    Literal.TooLarge k x.toList := by
  generalize hc : Cause.badLiteral k x = c at h
  induction h with
  | here h =>
    cases h with
    | literal hoperand hadvance he =>
      cases hc
      obtain ⟨hk, rfl, hnone⟩ := Expr.ofToken_eq_invalidLiteral he
      have hs := hp.peek (fun heof => by rw [heof] at hoperand; cases hoperand)
        (fun hillegal => by rw [hillegal] at hoperand; cases hoperand)
      exact Literal.tooLarge_of_decode? hs hk hnone
    | _ => cases hc
  | call h hf ih => exact ih (h.onward.scanned hp) hc

/-- Where an operand is missing, the token ahead is none. -/
theorem Fails.noOperand {rule : Rule} {p q : Parser} (h : Fails rule p .noOperand q) :
    q.peek.kind.isOperand = false := by
  generalize hc : Cause.noOperand = c at h
  induction h with
  | here h =>
    cases h with
    | noOperand hk h => exact h
    | _ => cases hc
  | call h hf ih => exact ih hc

theorem Cause.error_eq_invalidLiteral {c : Cause} {q : Parser} {k : Kind} {x : String}
    (h : c.error q = .invalidLiteral k x) : c = .badLiteral k x := by
  cases c <;> cases h
  rfl

theorem Cause.error_eq_expectedExpression {c : Cause} {q : Parser} {k : TokenKind} {o : Nat}
    (h : c.error q = .expectedExpression k o) :
    c = .noOperand ∧ k = q.peek.kind ∧ o = q.peek.offset := by
  cases c <;> cases h
  exact ⟨rfl, rfl, rfl⟩

end Parser

/-! ## Whole sources -/

/-- A literal behind a minus sign that denotes no value is an error. -/
theorem Expr.parseWithin_minus_eq_error {source x : String} {k : Kind} {limit : Nat}
    (hlimit : 2 ≤ limit)
    (hw : (Token.tokens source).map Token.word = [Symbol.minus.word, (k.token, x)])
    (hk : Kind.ofToken? k.token x = some k) (hnone : Literal.decode? k x = none) :
    Expr.parseWithin limit source = .error (.invalidLiteral k x) := by
  let p := Parser.ofSource source limit
  have hp : p.words = [Symbol.minus.word, (k.token, x)] := hw
  have hroomy : p.Roomy := by
    refine ⟨?_, ?_⟩
    · rw [hp, List.forall_mem_cons, List.forall_mem_singleton]
      exact ⟨TokenKind.noConfusion, k.token_ne_illegal⟩
    · rw [hp]
      exact hlimit
  -- the state behind the sign, in front of the literal
  let q := p.deeper.advance
  have hq : q.words = [(k.token, x)] := Parser.words_deeper_advance hp
  have hroomy' : q.Roomy := hroomy.deeper_advance hp
  have hkind : q.peek.kind = k.token := Parser.kind_of_words hq
  have hlexeme : q.peek.lexeme = x := congrArg Prod.snd (Parser.words_advance hq).1
  have hahead : p.unaryAhead? = some .minus :=
    Parser.unary_ofKind?_eq_some_iff.mpr (Parser.kind_of_words hp)
  have hoperand : q.unaryAhead? = none ∧ q.peek.kind.isOperand = true := by
    rw [Parser.unaryAhead?, hkind]
    cases k <;> exact ⟨rfl, rfl⟩
  have htoken : Expr.ofToken q.peek = .error (.invalidLiteral k x) := by
    rw [Expr.ofToken, hkind, hlexeme, hk]
    simp only [hnone]
  have hfails : Parser.Fails (.binary BinaryOp.loosest) p (.badLiteral k x) q.advance :=
    .call .first (.call (.unary hahead (hroomy.canOpen hp)) (.call (.operand hoperand.1)
      (.here (.literal hoperand.2 (hroomy'.canAdvance hq) htoken))))
  exact Parser.parse_fst_eq_error_iff.mpr
    ⟨_, _, rfl, .inside (Parser.peek_legal hroomy.legal) hfails⟩

/--
**What the scanner takes for a literal, the decoder takes too.**

Whatever the limit of the depth, the parser calls a literal invalid only if it is a number that is
too large. Every string that is scanned stands for a text, and every character that is scanned
stands for one. An operand of one token is a name, or it is decoded, and the kind of the token never
stands in the way: where the parser misses an operand, the token that it finds instead is still
ahead, and is not of the kind of a literal or a name.
-/
theorem Expr.parseWithin_invalidLiteral (source : String) :
    (∀ (limit : Nat) (k : Kind) (lexeme : String),
      parseWithin limit source = .error (.invalidLiteral k lexeme) →
        Literal.TooLarge k lexeme.toList) ∧
    (∀ t ∈ Token.scanAll source, t.kind = .string →
      ∃ text, Literal.unescape? (Literal.inner t.lexeme.toList) = some text) ∧
    (∀ t ∈ Token.scanAll source, t.kind = .char →
      ∃ c, Literal.unescape? (Literal.inner t.lexeme.toList) = some [c]) ∧
    (∀ t : Token, t.kind.isOperand = true →
      ofToken t = (if t.kind = .identifier ∧ t.lexeme ≠ "true" ∧ t.lexeme ≠ "false" then
          .ok (identifier t.lexeme)
        else (Literal.ofToken t).map literal) ∧
      ∀ k o, Literal.ofToken t ≠ .error (.expectedExpression k o)) ∧
    ∀ (limit : Nat) (k : TokenKind) (o : Nat) (q : Parser),
      (Parser.ofSource source limit).parse = (.error (.expectedExpression k o), q) →
        k = q.peek.kind ∧ o = q.peek.offset ∧ k.isOperand = false := by
  refine ⟨fun limit k lexeme h => ?_, fun t ht hk => ?_, fun t ht hk => ?_, fun t ht => ?_,
    fun limit k o q h => ?_⟩
  · obtain ⟨c, q, hc, hrejects⟩ := Parser.parse_fst_eq_error_iff.mp h
    obtain rfl := Parser.Cause.error_eq_invalidLiteral hc.symm
    cases hrejects with
    | inside hlegal hfails => exact hfails.tooLarge (Parser.ofSource_scanned source limit)
  · exact Literal.unescape?_string (Token.spells_of_mem_scanAll ht hk (by decide) (by decide))
  · exact Literal.unescape?_char (Token.spells_of_mem_scanAll ht hk (by decide) (by decide))
  · exact ⟨ofToken_eq ht, Literal.ofToken_ne_expectedExpression ht⟩
  · obtain ⟨c, hc, hrejects⟩ := Parser.parse_eq_error_iff.mp h
    obtain ⟨rfl, rfl, rfl⟩ := Parser.Cause.error_eq_expectedExpression hc.symm
    cases hrejects with
    | inside hlegal hfails => exact ⟨rfl, rfl, hfails.noOperand⟩

/-- The sign of the smallest integer is no part of its literal. -/
theorem Expr.parseWithin_invalidLiteral_smallest :
    parseWithin 2 "-9223372036854775808" =
        .error (.invalidLiteral .integer "9223372036854775808") ∧
      Literal.TooLarge .integer "9223372036854775808".toList := by
  have hparse : parseWithin 2 "-9223372036854775808" =
      .error (.invalidLiteral .integer "9223372036854775808") :=
    parseWithin_minus_eq_error (Nat.le_refl _) (by decide +kernel) rfl (by decide +kernel)
  exact ⟨hparse, (parseWithin_invalidLiteral _).1 2 _ _ hparse⟩

end Reckon
