import Mathlib
import Reckon.Proofs.Binary.Stages
import Reckon.Proofs.CommandLine.Typing
import Reckon.Proofs.Evaluation.Modes

/-!
# Decimals as bindings and as literals

A literal is rounded once, to the nearest float. A binding holds the nearest double, which is rounded
to single precision where the name is evaluated. The two values are the same unless the first
rounding of the binding comes onto a midpoint (`BinaryFormat.Slips`), and then they are neighbours
(`Binding.ofArg_decimal`).
-/

namespace Reckon

open BinaryFormat

/-! ## A literal that is parsed -/

namespace Expr

/-- An expression of one word is a literal or a name. -/
theorem eq_of_flatten {e : Expr} {w : Word} (h : e.flatten = [w]) :
    (∃ l, e = literal l ∧ w = (l.kind.token, l.raw)) ∨
      ∃ name, e = identifier name ∧ w = (.identifier, name) := by
  cases e with
  | literal l => exact .inl ⟨l, rfl, (List.singleton_inj.mp h).symm⟩
  | identifier name => exact .inr ⟨name, rfl, (List.singleton_inj.mp h).symm⟩
  | unary op e => simp [flatten, flatten_ne_nil] at h
  | binary l op r => simp [flatten, List.append_eq_singleton_iff, flatten_ne_nil] at h
  | paren e => simp [flatten] at h
  | index b i => simp [flatten, List.append_eq_singleton_iff, flatten_ne_nil] at h
  | member b name => simp [flatten, List.append_eq_singleton_iff] at h

/-- A literal that is parsed denotes a value. -/
theorem decode?_of_parse {k : Kind} {w : List Char} {e : Expr} (hk : k ≠ .bool)
    (hs : Lexeme.Spells k.token w) (h : parse (String.ofList w) = .ok e) :
    ∃ v, Literal.decode? k (String.ofList w) = some v := by
  have hwords := words_of_parseWithin h
  rw [Token.tokens_of_spells hs] at hwords
  rcases eq_of_flatten hwords.symm with ⟨l, rfl, hl⟩ | ⟨name, rfl, hname⟩
  · obtain ⟨htoken, hraw⟩ : k.token = l.kind.token ∧ String.ofList w = l.raw := Prod.mk.inj hl
    rw [hraw]
    cases wellFormed_of_parseWithin h with
    | literal hspells hof =>
      have hkind : Kind.ofToken? l.kind.token l.raw = some k :=
        Kind.ofToken?_eq_some_iff.mpr ⟨htoken.symm, fun hbool => absurd hbool hk⟩
      rw [ofToken_of_kind hkind, Literal.decoded] at hof
      cases hv : Literal.decode? k l.raw with
      | some v => exact ⟨v, rfl⟩
      | none =>
        simp only [hv] at hof
        cases hof
  · have htoken : k.token = .identifier := congrArg Prod.fst hname
    cases k with
    | bool => exact absurd rfl hk
    | _ => cases htoken

end Expr

namespace Binding

/-! ## The two values of a decimal -/

theorem datum_of_float? {raw : String} {x : Float} (h : float? raw.toList = some x) :
    datum raw = .float x := by
  have hspells := exists_float?_iff.mp ⟨x, h⟩
  have htrue : raw ≠ "true" := by
    rintro rfl
    exact not_float_bool true hspells
  have hfalse : raw ≠ "false" := by
    rintro rfl
    exact not_float_bool false hspells
  have hint : integer? raw.toList = none := by
    cases hn : integer? raw.toList with
    | none => rfl
    | some n => exact absurd (integer?_eq_some_iff.mp hn) (not_denotes_float hspells _)
  rw [datum, if_neg htrue, if_neg hfalse, hint, h]

/-- A name stands for a double, and is evaluated in single precision. -/
theorem eval_float (env : Environment) {n : Nat} (hn : n ≤ double.infinity) :
    eval "x" (env.insert "x" (.float (Double.ofPattern false n))) =
      .ok (.float (Single.ofPattern false (double.convert single n))) := by
  have htokens : Token.tokens "x" = [⟨.identifier, "x", 0⟩] :=
    Token.tokens_of_spells (k := .identifier) (w := ['x']) ⟨'x', [], rfl, rfl, by simp⟩
  have hname : (Expr.identifier "x").WellFormed := Expr.wellFormed_letter (c := 'x') rfl
  rw [eval_of_wellFormed (by simp [htokens, Parser.defaultLimit]) hname (by rw [htokens]; rfl),
    Expr.evaluate_identifier, Expr.resolve, Environment.lookup, Environment.find?_insert_self]
  have hnarrow : Double.narrow (Double.ofPattern false n) =
      Single.ofPattern false (double.convert single n) := by
    rw [Double.narrow, Double.isNegative_ofPattern false hn, Double.pattern_ofPattern false hn]
  rw [← hnarrow]
  rfl

section

variable {whole fraction : List Char}

/-- The decimal of digits in front of a point and behind it. -/
def places (whole fraction : List Char) : Decimal :=
  ⟨Decimal.ofDigits (whole ++ fraction), -(fraction.length : Int)⟩

theorem value_places (whole fraction : List Char) :
    (places whole fraction).value = Decimal.ofDigits (whole ++ fraction) / 10 ^ fraction.length := by
  rw [places, Decimal.value, zpow_neg, zpow_natCast, div_eq_mul_inv]

/-- As a binding a decimal is the nearest double. -/
theorem ofArg_places (hwhole : Decimal.isDigits whole = true)
    (hfraction : Decimal.isDigits fraction = true) :
    ofArg ("x=" ++ String.ofList (whole ++ '.' :: fraction)) =
      .ok ("x", .float (Double.ofPattern false ((places whole fraction).nearest .double))) := by
  have hfloat : float? (whole ++ '.' :: fraction) =
      some (Double.ofPattern false ((places whole fraction).nearest .double)) := by
    have hdecimal := Literal.ofText?_point hwhole hfraction
    unfold float?
    split
    next r hminus =>
      -- digits do not start with a sign
      obtain ⟨c, cs, rfl⟩ := List.exists_cons_of_ne_nil (Lexeme.isDigits_ne_nil hwhole)
      cases hminus
      exact absurd (Lexeme.isDigits_cons.mp hwhole).1 (by decide)
    next => rw [hdecimal]; rfl
  have hdatum : datum (String.ofList (whole ++ '.' :: fraction)) =
      .float (Double.ofPattern false ((places whole fraction).nearest .double)) :=
    datum_of_float? (by rwa [String.toList_ofList])
  have harg := ofArg_append (show '=' ∉ "x".toList by decide)
    (String.ofList (whole ++ '.' :: fraction))
  rwa [hdatum] at harg

/-- As a literal a decimal is the nearest float. -/
theorem decode?_places (hwhole : Decimal.isDigits whole = true)
    (hfraction : Decimal.isDigits fraction = true) :
    Literal.decode? .float (String.ofList (whole ++ '.' :: fraction)) =
      if (places whole fraction).nearest .single < single.infinity then
        some (.float (Single.ofPattern false ((places whole fraction).nearest .single)))
      else none := by
  rw [Literal.decode?, String.toList_ofList, Literal.float?,
    Literal.ofText?_point hwhole hfraction]
  rfl

theorem eval_places (hwhole : Decimal.isDigits whole = true)
    (hfraction : Decimal.isDigits fraction = true)
    (hlt : (places whole fraction).nearest .single < single.infinity) (env : Environment) :
    eval (String.ofList (whole ++ '.' :: fraction)) env =
      .ok (.float (Single.ofPattern false ((places whole fraction).nearest .single))) := by
  refine eval_of_decode? (k := .float) (by decide) ⟨whole, fraction, rfl, hwhole, hfraction⟩ ?_ env
  rw [decode?_places hwhole hfraction, if_pos hlt]

/-- A decimal is parsed if its nearest float is a number. -/
theorem parse_places (hwhole : Decimal.isDigits whole = true)
    (hfraction : Decimal.isDigits fraction = true)
    (hlt : (places whole fraction).nearest .single < single.infinity) :
    ∃ e, Expr.parse (String.ofList (whole ++ '.' :: fraction)) = .ok e := by
  have hliteral := decode?_places hwhole hfraction
  rw [if_pos hlt] at hliteral
  exact ⟨_, Expr.parse_of_decode? (k := .float) (by decide)
    ⟨whole, fraction, rfl, hwhole, hfraction⟩ hliteral⟩

/--
**A decimal as a binding and as a literal.**

Let `x` be the number that digits with a point between them denote, and let the digits be a literal
that is parsed. A binding of the digits holds the double nearest to `x`, and its value is the float
nearest to this double, while the value of the literal is the float nearest to `x`. These are the
same, unless the double has slipped onto the midpoint of two neighbouring floats, from the side of
the one with the odd pattern. Then this one is the value of the literal, and the other one that of
the binding. Infinity counts as the neighbour of the largest number.
-/
theorem ofArg_decimal (hwhole : Decimal.isDigits whole = true)
    (hfraction : Decimal.isDigits fraction = true) {e : Expr}
    (hparse : Expr.parse (String.ofList (whole ++ '.' :: fraction)) = .ok e) (env : Environment) :
    let text := String.ofList (whole ++ '.' :: fraction)
    let x : ℚ := Decimal.ofDigits (whole ++ fraction) / 10 ^ fraction.length
    ∃ n a b, double.Rounds x n ∧ n < double.infinity ∧ single.Rounds x a ∧ a < single.infinity ∧
      single.Rounds (double.value n) b ∧
      ofArg ("x=" ++ text) = .ok ("x", .float (Double.ofPattern false n)) ∧
      eval text env = .ok (.float (Single.ofPattern false a)) ∧
      eval "x" (env.insert "x" (.float (Double.ofPattern false n))) =
        .ok (.float (Single.ofPattern false b)) ∧
      (Single.ofPattern false b = Single.ofPattern false a ↔
        ¬ ∃ p, single.Slips x (double.value n) p) ∧
      ∀ p, single.Slips x (double.value n) p → a = p + (p + 1) % 2 ∧ b = p + p % 2 := by
  intro text x
  have hspells : Lexeme.Spells .float (whole ++ '.' :: fraction) :=
    ⟨whole, fraction, rfl, hwhole, hfraction⟩
  obtain ⟨v, hv⟩ := Expr.decode?_of_parse (k := .float) (by decide) hspells hparse
  have hlt : (places whole fraction).nearest .single < single.infinity := by
    by_contra hlarge
    rw [decode?_places hwhole hfraction, if_neg hlarge] at hv
    cases hv
  have hn := Decimal.nearest_rounds (f := double) (by decide) (places whole fraction)
  have ha := Decimal.nearest_rounds (f := single) (by decide) (places whole fraction)
  rw [value_places] at hn ha
  have hfinite := double_refines_single.lt_infinity hn ha hlt
  have hb := convert_rounds hfinite
  refine ⟨_, _, _, hn, hfinite, ha, hlt, hb, ofArg_places hwhole hfraction,
    eval_places hwhole hfraction hlt env, eval_float env hfinite.le, ?_,
    fun p hp => double_refines_single.slips hn ha hb hp⟩
  rw [Single.ofPattern_inj hb.le hlt.le, eq_comm]
  exact double_refines_single.eq_iff hn ha hb

/-- A decimal just below the number that would come behind the largest one. The literal is the
largest number, and the binding is infinite. -/
theorem ofArg_decimal_largest :
    let text := "340282356779733661637539395458142568447.9"
    (∃ e, Expr.parse text = .ok e) ∧
      ∃ y, ofArg ("x=" ++ text) = .ok ("x", .float y) ∧
        eval text Environment.empty = .ok (.float (Single.ofPattern false 0x7F7FFFFF)) ∧
        eval "x" (Environment.empty.insert "x" (.float y)) =
          .ok (.float (Single.ofPattern false single.infinity)) := by
  have htext : "340282356779733661637539395458142568447.9" =
      String.ofList ("340282356779733661637539395458142568447".toList ++ '.' :: ['9']) := by decide
  have hwhole : Decimal.isDigits "340282356779733661637539395458142568447".toList = true := by decide
  have hfraction : Decimal.isDigits ['9'] = true := by decide
  have hdouble : (places "340282356779733661637539395458142568447".toList ['9']).nearest .double =
      0x47EFFFFFF0000000 := by decide +kernel
  have hsingle : (places "340282356779733661637539395458142568447".toList ['9']).nearest .single =
      0x7F7FFFFF := by decide +kernel
  have hdigits : Decimal.ofDigits ("340282356779733661637539395458142568447".toList ++ ['9']) =
      3402823567797336616375393954581425684479 := by decide +kernel
  generalize "340282356779733661637539395458142568447".toList = whole at *
  obtain ⟨e, hparse⟩ := parse_places hwhole hfraction (by rw [hsingle]; decide)
  obtain ⟨n, a, b, hn, -, -, -, -, harg, hliteral, hname, -, htie⟩ :=
    ofArg_decimal hwhole hfraction hparse Environment.empty
  have hnearest := Decimal.nearest_rounds (f := double) (by decide) (places whole ['9'])
  rw [value_places] at hnearest
  have hpattern : n = 0x47EFFFFFF0000000 := (hn.unique hnearest).trans hdouble
  have hmid : single.midpoint 0x7F7FFFFF = 2 ^ 128 - 2 ^ 103 := by
    have hsignificand : single.significand 0x7F7FFFFF = 2 ^ 24 - 1 := by decide
    have hexponent : single.exponent 0x7F7FFFFF = 104 := by decide
    rw [midpoint_eq, hsignificand, hexponent]
    norm_num
  have hvalue : double.value n = 2 ^ 128 - 2 ^ 103 := by
    have hsignificand : double.significand 0x47EFFFFFF0000000 = 2 ^ 53 - 2 ^ 28 := by decide
    have hexponent : double.exponent 0x47EFFFFFF0000000 = 75 := by decide
    rw [hpattern, value, hsignificand, hexponent]
    norm_num
  have hslips : single.Slips (Decimal.ofDigits (whole ++ ['9']) / 10 ^ ['9'].length)
      (double.value n) 0x7F7FFFFF := by
    refine ⟨by decide, by rw [hvalue, hmid], ?_⟩
    rw [if_neg (by decide), hvalue, hdigits]
    norm_num
  obtain ⟨rfl, rfl⟩ := htie _ hslips
  rw [htext]
  exact ⟨⟨e, hparse⟩, _, harg, hliteral, hname⟩

/-- A decimal just above the midpoint behind 1 is not the same as a binding and as a literal. -/
theorem decimal_differs :
    let text := "1.00000005960464478"
    Lexeme.Spells .float text.toList ∧ (∃ e, Expr.parse text = .ok e) ∧
      ∃ y, ofArg ("x=" ++ text) = .ok ("x", .float y) ∧
        eval "x" (Environment.empty.insert "x" (.float y)) ≠ eval text Environment.empty := by
  have htext : "1.00000005960464478" =
      String.ofList (['1'] ++ '.' :: "00000005960464478".toList) := by decide
  have hwhole : Decimal.isDigits ['1'] = true := by decide
  have hfraction : Decimal.isDigits "00000005960464478".toList = true := by decide
  have hdouble : (places ['1'] "00000005960464478".toList).nearest .double =
      0x3FF0000010000000 := by decide +kernel
  have hsingle : (places ['1'] "00000005960464478".toList).nearest .single = 0x3F800001 := by
    decide +kernel
  generalize "00000005960464478".toList = fraction at *
  have hlt : (places ['1'] fraction).nearest .single < single.infinity := by
    rw [hsingle]
    decide
  intro text
  rw [show text = _ from htext]
  refine ⟨?_, parse_places hwhole hfraction hlt, _, ofArg_places hwhole hfraction, ?_⟩
  · rw [String.toList_ofList]
    exact ⟨['1'], fraction, rfl, hwhole, hfraction⟩
  · have hconvert : double.convert single 0x3FF0000010000000 = 0x3F800000 := by decide +kernel
    rw [eval_places hwhole hfraction hlt, hsingle, hdouble, eval_float _ (by decide), hconvert]
    intro heq
    injection heq with heq
    injection heq with heq
    exact absurd ((Single.ofPattern_inj (by decide) (by decide)).mp heq) (by decide)

end

end Binding

end Reckon
