import Reckon.Proofs.Evaluation.RoundTrip
import Reckon.Proofs.Parsing.Trailing
import Reckon.Proofs.Safety.Slices

/-!
# Bindings are typed as sources are

The text of a binding is not scanned. It is tried as one sort of datum after the other, by readers
that know digits, signs and points by themselves, and is a string if none of them takes it. Still a
text is bound to the truth value or the integer that it evaluates to, and to a float if it is one
token of this kind behind the sign (`Binding.Typed`). No text is taken by two of the readers, so
their order does not matter.

They part at one place. The smallest integer can be bound, but it is no source: behind the minus
sign stands a number that does not fit.
-/

namespace Reckon

/-! ## Texts of integers -/

namespace Denotes

variable {w ds : List Char} {i : Int}

theorem minus_iff :
    Denotes ('-' :: ds) i ↔ Decimal.isDigits ds = true ∧ -(Decimal.ofDigits ds : Int) = i := by
  constructor
  · intro h
    cases h with
    | digits h => exact absurd (Lexeme.isDigits_cons.mp h).1 (by decide)
    | minus h => exact ⟨h, rfl⟩
  · rintro ⟨h, rfl⟩
    exact .minus h

theorem plus_iff :
    Denotes ('+' :: ds) i ↔ Decimal.isDigits ds = true ∧ Decimal.ofDigits ds = i := by
  constructor
  · intro h
    cases h with
    | digits h => exact absurd (Lexeme.isDigits_cons.mp h).1 (by decide)
    | plus h => exact ⟨h, rfl⟩
  · rintro ⟨h, rfl⟩
    exact .plus h

theorem unsigned_iff (hminus : ∀ r, w ≠ '-' :: r) (hplus : ∀ r, w ≠ '+' :: r) :
    Denotes w i ↔ Decimal.isDigits w = true ∧ Decimal.ofDigits w = i := by
  constructor
  · intro h
    cases h with
    | digits h => exact ⟨h, rfl⟩
    | plus h => exact absurd rfl (hplus _)
    | minus h => exact absurd rfl (hminus _)
  · rintro ⟨h, rfl⟩
    exact .digits h

theorem head (h : Denotes w i) : ∃ c ∈ w.head?, c = '+' ∨ c = '-' ∨ c.isDigit = true := by
  cases h with
  | digits h =>
    obtain ⟨c, r, rfl⟩ := List.exists_cons_of_ne_nil (Lexeme.isDigits_ne_nil h)
    exact ⟨c, rfl, .inr (.inr (Lexeme.isDigits_cons.mp h).1)⟩
  | plus h => exact ⟨'+', rfl, .inl rfl⟩
  | minus h => exact ⟨'-', rfl, .inr (.inl rfl)⟩

theorem point_not_mem (h : Denotes w i) : '.' ∉ w := by
  cases h with
  | digits h => exact Lexeme.point_not_mem h
  | plus h => exact List.not_mem_cons_of_ne_of_not_mem (by decide) (Lexeme.point_not_mem h)
  | minus h => exact List.not_mem_cons_of_ne_of_not_mem (by decide) (Lexeme.point_not_mem h)

end Denotes

/-- A text is scanned as one token that spans all of it if it spells this token. -/
theorem Token.scanAll_eq_iff {k : TokenKind} {w : List Char} (hlegal : k ≠ .illegal)
    (heof : k ≠ .eof) :
    scanAll (String.ofList w) =
        [⟨k, String.ofList w, 0⟩, ⟨.eof, "", (String.ofList w).utf8ByteSize⟩] ↔
      Lexeme.Spells k w := by
  constructor
  · intro h
    have hmem : ⟨k, String.ofList w, 0⟩ ∈ scanAll (String.ofList w) := by
      rw [h]
      exact List.mem_cons_self
    have hs := spells_of_mem_scanAll hmem rfl hlegal heof
    rwa [String.toList_ofList] at hs
  · exact scanAll_of_spells

/-- The words for the truth values are read back. -/
theorem eval_bool (b : Bool) (env : Environment) :
    eval (Value.bool b).text env = .ok (.bool b) := by
  have hwf : (Expr.literal ⟨.bool, (Value.bool b).text, .bool b⟩).WellFormed := by
    cases b
    · exact .literal ⟨'f', ['a', 'l', 's', 'e'], rfl, rfl, List.all_eq_true.mp rfl⟩ rfl
    · exact .literal ⟨'t', ['r', 'u', 'e'], rfl, rfl, List.all_eq_true.mp rfl⟩ rfl
  exact eval_raw hwf env

namespace Binding

/-! ## The readers -/

/-- The characters behind one minus sign, if there is one. -/
def unsigned : List Char → List Char
  | '-' :: r => r
  | r => r

/-- A text without its first and its last character if these are quotation marks, and two. -/
def unquoted (raw : String) : String :=
  if 2 ≤ raw.utf8ByteSize ∧ raw.toList.head? = some '"' ∧ raw.toList.getLast? = some '"' then
    String.ofList raw.toList.tail.dropLast
  else raw

theorem integer?_eq_some_iff {cs : List Char} {n : Int64} :
    integer? cs = some n ↔ Denotes cs n.toInt := by
  unfold integer?
  split
  next r => rw [Option.ite_none_right_eq_some, int64?_eq_some_iff, Denotes.minus_iff]
  next r => rw [Option.ite_none_right_eq_some, int64?_eq_some_iff, Denotes.plus_iff]
  next hminus hplus =>
    rw [Option.ite_none_right_eq_some, int64?_eq_some_iff, Denotes.unsigned_iff hminus hplus]

theorem exists_float?_iff {cs : List Char} :
    (∃ x, float? cs = some x) ↔ Lexeme.Spells .float (unsigned cs) := by
  have hmap {w : List Char} (f : Decimal → Float) :
      (∃ x, (Decimal.ofText? w).map f = some x) ↔ Lexeme.Spells .float w := by
    rw [← Literal.exists_ofText?_iff]
    simp
  unfold float?
  split
  next r => exact hmap _
  next hminus =>
    have hunsigned : unsigned cs = cs := by
      unfold unsigned
      split
      next r => exact absurd rfl (hminus r)
      next => rfl
    rw [hunsigned]
    exact hmap _

theorem unquoted_eq (raw : String) :
    unquoted raw = ((quoted? raw.toList).map String.ofList).getD raw := by
  unfold unquoted
  split
  next h =>
    obtain ⟨w, hw⟩ := Checked.inside_iff.mp h
    rw [Checked.binding_quoted?_eq_some_iff.mpr hw, hw, List.tail_cons, List.dropLast_concat]
    rfl
  next h =>
    cases hquoted : quoted? raw.toList with
    | none => rfl
    | some w =>
      exact absurd (Checked.inside_iff.mpr ⟨w, Checked.binding_quoted?_eq_some_iff.mp hquoted⟩) h

/-! ## Only one reader takes a text -/

theorem not_denotes_bool (b : Bool) (i : Int) : ¬ Denotes (Value.bool b).text.toList i := by
  intro h
  obtain ⟨c, hc, hsign⟩ := h.head
  cases b <;> cases hc <;> exact absurd hsign (by decide)

theorem not_float_bool (b : Bool) :
    ¬ Lexeme.Spells .float (unsigned (Value.bool b).text.toList) := by
  cases b
  · exact fun h => absurd (@Lexeme.Spells.starts .float 'f' ['a', 'l', 's', 'e'] h) (by decide)
  · exact fun h => absurd (@Lexeme.Spells.starts .float 't' ['r', 'u', 'e'] h) (by decide)

/-- A float has a point, and an integer has none. -/
theorem not_denotes_float {cs : List Char} (h : Lexeme.Spells .float (unsigned cs)) (i : Int) :
    ¬ Denotes cs i := by
  have hsub : unsigned cs ⊆ cs := by
    unfold unsigned
    split
    · exact List.subset_cons_self _ _
    · exact List.Subset.refl _
  obtain ⟨a, b, hw, -⟩ := h
  exact fun hi => hi.point_not_mem (hsub (by simp [hw]))

/-- What a text stands for, without an order among the readers. -/
inductive StandsFor (raw : String) : (d : Datum) → Prop
  | bool {b : Bool} (h : raw = (Value.bool b).text) : StandsFor raw (.bool b)
  | int {n : Int64} (h : Denotes raw.toList n.toInt) : StandsFor raw (.int n)
  | float {x : Float} (h : Lexeme.Spells .float (unsigned raw.toList)) : StandsFor raw (.float x)
  | string (hb : ∀ b : Bool, raw ≠ (Value.bool b).text)
      (hi : ∀ n : Int64, ¬ Denotes raw.toList n.toInt)
      (hf : ¬ Lexeme.Spells .float (unsigned raw.toList)) : StandsFor raw (.string (unquoted raw))

theorem standsFor_datum (raw : String) : StandsFor raw (datum raw) := by
  unfold datum
  split
  next h => exact .bool (b := true) h
  next htrue =>
  split
  next h => exact .bool (b := false) h
  next hfalse =>
  have hstring (hi : integer? raw.toList = none) (hf : float? raw.toList = none) :
      StandsFor raw (.string (((quoted? raw.toList).map String.ofList).getD raw)) := by
    rw [← unquoted_eq]
    refine .string (Bool.rec hfalse htrue) (fun n hn => ?_) fun hfloat => ?_
    · cases hi.symm.trans (integer?_eq_some_iff.mpr hn)
    · obtain ⟨x, hx⟩ := exists_float?_iff.mpr hfloat
      cases hf.symm.trans hx
  split
  next hn => exact .int (integer?_eq_some_iff.mp hn)
  next hx => exact .float (exists_float?_iff.mp ⟨_, hx⟩)
  next hi hf hq =>
    rw [hq] at hstring
    exact hstring hi hf
  next hi hf hq =>
    rw [hq] at hstring
    exact hstring hi hf

namespace StandsFor

variable {raw : String} {d : Datum}

theorem bool_iff (h : StandsFor raw d) (b : Bool) : d = .bool b ↔ raw = (Value.bool b).text := by
  cases h with
  | @bool b' h =>
    subst h
    cases b <;> cases b' <;> simp [Value.text]
  | int h =>
    refine iff_of_false Datum.noConfusion ?_
    rintro rfl
    exact not_denotes_bool b _ h
  | float h =>
    refine iff_of_false Datum.noConfusion ?_
    rintro rfl
    exact not_float_bool b h
  | string hb => exact iff_of_false Datum.noConfusion (hb b)

theorem int_iff (h : StandsFor raw d) (n : Int64) : d = .int n ↔ Denotes raw.toList n.toInt := by
  cases h with
  | @bool b h =>
    subst h
    exact iff_of_false Datum.noConfusion (not_denotes_bool b _)
  | int h =>
    rw [← integer?_eq_some_iff] at h ⊢
    rw [h, Option.some_inj, Datum.int.injEq]
  | float h => exact iff_of_false Datum.noConfusion (not_denotes_float h _)
  | string _ hi => exact iff_of_false Datum.noConfusion (hi n)

theorem float_iff (h : StandsFor raw d) :
    (∃ x, d = .float x) ↔ Lexeme.Spells .float (unsigned raw.toList) := by
  cases h with
  | @bool b h =>
    subst h
    exact iff_of_false (fun ⟨_, hx⟩ => Datum.noConfusion hx) (not_float_bool b)
  | int h =>
    exact iff_of_false (fun ⟨_, hx⟩ => Datum.noConfusion hx) fun hf => not_denotes_float hf _ h
  | @float x h => exact iff_of_true ⟨x, rfl⟩ h
  | string _ _ hf => exact iff_of_false (fun ⟨_, hx⟩ => Datum.noConfusion hx) hf

theorem eq_string (h : StandsFor raw d) (hi : ∀ n, d ≠ .int n) (hb : ∀ b, d ≠ .bool b)
    (hf : ∀ x, d ≠ .float x) : d = .string (unquoted raw) := by
  cases h with
  | bool _ => exact absurd rfl (hb _)
  | int _ => exact absurd rfl (hi _)
  | float _ => exact absurd rfl (hf _)
  | string _ _ _ => rfl

end StandsFor

/-! ## Arguments -/

/-- The name in front of the first equals sign is bound to what stands behind it. -/
theorem ofArg_append {name : String} (h : '=' ∉ name.toList) (raw : String) :
    ofArg (name ++ "=" ++ raw) = .ok (Text.trim name, datum raw) := by
  have hlist : (name ++ "=" ++ raw).toList = name.toList ++ '=' :: raw.toList := by
    simp [String.toList_append]
  rw [ofArg, hlist, Literal.span_ne_append h]
  simp only [String.ofList_toList]

theorem exists_append {arg : String} (h : '=' ∈ arg.toList) :
    ∃ name raw : String, arg = name ++ "=" ++ raw ∧ '=' ∉ name.toList := by
  obtain ⟨as, bs, harg, hname⟩ := List.eq_append_cons_of_mem h
  refine ⟨String.ofList as, String.ofList bs, ?_, ?_⟩
  · rw [← String.toList_inj, harg]
    simp [String.toList_append]
  · rwa [String.toList_ofList]

/-- A name that an argument gives as it is: it has no equals sign in it, and no white space at
either end. -/
structure Plain (name : String) : Prop where
  noEquals : '=' ∉ name.toList
  head : ∀ c ∈ name.toList.head?, Text.isSpace c = false
  last : ∀ c ∈ name.toList.getLast?, Text.isSpace c = false

theorem Plain.trim_eq {name : String} (h : Plain name) : Text.trim name = name := by
  have hdrop : name.toList.dropWhile Text.isSpace = name.toList := by
    cases hcs : name.toList with
    | nil => rfl
    | cons c r => exact List.dropWhile_cons_of_neg (by simp [h.head c (by simp [hcs])])
  rw [Text.trim, hdrop, Text.dropTrailing_of_getLast? h.last, String.ofList_toList]

/-- Between quotation marks there may be any text. -/
theorem datum_quoted (s : String) : datum ("\"" ++ s ++ "\"") = .string s := by
  have hlist : ("\"" ++ s ++ "\"").toList = '"' :: (s.toList ++ ['"']) := by
    simp [String.toList_append]
  have h := standsFor_datum ("\"" ++ s ++ "\"")
  have hint (n : Int64) : datum ("\"" ++ s ++ "\"") ≠ .int n := by
    rw [ne_eq, h.int_iff, hlist]
    intro hn
    obtain ⟨c, hc, hsign⟩ := hn.head
    cases hc
    exact absurd hsign (by decide)
  have hbool (b : Bool) : datum ("\"" ++ s ++ "\"") ≠ .bool b := by
    rw [ne_eq, h.bool_iff, ← String.toList_inj, hlist]
    cases b <;> exact fun heq => absurd (List.cons.inj heq).1 (by decide)
  have hfloat (x : Float) : datum ("\"" ++ s ++ "\"") ≠ .float x := by
    intro hx
    have hs := h.float_iff.mp ⟨x, hx⟩
    rw [hlist] at hs
    exact absurd hs.starts (by decide)
  rw [h.eq_string hint hbool hfloat, unquoted_eq,
    Checked.binding_quoted?_eq_some_iff.mpr hlist, Option.map_some, Option.getD_some,
    String.ofList_toList]

/--
The text is bound to the datum `d`, and the language types it in the same way.

A text of a truth value or of an integer also has it as its value, but for the smallest integer,
where the digits behind the sign are no literal. A text that stands for nothing else is a string,
without its quotation marks if it has a pair of them around it.
-/
structure Typed (env : Environment) (raw : String) (d : Datum) : Prop where
  int : ∀ n : Int64, d = .int n ↔ Denotes raw.toList n.toInt
  eval_int : ∀ n : Int64, d = .int n → n ≠ Int64.minValue → eval raw env = .ok (.integer n)
  eval_minValue : d = .int Int64.minValue → ∃ ds, raw = "-" ++ ds ∧
    eval raw env = .error (.parse (.invalidLiteral .integer ds))
  bool : ∀ b : Bool, d = .bool b ↔ raw = if b then "true" else "false"
  eval_bool : ∀ b : Bool, d = .bool b → eval raw env = .ok (.bool b)
  float : let number := String.ofList (unsigned raw.toList)
    (∃ x, d = .float x) ↔
      Token.scanAll number = [⟨.float, number, 0⟩, ⟨.eof, "", number.utf8ByteSize⟩]
  string : (∀ n, d ≠ .int n) → (∀ b, d ≠ .bool b) → (∀ x, d ≠ .float x) →
    d = .string (unquoted raw)

theorem StandsFor.typed {d : Datum} (h : StandsFor raw d) (env : Environment) :
    Typed env raw d where
  int := h.int_iff
  eval_int n hd hmin := by
    rw [← String.ofList_toList (s := raw)]
    exact eval_of_denotes ((h.int_iff n).mp hd) hmin env
  eval_minValue hd := by
    obtain ⟨ds, hraw, heval⟩ := eval_of_denotes_minValue ((h.int_iff _).mp hd) env
    rw [String.ofList_toList] at heval
    refine ⟨String.ofList ds, ?_, heval⟩
    rw [← String.toList_inj, hraw, String.toList_append, String.toList_ofList (l := ds)]
    rfl
  bool := h.bool_iff
  eval_bool b hd := by
    rw [(h.bool_iff b).mp hd]
    exact eval_bool b env
  float := h.float_iff.trans (Token.scanAll_eq_iff (by decide) (by decide)).symm
  string := h.eq_string

/--
**Bindings are typed as sources are.**

An argument with an equals sign binds its name to a datum that is typed like a source of the same
text. So a name that is trimmed already is bound to any string that is put between quotation marks,
as it is and without escapes, and to any integer that is written in decimal.
-/
theorem ofArg_typed (env : Environment) :
    (∀ arg : String, '=' ∈ arg.toList → ∃ name raw d, arg = name ++ "=" ++ raw ∧
      '=' ∉ name.toList ∧ ofArg arg = .ok (Text.trim name, d) ∧ Typed env raw d) ∧
    ∀ name : String, Plain name →
      (∀ s : String, ofArg (name ++ "=" ++ ("\"" ++ s ++ "\"")) = .ok (name, .string s)) ∧
      ∀ n : Int64, ofArg (name ++ "=" ++ toString n.toInt) = .ok (name, .int n) := by
  refine ⟨fun arg harg => ?_, fun name hname => ⟨fun s => ?_, fun n => ?_⟩⟩
  · obtain ⟨name, raw, rfl, hname⟩ := exists_append harg
    exact ⟨name, raw, datum raw, rfl, hname, ofArg_append hname raw,
      (standsFor_datum raw).typed env⟩
  · rw [ofArg_append hname.noEquals, hname.trim_eq, datum_quoted]
  · have hdatum : datum (toString n.toInt) = .int n :=
      ((standsFor_datum _).int_iff n).mpr (denotes_text n)
    rw [ofArg_append hname.noEquals, hname.trim_eq, hdatum]

/-- The smallest integer, and an equals sign and digits between quotation marks. -/
theorem ofArg_typed_smallest :
    ofArg "x=-9223372036854775808" = .ok ("x", .int Int64.minValue) ∧
      ofArg "x=\"1=2\"" = .ok ("x", .string "1=2") := by
  have hspace : Text.isSpace 'x' = false := by decide
  have hname : Plain "x" :=
    ⟨by decide, fun c hc => (by cases hc; exact hspace), fun c hc => (by cases hc; exact hspace)⟩
  obtain ⟨hstring, hint⟩ := (ofArg_typed Environment.empty).2 "x" hname
  exact ⟨hint Int64.minValue, hstring "1=2"⟩

end Binding

end Reckon
