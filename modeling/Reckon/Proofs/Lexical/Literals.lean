import Mathlib.Data.List.TakeDrop
import Mathlib.Data.List.TakeWhile
import Reckon.Literal
import Reckon.Proofs.Lexical.Grammar

/-!
# What scanned literals denote

A text that spells a literal denotes a value, unless it is a number that is too large
(`Literal.decode?_eq_none_iff`). Quoted texts always do, because the scanner takes no escape that
stands for nothing: what it takes for a character is a way to write one (`Literal.Writes`). A
character stands for itself or, if it has an escape, the escape stands for it.
-/

namespace Reckon

/-- The token is a number that is too large for a value: an integer that does not fit into 64 bits
with a sign, or a float that rounds to infinity. -/
inductive Token.OutOfRange (t : Token) : Prop
  | integer (hk : t.kind = .integer) (hn : 0x8000000000000000 ≤ Decimal.ofDigits t.lexeme.toList)
  | float {d : Decimal} (hk : t.kind = .float) (hd : Decimal.ofText? t.lexeme.toList = some d)
    (hn : BinaryFormat.single.infinity ≤ d.nearest .single)

namespace Literal

/-! ## Ways to write a character -/

theorem unescapeChar?_of_isEscape {c : Char} (h : Lexeme.isEscape c = true) :
    ∃ d, unescapeChar? c = some d := by
  simp only [Lexeme.isEscape, Bool.or_eq_true, decide_eq_true_eq, or_assoc] at h
  rcases h with rfl | rfl | rfl | rfl | rfl | rfl | rfl | rfl | rfl | rfl <;> exact ⟨_, rfl⟩

/-- The characters behind the backslash of an escape, each with what the escape stands for. -/
def escapes : List (Char × Char) :=
  [('a', '\x07'), ('b', '\x08'), ('f', '\x0C'), ('n', '\n'), ('r', '\r'), ('t', '\t'),
    ('v', '\x0B'), ('\\', '\\'), ('"', '"'), ('0', '\x00')]

/-- The text `i` is a way to write the character `c` between two characters `quote`. -/
inductive Writes (quote : Char) : (i : List Char) → (c : Char) → Prop
  | raw {c : Char} (hq : c ≠ quote) (hb : c ≠ '\\') : Writes quote [c] c
  | escape {x c : Char} (h : (x, c) ∈ escapes) : Writes quote ['\\', x] c

/-- The text `b` is a way to write the characters `cs`, one after the other. -/
inductive WritesAll (quote : Char) : (b cs : List Char) → Prop
  | nil : WritesAll quote [] []
  | cons {i b : List Char} {c : Char} {cs : List Char} (hi : Writes quote i c)
      (hb : WritesAll quote b cs) : WritesAll quote (i ++ b) (c :: cs)

variable {q : Char} {i b : List Char} {c : Char} {cs : List Char}

/-- The scanner and the decoder know the same escapes. -/
theorem mem_escapes_iff {x : Char} :
    (x, c) ∈ escapes ↔ Lexeme.isEscape x = true ∧ unescapeChar? x = some c := by
  constructor
  · have hall : ∀ e ∈ escapes, Lexeme.isEscape e.1 = true ∧ unescapeChar? e.1 = some e.2 := by
      decide
    exact hall (x, c)
  · rintro ⟨-, h⟩
    unfold unescapeChar? at h
    split at h <;> cases h <;> decide

theorem Writes.item (h : Writes q i c) : Lexeme.Item q i := by
  cases h with
  | raw hq hb => exact .plain hq hb
  | escape h => exact .escape (mem_escapes_iff.mp h).1

/-- What the scanner takes for a character is a way to write one. -/
theorem exists_writes (h : Lexeme.Item q i) : ∃ c, Writes q i c := by
  cases h with
  | @plain c hq hb => exact ⟨c, .raw hq hb⟩
  | @escape x hx =>
    obtain ⟨c, hc⟩ := unescapeChar?_of_isEscape hx
    exact ⟨c, .escape (mem_escapes_iff.mpr ⟨hx, hc⟩)⟩

/-- Only the quote itself might have to do without a way to be written. -/
theorem exists_writes_of_ne (hq : c ≠ q) : ∃ i, Writes q i c := by
  by_cases hb : c = '\\'
  · exact ⟨['\\', '\\'], .escape (by rw [hb]; decide)⟩
  · exact ⟨[c], .raw hq hb⟩

/-- Every text can be written down between quotation marks. -/
theorem exists_writesAll (cs : List Char) : ∃ b, WritesAll '"' b cs := by
  induction cs with
  | nil => exact ⟨[], .nil⟩
  | cons c cs ih =>
    obtain ⟨b, hb⟩ := ih
    by_cases hq : c = '"'
    · exact ⟨['\\', '"'] ++ b, .cons (.escape (by rw [hq]; decide)) hb⟩
    · obtain ⟨i, hi⟩ := exists_writes_of_ne hq
      exact ⟨i ++ b, .cons hi hb⟩

/-- No escape stands for an apostrophe. -/
theorem Writes.ne_apostrophe (h : Writes '\'' i c) : c ≠ '\'' := by
  cases h with
  | raw hq hb => exact hq
  | escape h =>
    have hall : ∀ e ∈ escapes, e.2 ≠ '\'' := by decide
    exact hall _ h

/-! ## Quoted texts -/

theorem Writes.unescape? {t : List Char} (h : Writes q i c) (hb : Literal.unescape? b = some t) :
    Literal.unescape? (i ++ b) = some (c :: t) := by
  cases h with
  | raw hq hc =>
    rw [List.singleton_append, Literal.unescape?, hb]
    · rfl
    · exact fun h _ => hc h
    · exact fun _ _ h => absurd h hc
  | escape h =>
    rw [List.cons_append, List.singleton_append, Literal.unescape?, (mem_escapes_iff.mp h).2, hb]

theorem WritesAll.items (h : WritesAll q b cs) : Lexeme.Items q b := by
  induction h with
  | nil => exact .nil
  | cons hi _ ih => exact .cons hi.item ih

theorem WritesAll.unescape? (h : WritesAll q b cs) : Literal.unescape? b = some cs := by
  induction h with
  | nil => rfl
  | cons hi _ ih => exact hi.unescape? ih

/-- One character as it is written stands for one character. -/
theorem unescape?_item {t : List Char} (hi : Lexeme.Item q i) (hb : unescape? b = some t) :
    ∃ c, unescape? (i ++ b) = some (c :: t) := by
  obtain ⟨c, hc⟩ := exists_writes hi
  exact ⟨c, hc.unescape? hb⟩

theorem unescape?_items (h : Lexeme.Items q b) : ∃ t, unescape? b = some t := by
  induction h with
  | nil => exact ⟨[], rfl⟩
  | cons hi hb ih =>
    obtain ⟨t, ht⟩ := ih
    obtain ⟨c, hc⟩ := unescape?_item hi ht
    exact ⟨c :: t, hc⟩

theorem inner_quoted (c d : Char) (b : List Char) : inner (c :: (b ++ [d])) = b := by
  rw [inner, List.drop_one, List.tail_cons, List.dropLast_concat]

/-! ## Numbers -/

theorem integer?_eq_none_iff {w : List Char} (h : Decimal.isDigits w = true) :
    integer? w = none ↔ 0x8000000000000000 ≤ Decimal.ofDigits w := by
  rw [integer?, if_pos h, Option.map_eq_none_iff, int64?]
  split <;> simp <;> omega

/-- A text is split at the first place where the character `c` stands. -/
theorem span_ne_append {c : Char} {a : List Char} (h : c ∉ a) (b : List Char) :
    (a ++ c :: b).span (· != c) = (a, c :: b) := by
  have hplain : ∀ d ∈ a, (d != c) = true := fun d hd =>
    bne_iff_ne.mpr (ne_of_mem_of_not_mem hd h)
  rw [List.span_eq_takeWhile_dropWhile, List.takeWhile_append_of_pos hplain,
    List.dropWhile_append_of_pos hplain]
  simp

theorem ofText?_point {a b : List Char} (ha : Decimal.isDigits a = true)
    (hb : Decimal.isDigits b = true) :
    Decimal.ofText? (a ++ '.' :: b) = some ⟨Decimal.ofDigits (a ++ b), -(b.length : Int)⟩ := by
  rw [Decimal.ofText?, span_ne_append (Lexeme.point_not_mem ha)]
  simp [ha, hb]

/-- The texts that denote a decimal are those of floats. -/
theorem exists_ofText?_iff {w : List Char} :
    (∃ d, Decimal.ofText? w = some d) ↔ Lexeme.Spells .float w := by
  constructor
  · rintro ⟨d, hd⟩
    by_cases hpoint : '.' ∈ w
    · obtain ⟨a, b, rfl, ha⟩ := List.eq_append_cons_of_mem hpoint
      rw [Decimal.ofText?, span_ne_append ha] at hd
      dsimp only at hd
      split at hd
      next h =>
        rw [Bool.and_eq_true] at h
        exact ⟨a, b, rfl, h.1, h.2⟩
      · cases hd
    · have hplain : ∀ c ∈ w, (c != '.') = true := fun c hc =>
        bne_iff_ne.mpr (ne_of_mem_of_not_mem hc hpoint)
      rw [Decimal.ofText?, List.span_eq_takeWhile_dropWhile,
        List.dropWhile_eq_nil_iff.mpr hplain] at hd
      cases hd
  · rintro ⟨a, b, rfl, ha, hb⟩
    exact ⟨_, ofText?_point ha hb⟩

theorem float?_eq_none_iff {w : List Char} {d : Decimal} (h : Decimal.ofText? w = some d) :
    float? w = none ↔ BinaryFormat.single.infinity ≤ d.nearest .single := by
  rw [float?, h]
  dsimp only
  split
  next hlt => simpa using hlt
  next hlt => simpa using hlt

/-- **A literal denotes a value unless it is out of range.** -/
theorem decode?_eq_none_iff {t : Token} {k : Kind}
    (hs : Lexeme.Spells t.kind t.lexeme.toList) (hk : Kind.ofToken? t.kind t.lexeme = some k) :
    decode? k t.lexeme = none ↔ t.OutOfRange := by
  have hrange : ∀ {v : Option Value}, (∃ x, v = some x) → t.kind ≠ .integer → t.kind ≠ .float →
      (v = none ↔ t.OutOfRange) := by
    rintro v ⟨x, rfl⟩ hi hf
    refine iff_of_false (Option.some_ne_none x) fun h => ?_
    cases h with
    | integer hk hn => exact hi hk
    | float hk hd hn => exact hf hk
  cases hkind : t.kind with
  | integer =>
    rw [hkind] at hs hk
    cases hk
    rw [decode?, integer?_eq_none_iff hs]
    refine ⟨.integer hkind, fun h => ?_⟩
    cases h with
    | integer hk hn => exact hn
    | float hk hd hn => cases hkind.symm.trans hk
  | float =>
    rw [hkind] at hs hk
    cases hk
    obtain ⟨a, b, hw, ha, hb⟩ := hs
    have hd := ofText?_point ha hb
    rw [← hw] at hd
    rw [decode?, float?_eq_none_iff hd]
    refine ⟨.float hkind hd, fun h => ?_⟩
    cases h with
    | integer hk hn => cases hkind.symm.trans hk
    | float hk hd' hn =>
      cases hd.symm.trans hd'
      exact hn
  | char =>
    rw [hkind] at hs hk
    cases hk
    obtain ⟨i, hw, hi⟩ := hs
    obtain ⟨c, hc⟩ := unescape?_item (b := []) hi rfl
    rw [List.append_nil] at hc
    refine hrange ⟨.char c, ?_⟩ (by simp [hkind]) (by simp [hkind])
    rw [decode?, char?, hw, inner_quoted, hc]
  | string =>
    rw [hkind] at hs hk
    cases hk
    obtain ⟨b, hw, hb⟩ := hs
    obtain ⟨r, hr⟩ := unescape?_items hb
    refine hrange ⟨.string (String.ofList r), ?_⟩ (by simp [hkind]) (by simp [hkind])
    rw [decode?, string?, hw, inner_quoted, hr]
    rfl
  | identifier =>
    rw [hkind, Kind.ofToken?] at hk
    split at hk
    next hbool =>
      cases hk
      refine hrange ?_ (by simp [hkind]) (by simp [hkind])
      rcases hbool with h | h <;> rw [h] <;> exact ⟨_, rfl⟩
    · cases hk
  | symbol s => rw [hkind] at hk; cases hk
  | illegal => rw [hkind] at hk; cases hk
  | eof => rw [hkind] at hk; cases hk

end Literal

end Reckon
