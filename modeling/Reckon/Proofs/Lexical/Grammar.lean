import Reckon.Decimal.Basic
import Reckon.Token.Lexeme

/-!
# The lexical grammar

Which texts are tokens, and what has to be read off the front of an input. Nothing here reads:
the classes of texts are predicates (`Lexeme.Spells`), and the rule that picks a token is the
longest match among them (`Lexeme.Reads`).

Three rules decide what is read.

1. Digits with a point behind them that no digit follows are spoiled, although the digits alone
   would be a token (`DanglingPoint`).
2. Otherwise the longest prefix that spells a token is that token (`LongestToken`).
3. Where no prefix does, a piece of the input is at fault (`Fault`): one character, or a quoted
   text up to where it stops being one.

The rules never leave a choice (`Reads.unique`).
-/

namespace Reckon.Lexeme

/-! ## Quoted texts -/

/-- One character of a text between two characters `quote`, as it is written. -/
inductive Item (quote : Char) : List Char → Prop
  | plain {c : Char} (hq : c ≠ quote) (hb : c ≠ '\\') : Item quote [c]
  | escape {c : Char} (h : isEscape c = true) : Item quote ['\\', c]

/-- Any number of characters between two characters `quote`, as they are written. -/
inductive Items (quote : Char) : List Char → Prop
  | nil : Items quote []
  | cons {i b : List Char} (hi : Item quote i) (hb : Items quote b) : Items quote (i ++ b)

/-- The input `r` stops a quoted text after the characters `f`: it ends, or a backslash is not part
of an escape. -/
inductive Broken : (r f : List Char) → Prop
  | ends : Broken [] []
  | endsInEscape : Broken ['\\'] ['\\']
  | unknownEscape {c : Char} {r : List Char} (h : isEscape c = false) :
    Broken ('\\' :: c :: r) ['\\', c]

/-- No character of a quoted text is at the front. -/
def NoItem (quote : Char) (r : List Char) : Prop := ∀ i t, Item quote i → r ≠ i ++ t

theorem item_unique {q : Char} {i j x y : List Char} (hi : Item q i) (hj : Item q j)
    (h : i ++ x = j ++ y) : i = j ∧ x = y := by
  cases hi with
  | plain hq hb =>
    cases hj with
    | plain _ _ => simpa using h
    | escape _ => exact absurd (List.cons.inj h).1 hb
  | escape hc =>
    cases hj with
    | plain _ hb => exact absurd (List.cons.inj h).1.symm hb
    | escape _ => simpa using h

theorem noItem_quote {q : Char} (hq : q ≠ '\\') (t : List Char) : NoItem q (q :: t) := by
  intro i u hi h
  cases hi with
  | plain hne _ => exact hne (List.cons.inj h).1.symm
  | escape _ => exact hq (List.cons.inj h).1

theorem Broken.noItem {r f : List Char} (hr : Broken r f) (q : Char) : NoItem q r := by
  intro i t hi h
  cases hr with
  | ends => cases hi <;> simp at h
  | endsInEscape =>
    cases hi with
    | plain _ hb => exact hb (List.cons.inj h).1.symm
    | escape _ => simp at h
  | unknownEscape hc =>
    cases hi with
    | plain _ hb => exact hb (List.cons.inj h).1.symm
    | escape he =>
      have hcc : _ = _ := (List.cons.inj (List.cons.inj h).2).1
      rw [hcc, he] at hc
      exact Bool.noConfusion hc

theorem Broken.unique {r f g : List Char} (hf : Broken r f) (hg : Broken r g) : f = g := by
  cases hf <;> cases hg <;> rfl

theorem Broken.ne_quote {r f : List Char} (hr : Broken r f) {q : Char} (hq : q ≠ '\\')
    (t : List Char) : r ≠ q :: t := by
  intro h
  cases hr with
  | ends => simp at h
  | endsInEscape => exact hq (List.cons.inj h).1.symm
  | unknownEscape _ => exact hq (List.cons.inj h).1.symm

/-- **A quoted text goes on for as long as it can in one way only.** -/
theorem items_unique {q : Char} {b d r s : List Char} (hb : Items q b) (hd : Items q d)
    (hr : NoItem q r) (hs : NoItem q s) (h : b ++ r = d ++ s) : b = d ∧ r = s := by
  induction hb generalizing d with
  | nil =>
    cases hd with
    | nil => exact ⟨rfl, h⟩
    -- one text ends where the other one still has a character
    | cons hj _ => exact absurd (h.trans (List.append_assoc ..)) (hr _ _ hj)
  | cons hi _ ih =>
    cases hd with
    | nil => exact absurd (h.symm.trans (List.append_assoc ..)) (hs _ _ hi)
    | cons hj hd =>
      rw [List.append_assoc, List.append_assoc] at h
      obtain ⟨rfl, hrest⟩ := item_unique hi hj h
      obtain ⟨rfl, rfl⟩ := ih hd hrest
      exact ⟨rfl, rfl⟩

/-! ## Classes of texts -/

/-- The text `w` is a token of kind `k`. -/
def Spells : TokenKind → (w : List Char) → Prop
  | .symbol s, w => w = s.text.toList
  | .identifier, w => ∃ c r, w = c :: r ∧ isNameStart c = true ∧ ∀ d ∈ r, isNamePart d = true
  | .integer, w => Decimal.isDigits w = true
  | .float, w => ∃ a b, w = a ++ '.' :: b ∧ Decimal.isDigits a = true ∧ Decimal.isDigits b = true
  | .string, w => ∃ b, w = '"' :: (b ++ ['"']) ∧ Items '"' b
  | .char, w => ∃ i, w = '\'' :: (i ++ ['\'']) ∧ Item '\'' i
  | .illegal, _ => False
  | .eof, _ => False

/-- A token of kind `k` may start with `c`. -/
def starts : TokenKind → (c : Char) → Bool
  | .symbol s, c => s.text.toList.head? == some c
  | .identifier, c => isNameStart c
  | .integer, c => c.isDigit
  | .float, c => c.isDigit
  | .string, c => c == '"'
  | .char, c => c == '\''
  | .illegal, _ => false
  | .eof, _ => false

theorem isDigits_cons {c : Char} {r : List Char} :
    Decimal.isDigits (c :: r) = true ↔ c.isDigit = true ∧ ∀ d ∈ r, d.isDigit = true := by
  simp [Decimal.isDigits]

theorem isDigits_ne_nil {w : List Char} (h : Decimal.isDigits w = true) : w ≠ [] := by
  rintro rfl
  simp [Decimal.isDigits] at h

theorem isDigits_all {w : List Char} (h : Decimal.isDigits w = true) :
    ∀ c ∈ w, c.isDigit = true := by
  simp only [Decimal.isDigits, Bool.and_eq_true, List.all_eq_true] at h
  exact h.2

theorem point_not_mem {w : List Char} (h : Decimal.isDigits w = true) : '.' ∉ w := fun hmem =>
  absurd (isDigits_all h '.' hmem) (by decide)

theorem Spells.ne_nil {k : TokenKind} {w : List Char} (h : Spells k w) : w ≠ [] := by
  cases k with
  | symbol s =>
    rw [show w = s.text.toList from h]
    cases s <;> decide
  | identifier =>
    obtain ⟨c, r, rfl, -⟩ := h
    exact List.cons_ne_nil _ _
  | integer => exact isDigits_ne_nil h
  | float =>
    obtain ⟨a, b, rfl, -⟩ := h
    simp
  | string =>
    obtain ⟨b, rfl, -⟩ := h
    exact List.cons_ne_nil _ _
  | char =>
    obtain ⟨i, rfl, -⟩ := h
    exact List.cons_ne_nil _ _
  | illegal => exact h.elim
  | eof => exact h.elim

/-- What starts a token tells of its kind. -/
theorem Spells.starts {k : TokenKind} {c : Char} {r : List Char} (h : Spells k (c :: r)) :
    starts k c = true := by
  cases k with
  | symbol s =>
    have hs : c :: r = s.text.toList := h
    simp [Lexeme.starts, ← hs]
  | identifier =>
    obtain ⟨d, t, heq, hd, -⟩ := h
    rw [(List.cons.inj heq).1]
    exact hd
  | integer => exact (isDigits_cons.mp h).1
  | float =>
    obtain ⟨a, b, heq, ha, -⟩ := h
    cases a with
    | nil => exact absurd rfl (isDigits_ne_nil ha)
    | cons d t =>
      rw [(List.cons.inj heq).1]
      exact (isDigits_cons.mp ha).1
  | string =>
    obtain ⟨b, heq, -⟩ := h
    simp [Lexeme.starts, (List.cons.inj heq).1]
  | char =>
    obtain ⟨i, heq, -⟩ := h
    simp [Lexeme.starts, (List.cons.inj heq).1]
  | illegal => exact h.elim
  | eof => exact h.elim

/-! ### The kind of a token is in its first character -/

theorem isNameStart_of_isDigit {c : Char} (h : c.isDigit = true) : isNameStart c = false := by
  have hall : ∀ n ∈ List.range 58, 48 ≤ n → isNameStart (Char.ofNat n) = false := by decide
  obtain ⟨hlow, hhigh⟩ := Char.isDigit_iff_toNat.mp h
  have hc := hall c.toNat (List.mem_range.mpr (Nat.lt_succ_of_le hhigh)) hlow
  rwa [Char.ofNat_toNat] at hc

/-- No symbol starts like another sort of token. -/
theorem starts_symbol {s : Symbol} {c : Char} (h : starts (.symbol s) c = true) :
    c.isDigit = false ∧ isNameStart c = false ∧ c ≠ '"' ∧ c ≠ '\'' := by
  have hc : s.text.toList.head? = some c := by simpa [starts] using h
  cases s <;> cases hc <;> decide

theorem kind_of_isDigit {k : TokenKind} {c : Char} (hc : c.isDigit = true)
    (h : starts k c = true) : k = .integer ∨ k = .float := by
  cases k with
  | symbol s => rw [(starts_symbol h).1] at hc; exact Bool.noConfusion hc
  | identifier => rw [starts, isNameStart_of_isDigit hc] at h; exact Bool.noConfusion h
  | integer => exact .inl rfl
  | float => exact .inr rfl
  | string => rw [show c = '"' by simpa [starts] using h] at hc; exact absurd hc (by decide)
  | char => rw [show c = '\'' by simpa [starts] using h] at hc; exact absurd hc (by decide)
  | illegal => exact Bool.noConfusion h
  | eof => exact Bool.noConfusion h

theorem kind_of_isNameStart {k : TokenKind} {c : Char} (hc : isNameStart c = true)
    (h : starts k c = true) : k = .identifier := by
  cases k with
  | symbol s => rw [(starts_symbol h).2.1] at hc; exact Bool.noConfusion hc
  | identifier => rfl
  | integer => rw [isNameStart_of_isDigit h] at hc; exact Bool.noConfusion hc
  | float => rw [isNameStart_of_isDigit h] at hc; exact Bool.noConfusion hc
  | string => rw [show c = '"' by simpa [starts] using h] at hc; exact absurd hc (by decide)
  | char => rw [show c = '\'' by simpa [starts] using h] at hc; exact absurd hc (by decide)
  | illegal => exact Bool.noConfusion h
  | eof => exact Bool.noConfusion h

theorem kind_of_quote {k : TokenKind} (h : starts k '"' = true) : k = .string := by
  cases k with
  | symbol s => exact absurd rfl (starts_symbol h).2.2.1
  | string => rfl
  | _ => exact absurd h (by decide)

theorem kind_of_apostrophe {k : TokenKind} (h : starts k '\'' = true) : k = .char := by
  cases k with
  | symbol s => exact absurd rfl (starts_symbol h).2.2.2
  | char => rfl
  | _ => exact absurd h (by decide)

theorem kind_of_other {k : TokenKind} {c : Char} (hd : c.isDigit = false)
    (hn : isNameStart c = false) (hq : c ≠ '"') (ha : c ≠ '\'') (h : starts k c = true) :
    ∃ s, k = .symbol s := by
  cases k with
  | symbol s => exact ⟨s, rfl⟩
  | identifier => rw [show isNameStart c = true from h] at hn; exact Bool.noConfusion hn
  | integer => rw [show c.isDigit = true from h] at hd; exact Bool.noConfusion hd
  | float => rw [show c.isDigit = true from h] at hd; exact Bool.noConfusion hd
  | string => exact absurd (by simpa [starts] using h) hq
  | char => exact absurd (by simpa [starts] using h) ha
  | illegal => exact Bool.noConfusion h
  | eof => exact Bool.noConfusion h

theorem symbol_text_inj {s t : Symbol} (h : s.text.toList = t.text.toList) : s = t := by
  cases s <;> cases t <;> first | rfl | exact absurd h (by decide)

theorem not_spells_integer_float {w : List Char} (hi : Spells .integer w) : ¬ Spells .float w := by
  rintro ⟨a, b, rfl, -⟩
  exact point_not_mem hi (by simp)

/-- **A text is a token of one kind at most.** -/
theorem Spells.kind_unique {k l : TokenKind} {w : List Char} (hk : Spells k w) (hl : Spells l w) :
    k = l := by
  obtain ⟨c, r, rfl⟩ := List.exists_cons_of_ne_nil hk.ne_nil
  cases k with
  | symbol s =>
    obtain ⟨hd, hn, hq, ha⟩ := starts_symbol hk.starts
    obtain ⟨t, rfl⟩ := kind_of_other hd hn hq ha hl.starts
    rw [symbol_text_inj ((show c :: r = s.text.toList from hk).symm.trans hl)]
  | identifier => exact (kind_of_isNameStart hk.starts hl.starts).symm
  | integer =>
    rcases kind_of_isDigit hk.starts hl.starts with rfl | rfl
    · rfl
    · exact absurd hl (not_spells_integer_float hk)
  | float =>
    rcases kind_of_isDigit hk.starts hl.starts with rfl | rfl
    · exact absurd hk (not_spells_integer_float hl)
    · rfl
  | string =>
    obtain rfl : c = '"' := by simpa [Lexeme.starts] using hk.starts
    exact (kind_of_quote hl.starts).symm
  | char =>
    obtain rfl : c = '\'' := by simpa [Lexeme.starts] using hk.starts
    exact (kind_of_apostrophe hl.starts).symm
  | illegal => exact hk.elim
  | eof => exact hk.elim

/-! ## What has to be read -/

/-- Digits with a point behind them, and no digit behind the point; `w` is all this. -/
def DanglingPoint (r w : List Char) : Prop :=
  ∃ d t, r = d ++ '.' :: t ∧ w = d ++ ['.'] ∧ Decimal.isDigits d = true ∧
    ∀ c ∈ t.head?, c.isDigit = false

/-- No longer prefix of `r` than `w` is a token, and `w` is one of kind `k`. -/
structure LongestToken (r : List Char) (k : TokenKind) (w : List Char) : Prop where
  spells : Spells k w
  isPrefix : w <+: r
  longest : ∀ l v, Spells l v → v <+: r → v.length ≤ w.length

/-- The piece `w` of an input `r` that is at fault if no prefix of `r` is a token. -/
inductive Fault : (r w : List Char) → Prop
  /-- A character that starts nothing. -/
  | character {c : Char} {r : List Char} (hq : c ≠ '"') (ha : c ≠ '\'') : Fault (c :: r) [c]
  /-- A string that is not closed before it is broken. -/
  | string {b r f : List Char} (hb : Items '"' b) (hr : Broken r f) :
    Fault ('"' :: (b ++ r)) ('"' :: (b ++ f))
  /-- A character literal that is broken. -/
  | char {r f : List Char} (hr : Broken r f) : Fault ('\'' :: r) ('\'' :: f)
  /-- A character literal with no character. -/
  | emptyChar {r : List Char} : Fault ('\'' :: '\'' :: r) ['\'', '\'']
  /-- A character literal that is not closed behind its character. -/
  | openChar {i r : List Char} (hi : Item '\'' i) (hr : r.head? ≠ some '\'') :
    Fault ('\'' :: (i ++ r)) ('\'' :: i)

/-- The rule of the lexical grammar: the token or the fault `w` has to be read off the front of
`r`, and is of kind `k`. -/
inductive Reads (r : List Char) : (k : TokenKind) → (w : List Char) → Prop
  | dangling {w : List Char} (h : DanglingPoint r w) : Reads r .illegal w
  | token {k : TokenKind} {w : List Char} (hd : ∀ v, ¬ DanglingPoint r v)
      (h : LongestToken r k w) : Reads r k w
  | fault {w : List Char} (hd : ∀ v, ¬ DanglingPoint r v)
      (hn : ∀ k v, Spells k v → ¬ v <+: r) (h : Fault r w) : Reads r .illegal w

/-! ### The rule leaves no choice -/

theorem takeWhile_digits_point {d t : List Char} (h : Decimal.isDigits d = true) :
    (d ++ '.' :: t).takeWhile Char.isDigit = d := by
  rw [List.takeWhile_append_of_pos (isDigits_all h), List.takeWhile_cons_of_neg (by decide),
    List.append_nil]

theorem dropWhile_digits_point {d t : List Char} (h : Decimal.isDigits d = true) :
    (d ++ '.' :: t).dropWhile Char.isDigit = '.' :: t := by
  rw [List.dropWhile_append_of_pos (isDigits_all h), List.dropWhile_cons_of_neg (by decide)]

theorem DanglingPoint.unique {r v w : List Char} (hv : DanglingPoint r v)
    (hw : DanglingPoint r w) : v = w := by
  obtain ⟨d, t, rfl, rfl, hd, -⟩ := hv
  obtain ⟨e, u, heq, rfl, he, -⟩ := hw
  have h := congrArg (List.takeWhile Char.isDigit) heq
  rw [takeWhile_digits_point hd, takeWhile_digits_point he] at h
  rw [h]

theorem LongestToken.unique {r v w : List Char} {k l : TokenKind} (hv : LongestToken r k v)
    (hw : LongestToken r l w) : k = l ∧ v = w := by
  have hlen : v.length = w.length :=
    Nat.le_antisymm (hw.longest k v hv.spells hv.isPrefix) (hv.longest l w hw.spells hw.isPrefix)
  have heq : v = w :=
    (List.prefix_of_prefix_length_le hv.isPrefix hw.isPrefix (Nat.le_of_eq hlen)).eq_of_length hlen
  subst heq
  exact ⟨hv.spells.kind_unique hw.spells, rfl⟩

theorem Fault.unique {r v w : List Char} (hv : Fault r v) (hw : Fault r w) : v = w := by
  cases hv with
  | character hq ha =>
    cases hw with
    | character _ _ => rfl
    | string _ _ => exact absurd rfl hq
    | char _ => exact absurd rfl ha
    | emptyChar => exact absurd rfl ha
    | openChar _ _ => exact absurd rfl ha
  | string hb hr =>
    generalize hx : '"' :: _ = x at hw
    cases hw with
    | character hq _ => exact absurd (List.cons.inj hx).1.symm hq
    | string hb' hr' =>
      obtain ⟨rfl, rfl⟩ := items_unique hb hb' (hr.noItem _) (hr'.noItem _) (List.cons.inj hx).2
      rw [hr.unique hr']
    | char _ => exact absurd (List.cons.inj hx).1 (by decide)
    | emptyChar => exact absurd (List.cons.inj hx).1 (by decide)
    | openChar _ _ => exact absurd (List.cons.inj hx).1 (by decide)
  | char hr =>
    generalize hx : '\'' :: _ = x at hw
    cases hw with
    | character _ ha => exact absurd (List.cons.inj hx).1.symm ha
    | string _ _ => exact absurd (List.cons.inj hx).1 (by decide)
    | char hr' =>
      obtain rfl := (List.cons.inj hx).2
      rw [hr.unique hr']
    | emptyChar => exact absurd (List.cons.inj hx).2 (hr.ne_quote (by decide) _)
    | openChar hi _ => exact absurd (List.cons.inj hx).2 (hr.noItem _ _ _ hi)
  | emptyChar =>
    generalize hx : '\'' :: _ = x at hw
    cases hw with
    | character _ ha => exact absurd (List.cons.inj hx).1.symm ha
    | string _ _ => exact absurd (List.cons.inj hx).1 (by decide)
    | char hr => exact absurd (List.cons.inj hx).2.symm (hr.ne_quote (by decide) _)
    | emptyChar => rfl
    | openChar hi _ => exact absurd (List.cons.inj hx).2 (noItem_quote (by decide) _ _ _ hi)
  | openChar hi hr =>
    generalize hx : '\'' :: _ = x at hw
    cases hw with
    | character _ ha => exact absurd (List.cons.inj hx).1.symm ha
    | string _ _ => exact absurd (List.cons.inj hx).1 (by decide)
    | char hr' => exact absurd (List.cons.inj hx).2.symm (hr'.noItem _ _ _ hi)
    | emptyChar => exact absurd (List.cons.inj hx).2.symm (noItem_quote (by decide) _ _ _ hi)
    | openChar hi' _ =>
      rw [(item_unique hi hi' (List.cons.inj hx).2).1]

/-- **Only one text has to be read, and it is of one kind.** -/
theorem Reads.unique {r v w : List Char} {k l : TokenKind} (hv : Reads r k v) (hw : Reads r l w) :
    k = l ∧ v = w := by
  cases hv with
  | dangling h =>
    cases hw with
    | dangling h' => exact ⟨rfl, h.unique h'⟩
    | token hd _ => exact absurd h (hd _)
    | fault hd _ _ => exact absurd h (hd _)
  | token hd h =>
    cases hw with
    | dangling h' => exact absurd h' (hd _)
    | token _ h' => exact h.unique h'
    | fault _ hn _ => exact absurd h.isPrefix (hn _ _ h.spells)
  | fault hd hn h =>
    cases hw with
    | dangling h' => exact absurd h' (hd _)
    | token _ h' => exact absurd h'.isPrefix (hn _ _ h'.spells)
    | fault _ _ h' => exact ⟨rfl, h.unique h'⟩

end Reckon.Lexeme
