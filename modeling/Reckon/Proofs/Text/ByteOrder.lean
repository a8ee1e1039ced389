import Mathlib

/-!
# The order of texts

Texts are compared by the code points of their characters, from the left. Comparing the bytes of
their UTF-8 encodings, again from the left, comes to the same (`Text.bytes_lt_iff`): a larger code
point has a larger first byte, or an equal one and a larger byte after it, and never more bytes that
merely go on where the smaller one ends.
-/

namespace Reckon.Text

/-- The code points of a text. -/
def codePoints (s : String) : List Nat := s.toList.map Char.toNat

/-- The bytes of a text in UTF-8. -/
def bytes (s : String) : List Nat := s.toUTF8.data.toList.map UInt8.toNat

/-! ## Characters -/

/-- The bytes of a code point. -/
def encode (n : Nat) : List Nat :=
  if n ≤ 0x7F then [n]
  else if n ≤ 0x7FF then [192 + n / 64, 128 + n % 64]
  else if n ≤ 0xFFFF then [224 + n / 4096, 128 + n / 64 % 64, 128 + n % 64]
  else [240 + n / 262144, 128 + n / 4096 % 64, 128 + n / 64 % 64, 128 + n % 64]

theorem toNat_lt (c : Char) : c.toNat < 0x110000 := by
  rcases c.valid with h | ⟨-, h⟩
  · exact Nat.lt_trans h (by decide)
  · exact h

theorem utf8EncodeChar_eq (c : Char) :
    (String.utf8EncodeChar c).map UInt8.toNat = encode c.toNat := by
  have hlt := toNat_lt c
  have hval : c.val.toNat = c.toNat := rfl
  simp only [String.utf8EncodeChar, encode, hval]
  generalize c.toNat = n at hlt
  split_ifs <;> simp <;> omega

theorem encode_ne_nil (n : Nat) : encode n ≠ [] := by
  unfold encode
  split_ifs <;> simp

/-- The order of code points is decided within their bytes, whatever follows. -/
theorem encode_append_lt {m n : Nat} (h : m < n) (hn : n < 0x110000) (u v : List Nat) :
    encode m ++ u < encode n ++ v := by
  unfold encode
  -- the first byte tells the lengths apart, and in one length the digits are compared in order
  split_ifs <;> simp only [List.cons_append, List.nil_append, List.cons_lt_cons_iff] <;> omega

/-! ## Texts -/

theorem bytes_eq (s : String) : bytes s = (codePoints s).flatMap encode := by
  have hs : s.toUTF8 = (s.toList.flatMap String.utf8EncodeChar).toByteArray := by
    conv_lhs => rw [← String.ofList_toList (s := s)]
    exact String.toByteArray_ofList
  rw [bytes, hs, List.data_toByteArray, List.map_flatMap, codePoints, List.flatMap_map]
  exact List.flatMap_congr fun c _ => utf8EncodeChar_eq c

theorem lt_of_mem_codePoints {s : String} {n : Nat} (h : n ∈ codePoints s) : n < 0x110000 := by
  obtain ⟨c, -, rfl⟩ := List.mem_map.mp h
  exact toNat_lt c

theorem flatMap_encode_lt {l m : List Nat} (h : l < m) (hm : ∀ n ∈ m, n < 0x110000) :
    l.flatMap encode < m.flatMap encode := by
  induction h with
  | nil =>
    rename_i n m
    obtain ⟨b, w, hb⟩ := List.exists_cons_of_ne_nil (encode_ne_nil n)
    rw [List.flatMap_nil, List.flatMap_cons, hb]
    exact List.nil_lt_cons _ _
  | cons _ ih =>
    rw [List.flatMap_cons, List.flatMap_cons]
    exact List.append_left_lt (ih fun n hn => hm n (List.mem_cons_of_mem _ hn))
  | rel hlt =>
    rw [List.flatMap_cons, List.flatMap_cons]
    exact encode_append_lt hlt (hm _ List.mem_cons_self) _ _

theorem strictMono_codePoints : StrictMono codePoints := fun _ _ h =>
  List.map_lt (fun _ _ hlt => hlt) (String.lt_iff_toList_lt.mp h)

theorem strictMono_bytes : StrictMono bytes := fun x y h => by
  rw [bytes_eq, bytes_eq]
  exact flatMap_encode_lt (strictMono_codePoints h) fun _ => lt_of_mem_codePoints

/-- **Bytes and code points are in the same order.** -/
theorem bytes_lt_iff (x y : String) : bytes x < bytes y ↔ codePoints x < codePoints y :=
  strictMono_bytes.lt_iff_lt.trans strictMono_codePoints.lt_iff_lt.symm

theorem bytes_le_iff (x y : String) : bytes x ≤ bytes y ↔ codePoints x ≤ codePoints y :=
  strictMono_bytes.le_iff_le.trans strictMono_codePoints.le_iff_le.symm

theorem compare_eq_lt_iff (x y : String) : compare x y = .lt ↔ codePoints x < codePoints y :=
  compareOfLessAndEq_eq_lt.trans strictMono_codePoints.lt_iff_lt.symm

theorem isLE_compare_iff (x y : String) :
    (compare x y).isLE = true ↔ codePoints x ≤ codePoints y := by
  rw [← not_lt, ← compare_eq_lt_iff, Std.OrientedOrd.eq_swap (a := y)]
  cases compare x y <;> decide

end Reckon.Text
