/-!
# Named fields

A finite map from names to data, as pairs in ascending order of the names (`Fields.Sorted`). The
order is by code points, and each name occurs once.

The maps are plain lists, because data contain maps of data again.
-/

namespace Reckon

/-- Pairs of a name and what it stands for. -/
abbrev Fields (α : Type) := List (String × α)

namespace Fields

variable {α : Type}

/-- The names ascend. -/
def Sorted (m : Fields α) : Prop := m.Pairwise fun p q => p.1 < q.1

/-- What a name stands for. -/
def find? (name : String) : Fields α → Option α
  | [] => none
  | (n, a) :: r => if n = name then some a else find? name r

/-- A name stands for `a` from now on. -/
def insert (name : String) (a : α) : Fields α → Fields α
  | [] => [(name, a)]
  | (n, b) :: r =>
    if n = name then (name, a) :: r
    else if name < n then (name, a) :: (n, b) :: r
    else (n, b) :: insert name a r

/-- The map of some pairs. Of two pairs with the same name the later one counts. -/
def ofPairs (ps : List (String × α)) : Fields α := ps.foldl (fun m p => insert p.1 p.2 m) []

/-! ## What an insertion changes -/

@[simp]
theorem find?_insert_self (name : String) (a : α) (m : Fields α) :
    find? name (insert name a m) = some a := by
  induction m with
  | nil => simp [insert, find?]
  | cons p r ih =>
    unfold insert
    split
    · simp [find?]
    next hne =>
      split
      · simp [find?]
      · simp [find?, hne, ih]

theorem find?_insert_of_ne {name other : String} (h : other ≠ name) (a : α) (m : Fields α) :
    find? other (insert name a m) = find? other m := by
  induction m with
  | nil => simp [insert, find?, Ne.symm h]
  | cons p r ih =>
    unfold insert
    split
    next he => simp [find?, he, Ne.symm h]
    next =>
      split
      · simp [find?, Ne.symm h]
      · simp [find?, ih]

/-! ## The order of the names -/

theorem mem_insert {name : String} {a : α} {m : Fields α} {p : String × α}
    (h : p ∈ insert name a m) : p = (name, a) ∨ p ∈ m := by
  induction m with
  | nil => simpa [insert] using h
  | cons q r ih =>
    unfold insert at h
    split at h
    · rcases List.mem_cons.mp h with h | h
      · exact .inl h
      · exact .inr (List.mem_cons_of_mem _ h)
    · split at h
      · exact List.mem_cons.mp h
      · rcases List.mem_cons.mp h with h | h
        · exact .inr (h ▸ List.mem_cons_self)
        · exact (ih h).imp_right (List.mem_cons_of_mem _)

theorem Sorted.nil : Sorted ([] : Fields α) := List.Pairwise.nil

/-- An insertion keeps the order. -/
theorem Sorted.insert {m : Fields α} (hm : Sorted m) (name : String) (a : α) :
    Sorted (insert name a m) := by
  induction m with
  | nil => exact List.pairwise_singleton _ _
  | cons q r ih =>
    obtain ⟨hq, hr⟩ := List.pairwise_cons.mp hm
    unfold Fields.insert
    split
    next he => exact List.pairwise_cons.mpr ⟨fun p hp => he ▸ hq p hp, hr⟩
    next hne =>
      split
      next hlt =>
        refine List.pairwise_cons.mpr ⟨fun p hp => ?_, hm⟩
        rcases List.mem_cons.mp hp with hp | hp
        · exact hp ▸ hlt
        · exact String.lt_trans hlt (hq p hp)
      next hge =>
        refine List.pairwise_cons.mpr ⟨fun p hp => ?_, ih hr⟩
        rcases mem_insert hp with hp | hp
        · rcases Std.lt_trichotomy q.1 name with h | h | h
          · exact hp ▸ h
          · exact absurd h hne
          · exact absurd h hge
        · exact hq p hp

theorem Sorted.ofPairs (ps : List (String × α)) : Sorted (ofPairs ps) := by
  suffices h : ∀ m : Fields α, Sorted m → Sorted (ps.foldl (fun m p => Fields.insert p.1 p.2 m) m)
    from h [] Sorted.nil
  induction ps with
  | nil => exact fun m hm => hm
  | cons p ps ih => exact fun m hm => ih _ (hm.insert p.1 p.2)

end Fields

end Reckon
