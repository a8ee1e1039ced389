import Reckon.Proofs.Evaluation.Alike

/-!
# Environments by their history

An environment comes about by a sequence of changes: a name is bound, or the environment is made
anew of some pairs. Of all that, only the last datum that was given to each name is left
(`Environment.find?_ofHistory`), and of these only those count for an evaluation whose names the
expression looks up (`Expr.evaluate_history`).
-/

namespace Reckon

/-! ## The last datum of a name -/

theorem Fields.find?_insert {α : Type} (x name : String) (a : α) (m : Fields α) :
    find? x (insert name a m) = if x = name then some a else find? x m := by
  split
  next h => rw [h, find?_insert_self]
  next h => exact find?_insert_of_ne h a m

/-- The last pair is looked at first. -/
theorem Fields.lookup_reverse_append {α : Type} (x name : String) (a : α)
    (ps : List (String × α)) : (ps ++ [(name, a)]).reverse.lookup x =
      if x = name then some a else ps.reverse.lookup x := by
  rw [List.reverse_append, List.reverse_singleton, List.singleton_append, List.lookup_cons]
  by_cases h : x = name
  · simp [h]
  · simp [h, beq_false_of_ne h]

/-- Of the pairs with one name the last one counts. -/
theorem Fields.find?_ofPairs {α : Type} (x : String) (ps : List (String × α)) :
    find? x (ofPairs ps) = ps.reverse.lookup x := by
  induction ps using List.reverseRecOn with
  | nil => rfl
  | append_singleton ps p ih =>
    rw [ofPairs, List.foldl_append, ← ofPairs, List.foldl_cons, List.foldl_nil, find?_insert, ih,
      lookup_reverse_append]

namespace Environment

/-- A change of an environment. -/
inductive Update
  /-- A name stands for the datum from now on, whether the environment is changed in place or
  handed on with the change. -/
  | bind (name : String) (d : Datum)
  /-- The environment is made anew of some pairs. -/
  | collect (ps : List (String × Datum))

/-- The environment after a change. -/
def update (env : Environment) : Update → Environment
  | .bind name d => env.insert name d
  | .collect ps => ofPairs ps

/-- The environment after all changes. -/
def ofHistory (us : List Update) : Environment := us.foldl update empty

/-- The pairs that a change leaves in force, in the order in which they were given. -/
def Update.inForce (ps : List (String × Datum)) : Update → List (String × Datum)
  | bind name d => ps ++ [(name, d)]
  | collect qs => qs

/-- The last datum that the changes give to a name, unless the environment was made anew without
it. -/
def last? (us : List Update) (name : String) : Option Datum :=
  (us.foldl Update.inForce []).reverse.lookup name

/-- **A name stands for the last datum that it was given.** -/
theorem find?_ofHistory (us : List Update) (name : String) :
    (ofHistory us).find? name = last? us name := by
  induction us using List.reverseRecOn with
  | nil => rfl
  | append_singleton us u ih =>
    rw [ofHistory, last?, List.foldl_append, List.foldl_append, ← ofHistory]
    cases u with
    | collect ps => exact Fields.find?_ofPairs name ps
    | bind n d =>
      show Fields.find? name (Fields.insert n d (ofHistory us).fields) =
        (us.foldl Update.inForce [] ++ [(n, d)]).reverse.lookup name
      rw [Fields.find?_insert, Fields.lookup_reverse_append, ← last?, ← ih, find?]

end Environment

/-! ## Evaluation -/

open Environment

/--
**An evaluation depends on the last datum of each name that it looks up, and on nothing else.**

Let two environments come about in any way. If the names of an expression were given the same data
last, or none, in both, the expression has the same value or the same error in both. If the data are
equal as numbers only, the values are so too, and the errors are the same. An error about a name
that stands for nothing is about a name of the expression, and one that has no datum; if there is a
value, every name of the expression has one.
-/
theorem Expr.evaluate_history (us vs : List Update) (t : Expr) :
    ((∀ x ∈ t.names, last? us x = last? vs x) →
      t.evaluate (ofHistory us) = t.evaluate (ofHistory vs)) ∧
    ((∀ x ∈ t.names, Option.Rel Datum.Alike (last? us x) (last? vs x)) →
      Related Value.Alike (t.evaluate (ofHistory us)) (t.evaluate (ofHistory vs))) ∧
    (∀ x, t.evaluate (ofHistory us) = .error (.undefinedIdentifier x) →
      x ∈ t.names ∧ last? us x = none) ∧
    ∀ v, t.evaluate (ofHistory us) = .ok v → ∀ x ∈ t.names, last? us x ≠ none := by
  have hrequires := (t.requires (ofHistory us)).1
  simp only [← find?_ofHistory]
  refine ⟨fun h => (evaluate_congr h).1, fun h => (compatible_alike.evaluate h).1,
    fun x hx => ?_, fun v hv => ?_⟩
  · rw [hx] at hrequires
    cases hrequires with
    | unbound h hnone => exact ⟨h, hnone⟩
    | other h => cases h
  · rw [hv] at hrequires
    cases hrequires with
    | found h => exact h

/-- Two histories that have the last data of `a` and `b` in common, two that give `a` one of the
zeros each, and a history without `b`. -/
theorem Expr.evaluate_history_sum :
    let sum : Expr := .binary (.identifier "a") (.arithmetic .add) (.identifier "b")
    let us : List Update := [.bind "b" (.int 1), .collect [("a", .int 2), ("a", .int 3)],
      .bind "b" (.int 4)]
    let vs : List Update := [.bind "b" (.int 4), .bind "c" (.bool true), .bind "a" (.int 3)]
    (sum.evaluate (ofHistory us) = .ok (.integer 7) ∧
      sum.evaluate (ofHistory us) = sum.evaluate (ofHistory vs) ∧
      ∀ x ∈ sum.names, last? us x ≠ none) ∧
    Related Value.Alike
      ((Expr.identifier "a").evaluate (ofHistory [.bind "a" (.float (Double.ofPattern false 0))]))
      ((Expr.identifier "a").evaluate (ofHistory [.bind "a" (.float (Double.ofPattern true 0))])) ∧
    sum.evaluate (ofHistory [.bind "a" (.int 1)]) = .error (.undefinedIdentifier "b") ∧
    "b" ∈ sum.names ∧ last? [.bind "a" (.int 1)] "b" = none := by
  intro sum us vs
  have hvalue : sum.evaluate (ofHistory us) = .ok (.integer 7) := rfl
  have herror : sum.evaluate (ofHistory [.bind "a" (.int 1)]) = .error (.undefinedIdentifier "b") :=
    rfl
  obtain ⟨hsame, -, -, hfound⟩ := evaluate_history us vs sum
  refine ⟨⟨hvalue, hsame ?_, hfound _ hvalue⟩, (evaluate_history _ _ _).2.1 ?_, herror,
    (evaluate_history _ [] sum).2.2.1 "b" herror⟩
  · intro x hx
    rcases List.mem_pair.mp hx with rfl | rfl <;> rfl
  · intro x hx
    obtain rfl := List.mem_singleton.mp hx
    exact .some (.float (.inr rfl))

end Reckon
