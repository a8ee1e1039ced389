import Reckon.Datum

/-!
# Environments

The names that an expression may use, and what each of them stands for. An evaluation only reads
its environment.
-/

namespace Reckon

/-- A finite map from names to data. -/
structure Environment where
  fields : Fields Datum
  sorted : Fields.Sorted fields

namespace Environment

/-- No name stands for anything. -/
def empty : Environment := ⟨[], Fields.Sorted.nil⟩

/-- A name stands for `d` from now on. -/
def insert (env : Environment) (name : String) (d : Datum) : Environment :=
  ⟨Fields.insert name d env.fields, env.sorted.insert name d⟩

/-- The environment of some pairs. Of two with the same name the later one counts. -/
def ofPairs (ps : List (String × Datum)) : Environment :=
  ⟨Fields.ofPairs ps, Fields.Sorted.ofPairs ps⟩

/-- What a name stands for. -/
def find? (env : Environment) (name : String) : Option Datum := Fields.find? name env.fields

/-- The number of names. -/
def size (env : Environment) : Nat := env.fields.length

def isEmpty (env : Environment) : Bool := env.fields.isEmpty

/-- The same names, and equal data under each. -/
def beq (a b : Environment) : Bool := Datum.beqFields a.fields b.fields

instance : BEq Environment := ⟨beq⟩

@[simp]
theorem find?_insert_self (env : Environment) (name : String) (d : Datum) :
    (env.insert name d).find? name = some d :=
  Fields.find?_insert_self name d env.fields

theorem find?_insert_of_ne (env : Environment) {name other : String} (h : other ≠ name)
    (d : Datum) : (env.insert name d).find? other = env.find? other :=
  Fields.find?_insert_of_ne h d env.fields

end Environment

end Reckon
