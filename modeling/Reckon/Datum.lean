import Reckon.Fields
import Reckon.Value

/-!
# Data

What a name of an environment stands for. Data are wider than values: there are integers without a
sign, floats of double precision, lists and records. Lists and records only serve as the base of an
index or of a member; a datum turns into a value (`Datum.toValue`) where an expression needs one.
-/

namespace Reckon

/-- A caller's datum. -/
inductive Datum
  | int (n : Int64)
  | uint (n : UInt64)
  | float (x : Float)
  | string (s : String)
  | bool (b : Bool)
  | char (c : Char)
  | list (items : List Datum)
  | record (fields : List (String × Datum))

/-- The kinds of data. -/
inductive DatumKind
  /-- A datum that is of a kind of value. -/
  | scalar (k : Kind)
  | unsigned
  | list
  | record
deriving Repr, DecidableEq

/-- The kind in messages. -/
def DatumKind.text : DatumKind → String
  | scalar k => k.text
  | unsigned => "unsigned integer"
  | list => "list"
  | record => "record"

namespace Datum

def kind : Datum → DatumKind
  | int _ => .scalar .integer
  | uint _ => .unsigned
  | float _ => .scalar .float
  | string _ => .scalar .string
  | bool _ => .scalar .bool
  | char _ => .scalar .char
  | list _ => .list
  | record _ => .record

/-- The record of some named data. Of two with the same name the later one counts. -/
def ofFields (fields : List (String × Datum)) : Datum := record (Fields.ofPairs fields)

/-- The value that a datum stands for. A float is rounded to single precision; an integer that is
too large, a list and a record stand for none. -/
def toValue? : Datum → Option Value
  | int n => some (.integer n)
  | uint n => if n.toNat < 0x8000000000000000 then some (.integer n.toInt64) else none
  | float x => some (.float (Double.narrow x))
  | string s => some (.string s)
  | bool b => some (.bool b)
  | char c => some (.char c)
  | list _ => none
  | record _ => none

/-- The datum that holds a value. -/
def ofValue : Value → Datum
  | .integer n => int n
  | .float x => float (Single.widen x)
  | .string s => string s
  | .bool b => bool b
  | .char c => char c

/-! ## Equality -/

mutual

/-- Data are equal if they are of one sort and have equal payloads, floats compared as numbers. A
signed and an unsigned integer are of different sorts. -/
def beq : Datum → Datum → Bool
  | int a, int b => a == b
  | uint a, uint b => a == b
  | float a, float b => a == b
  | string a, string b => a == b
  | bool a, bool b => a == b
  | char a, char b => a == b
  | list as, list bs => beqItems as bs
  | record as, record bs => beqFields as bs
  | _, _ => false

/-- Lists are equal item by item. -/
def beqItems : List Datum → List Datum → Bool
  | [], [] => true
  | a :: as, b :: bs => beq a b && beqItems as bs
  | _, _ => false

/-- Records are equal if they have the same names, and equal data under each. -/
def beqFields : List (String × Datum) → List (String × Datum) → Bool
  | [], [] => true
  | (n, a) :: as, (m, b) :: bs => n == m && beq a b && beqFields as bs
  | _, _ => false

end

instance : BEq Datum := ⟨beq⟩

end Datum

end Reckon
