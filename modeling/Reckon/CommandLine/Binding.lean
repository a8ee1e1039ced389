import Reckon.Decimal.Style
import Reckon.Environment
import Reckon.Integer
import Reckon.Text.Blank

/-!
# Bindings on the command line

A binding is written `name=value`. The value is read as a truth value, an integer, a decimal with
digits on both sides of its point or a text in quotation marks, and otherwise taken as the text it
is. Only the name is trimmed.
-/

namespace Reckon

/-- An argument without an equals sign. -/
structure BindingError where
  arg : String
deriving Repr, DecidableEq

def BindingError.message (e : BindingError) : String :=
  "expected name=value, got " ++ Text.quote e.arg

namespace Binding

/-- The integer of 64 bits that digits with an optional sign denote. -/
def integer? (cs : List Char) : Option Int64 :=
  match cs with
  | '-' :: r => if Decimal.isDigits r then int64? (-(Decimal.ofDigits r : Int)) else none
  | '+' :: r => if Decimal.isDigits r then int64? (Decimal.ofDigits r) else none
  | r => if Decimal.isDigits r then int64? (Decimal.ofDigits r) else none

/-- The double nearest to a decimal with an optional minus sign. It may be infinite. -/
def float? (cs : List Char) : Option Float :=
  match cs with
  | '-' :: r => (Decimal.ofText? r).map fun d => Double.ofPattern true (d.nearest .double)
  | r => (Decimal.ofText? r).map fun d => Double.ofPattern false (d.nearest .double)

/-- The text between two quotation marks. -/
def quoted? (cs : List Char) : Option (List Char) :=
  match cs with
  | '"' :: r => if r.getLast? = some '"' then some r.dropLast else none
  | _ => none

/-- What the text behind the equals sign stands for. -/
def datum (raw : String) : Datum :=
  if raw = "true" then .bool true
  else if raw = "false" then .bool false
  else
    match integer? raw.toList, float? raw.toList, quoted? raw.toList with
    | some n, _, _ => .int n
    | none, some x, _ => .float x
    | none, none, some t => .string (String.ofList t)
    | none, none, none => .string raw

/-- The name and the datum that an argument binds to it. -/
def ofArg (arg : String) : Except BindingError (String × Datum) :=
  match arg.toList.span (· != '=') with
  | (name, _ :: raw) => .ok (Text.trim (String.ofList name), datum (String.ofList raw))
  | (_, []) => .error ⟨arg⟩

end Binding

end Reckon
