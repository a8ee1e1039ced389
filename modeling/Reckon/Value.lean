import Reckon.Decimal.Style
import Reckon.Text.Quoted

/-!
# Values

What an expression evaluates to: an integer of 64 bits, a float of single precision, a string, a
truth value or a character. A value is never converted into one of another kind; asking for the
wrong kind is an error.
-/

namespace Reckon

/-- The kinds of value, which are also the kinds of literal. -/
inductive Kind
  | integer | float | string | bool | char
deriving Repr, DecidableEq

/-- The kind in messages. -/
def Kind.text : Kind → String
  | integer => "integer"
  | float => "float"
  | string => "string"
  | bool => "bool"
  | char => "char"

/-- The result of an evaluation. -/
inductive Value
  | integer (n : Int64)
  | float (x : Float32)
  | string (s : String)
  | bool (b : Bool)
  | char (c : Char)

namespace Value

def kind : Value → Kind
  | integer _ => .integer
  | float _ => .float
  | string _ => .string
  | bool _ => .bool
  | char _ => .char

/-- The value as it is shown, without quotation marks. -/
def text : Value → String
  | integer n => toString n.toInt
  | float x => Single.text .value x
  | string s => s
  | bool b => if b then "true" else "false"
  | char c => String.singleton c

/-- The value as the log shows it, with its kind. -/
def logText : Value → String
  | integer n => "Integer(" ++ toString n.toInt ++ ")"
  | float x => "Float(" ++ Single.text .log x ++ ")"
  | string s => "String(" ++ Text.quote s ++ ")"
  | bool b => "Bool(" ++ (if b then "true" else "false") ++ ")"
  | char c => "Char(" ++ Text.quoteChar c ++ ")"

/-- Values are equal if they are of one kind and have equal payloads. Floats are compared as
numbers: the two zeros are equal, and what is no number equals nothing. -/
def beq : Value → Value → Bool
  | integer a, integer b => a == b
  | float a, float b => a == b
  | string a, string b => a == b
  | bool a, bool b => a == b
  | char a, char b => a == b
  | _, _ => false

instance : BEq Value := ⟨beq⟩

end Value

/-! ## Asking for a kind -/

/-- A value of another kind was asked for. -/
structure ConversionError where
  expected : Kind
  found : Kind
deriving Repr, DecidableEq

def ConversionError.message (e : ConversionError) : String :=
  "cannot convert " ++ e.found.text ++ " value to " ++ e.expected.text

namespace Value

def asInteger : Value → Except ConversionError Int64
  | integer n => .ok n
  | v => .error ⟨.integer, v.kind⟩

def asFloat : Value → Except ConversionError Float32
  | float x => .ok x
  | v => .error ⟨.float, v.kind⟩

def asString : Value → Except ConversionError String
  | string s => .ok s
  | v => .error ⟨.string, v.kind⟩

def asBool : Value → Except ConversionError Bool
  | bool b => .ok b
  | v => .error ⟨.bool, v.kind⟩

def asChar : Value → Except ConversionError Char
  | char c => .ok c
  | v => .error ⟨.char, v.kind⟩

end Value

end Reckon
