import Reckon.Expression

/-!
# The log

What an evaluation reports on its way: every token when it is scanned, the expression once it has
been parsed, its value once it has been evaluated. The tokens are reported by the parser itself, one
at its start and one whenever it goes past a token (`logging`), so the log of a parse that failed
ends with the token ahead of the parser.
-/

namespace Reckon

/-- Something that the log reports. -/
inductive Event
  | scanned (t : Token)
  | parsed (source : String) (limit : Nat)
  | evaluated (e : Expr) (v : Value)

namespace Event

/-- How much detail must be asked for before the event is shown. -/
def level : Event → String
  | scanned _ => "TRACE"
  | parsed _ _ => "DEBUG"
  | evaluated _ _ => "TRACE"

/-- The part of the program that reports the event. -/
def target : Event → String
  | scanned _ => "calc_lib::scanner"
  | parsed _ _ => "calc_lib::parser"
  | evaluated _ _ => "calc_lib"

def message : Event → String
  | scanned t =>
    "scanned Token \x7b kind: " ++ t.kind.name ++ ", lexeme: " ++ Text.quote t.lexeme
      ++ ", offset: " ++ toString t.offset ++ " \x7d"
  | parsed source limit =>
    "parsed " ++ Text.quote source ++ " (max depth " ++ toString limit ++ ")"
  | evaluated e v => e.display ++ " => " ++ v.logText

end Event

open Reported (report)

/-- A parser that reports every token when it is scanned, but not the end of the source. -/
def logging : Effects (Reported Event) where
  perform
    | .scan t => if t.kind = .eof then pure () else report (.scanned t)
    | .leave _ => pure ()
  decode t := pure (Expr.ofToken t)

/-- Evaluates a source and reports on it. -/
def evalReported (source : String) (env : Environment) :
    Reported Event (Except Error Value) := do
  let p ← logging.start source Parser.defaultLimit
  let (answer, _) ← logging.parse p
  match answer with
  | .error e => return .error (.parse e)
  | .ok e =>
    report (.parsed source Parser.defaultLimit)
    match e.evaluate env with
    | .error err => return .error (.eval err)
    | .ok v =>
      report (.evaluated e v)
      return .ok v

/-- Evaluates a source and keeps the log. -/
def evalLogged (source : String) (env : Environment) : List Event × Except Error Value :=
  let r := evalReported source env
  (r.reports, r.value)

end Reckon
