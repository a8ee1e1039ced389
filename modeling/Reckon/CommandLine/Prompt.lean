import Reckon.CommandLine.Arguments
import Reckon.CommandLine.Run
import Reckon.Text.Blank

/-!
# The prompt

Without an expression the program reads lines. It shows a prompt before each of them, skips blank
lines, and runs the others without the white space at their end. An error is reported in one line
and does not end the loop.
-/

namespace Reckon

/-- What the program leaves behind: its exit code and its two outputs. -/
structure Transcript where
  code : Nat
  stdout : String
  stderr : String
deriving Repr, DecidableEq

namespace Prompt

/-- The text in front of a line. -/
def sign : String := "> "

/-- The lines of a text, each with its line break; the last one may have none. -/
def splitLines : List Char → List (List Char)
  | [] => []
  | c :: r =>
    if c = '\n' then [c] :: splitLines r
    else
      match splitLines r with
      | [] => [[c]]
      | line :: lines => (c :: line) :: lines

/-- What is shown for one line; nothing for a blank one. -/
def answer (a : Arguments) (line : String) : Option (Except RunError String) :=
  if Text.isBlank line then none
  else some (run (Text.trimEnd line) a.environment a.limit a.tree)

/-- What one line adds to the standard output. -/
def shown : Option (Except RunError String) → String
  | some (.ok text) => text ++ "\n"
  | _ => ""

/-- What one line adds to the standard error. -/
def reported : Option (Except RunError String) → String
  | some (.error e) => e.line ++ "\n"
  | _ => ""

/-- The transcript of reading a whole input. After the last line the prompt is shown once more. -/
def transcript (a : Arguments) (input : String) : Transcript :=
  let answers := (splitLines input.toList).map fun line => answer a (String.ofList line)
  ⟨0, String.join (answers.map fun r => sign ++ shown r) ++ sign,
    String.join (answers.map reported)⟩

end Prompt

/-- The transcript of the program with these arguments on this input. -/
def Arguments.transcript (a : Arguments) (input : String) : Transcript :=
  match a.expression with
  | none => Prompt.transcript a input
  | some source =>
    match run source a.environment a.limit a.tree with
    | .ok text => ⟨0, text ++ "\n", ""⟩
    | .error e => ⟨1, "", e.report⟩

/-- The transcript of the program, unless its arguments make no sense. -/
def program (args : List String) (input : String) : Except UsageError Transcript :=
  (Arguments.ofList args).map (·.transcript input)

end Reckon
