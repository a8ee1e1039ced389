import Reckon.CommandLine.Prompt

/-!
# The program

Reads the arguments and the standard input and writes what the library answers.
-/

open Reckon

/-- Reads and answers lines until the input ends. -/
partial def promptLoop (a : Arguments) (stdin : IO.FS.Stream) : IO Unit := do
  IO.print Prompt.sign
  (← IO.getStdout).flush
  let line ← stdin.getLine
  if line.isEmpty then return
  let result := Prompt.answer a line
  IO.print (Prompt.shown result)
  IO.eprint (Prompt.reported result)
  promptLoop a stdin

def main (args : List String) : IO UInt32 := do
  match Arguments.ofList args with
  | .error e =>
    IO.eprintln ("error: " ++ e.message)
    return 1
  | .ok a =>
    if a.expression.isNone then
      promptLoop a (← IO.getStdin)
      return 0
    let t := a.transcript ""
    IO.print t.stdout
    IO.eprint t.stderr
    return t.code.toUInt32
