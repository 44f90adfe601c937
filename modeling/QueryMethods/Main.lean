/-
The command line: surveys the names on standard input, one on each line.
-/
import QueryMethods.Survey
open QueryMethods

/-- Surveys the names line by line, with the time that each took to read. -/
partial def surveyStream (input : IO.FS.Stream) : IO Unit := do
  let line ← input.getLine
  if line.isEmpty then return
  for name in surveyNames line do
    let start ← IO.monoNanosNow
    let survey ← IO.lazyPure fun _ => Survey.ofName name
    let stop ← IO.monoNanosNow
    let remark := " in " ++ toString ((stop - start) / 1000) ++ "μs"
    for text in survey.lines name remark do
      IO.println text
  surveyStream input

/-- Surveys the names on the standard input. -/
def main : IO Unit := do
  surveyStream (← IO.getStdin)
