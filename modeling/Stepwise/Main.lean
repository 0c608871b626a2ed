import Stepwise.CommandLine

/-! The program: it answers one request given on its command line. -/

open Stepwise CommandLine in
def main (words : List String) : IO UInt32 := do
  match run words with
  | .report report =>
    (← IO.getStdout).putStr report.output
    (← IO.getStderr).putStr report.errors
    return report.code.toUInt32
  | .misused =>
    (← IO.getStderr).putStr helpText
    return 2
  | .interactive _ =>
    (← IO.getStderr).putStrLn "Error: no terminal to draw on"
    return 1
