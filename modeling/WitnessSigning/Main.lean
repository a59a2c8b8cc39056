import WitnessSigning.Walkthrough

/-!
# The program

Prints the transcript of the walkthrough: its lines, an empty line and the closing document, or the
complaint on the error stream.
-/

open WitnessSigning

/-- Prints the transcript and returns its status. -/
def main : IO UInt32 := do
  let shown := Walkthrough.transcript
  for line in shown.lines do
    IO.println (Text.toString line)
  match shown.summary with
  | some summary => IO.println ("\n" ++ summary.render 0)
  | none => IO.eprint (Text.toString shown.complaint)
  return shown.status
