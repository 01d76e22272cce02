/-
Formula/Main.lean

The program.
-/
import Formula.CommandLine.Run

open Formula.CommandLine

/-- Reads the arguments and the standard input, writes the output, and appends
to the log file. -/
def main (argv : List String) : IO UInt32 := do
  let needsInput := match parseArguments argv with
    | .ok a => a.expressions.isEmpty
    | .error _ => false
  let stdin ← if needsInput then (← IO.getStdin).readToEnd else pure ""
  let output := run argv stdin
  output.stdout.forM fun line => IO.println line
  output.stderr.forM fun line => IO.eprintln line
  match parseArguments argv, output.logfile with
  | .ok a, some lines =>
    if let some path := a.logfile then
      let file ← IO.FS.Handle.mk path .append
      lines.forM fun line => file.putStrLn line
  | _, _ => pure ()
  return output.code.toUInt32
