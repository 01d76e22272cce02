/-
Formula/CommandLine/Output.lean

What a run of the command line produces.  Work prints text and reports; both
stay if it fails later on.
-/
import Formula.CommandLine.Sweep
import Formula.Solver.Basic

namespace Formula.CommandLine

/-- Something a run puts out. -/
inductive Piece
  /-- A line for the standard output. -/
  | line (text : String)
  | report (r : Report)

/-- An error that ends a run. -/
inductive Failure
  | library (e : Error)
  | sweep (e : SweepError)

def Failure.message : Failure → String
  | library e => e.message
  | sweep e => e.message

/-- Work that puts out pieces and may fail. -/
abbrev Work := ExceptT Failure (Traced Piece)

namespace Work

/-- Prints a line. -/
def print (text : String) : Work Unit := ExceptT.lift (Traced.report (.line text))

/-- The work of a solver. -/
def ofReported {β : Type} (x : Reported β) : Work β :=
  let run := x.run
  ExceptT.mk ⟨run.value.mapError .library, run.trace.map .report⟩

/-- Work that only fails or gives a value. -/
def ofExcept {β : Type} (x : Except Error β) : Work β :=
  ExceptT.mk (pure (x.mapError .library))

end Work

/-- The result of a run. -/
structure Output where
  code : Nat
  /-- The lines of the standard output. -/
  stdout : List String
  /-- The lines of the error output. -/
  stderr : List String
  /-- The lines of the log file, if there is one. -/
  logfile : Option (List String)

/-- The name of the program in its messages. -/
def programName : String := "expression-solver"

/-- The version of the program. -/
def version : String := "1.0.0"

/-- The lines of pieces, given the logger that reports go to. -/
def Output.ofPieces (logger : Log.Logger) (pieces : List Piece) (code : Nat)
    (errors : List String) : Output :=
  let written := pieces.filterMap fun p =>
    match p with
    | .report r => some (logger.log r.logged)
    | .line _ => none
  { code
    stdout := pieces.filterMap fun p =>
      match p with
      | .line text => some text
      | .report _ => none
    stderr := written.flatMap (·.console) ++ errors
    logfile := if logger.file then some (written.flatMap (·.file)) else none }

end Formula.CommandLine
