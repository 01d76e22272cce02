/-
Formula/CommandLine/Run.lean

The whole command line as a function from the arguments and the text of the
standard input to the output.  Expressions among the arguments are evaluated;
without any, the tracer reads its lines from the input.
-/
import Formula.CommandLine.Evaluate
import Formula.CommandLine.Tracer

namespace Formula.CommandLine

/-- The lines of a text; the end of the last line may be missing. -/
def inputLines (text : String) : List String :=
  let lines := text.splitOn "\n"
  if lines.getLast? = some "" then lines.dropLast else lines

/-- The level that the arguments ask for. -/
def Arguments.level (a : Arguments) : Log.Level :=
  if a.debug then .verbose else if a.verbose then .detailed else .minimal

/-- The logger that the arguments ask for. -/
def Arguments.logger (a : Arguments) : Log.Logger := .make a.level a.logfile.isSome

/-- The configuration that the arguments ask for. -/
def Arguments.config (a : Arguments) : Config :=
  { rational := !a.irrational, optimize := !a.noOptimize }

/-- The work that the arguments ask for. -/
def Arguments.work (a : Arguments) (bindings : List (String × Float)) (stdin : String) :
    Work Unit := do
  if a.expressions.isEmpty then
    let _ ← (Tracer.start a.config (!a.noOptimize)).run (inputLines stdin)
  else evaluateAll a a.config bindings

/-- The output of arguments that make no sense. -/
def misuseOutput (message : String) (logfile : Option (List String)) : Output :=
  ⟨2, [], [s!"{programName}: error: {message}"], logfile⟩

/-- A run with arguments that have been understood. -/
def Arguments.run (a : Arguments) (stdin : String) : Output :=
  match readBindings a.bindings with
  | .error message => misuseOutput message (if a.logger.file then some [] else none)
  | .ok bindings =>
    let result := (a.work bindings stdin).run
    match result.value with
    | .ok () => .ofPieces a.logger result.trace 0 []
    | .error e => .ofPieces a.logger result.trace 1 [s!"Error: {e.message}"]

/-- A run of the command line. -/
def run (argv : List String) (stdin : String) : Output :=
  match parseArguments argv with
  | .ok a => a.run stdin
  | .error .version => ⟨0, [s!"{programName} {version}"], [], none⟩
  | .error .help => ⟨0, [s!"usage: {programName} [options] [expressions ...]"], [], none⟩
  | .error (.misuse message) => misuseOutput message none

end Formula.CommandLine
