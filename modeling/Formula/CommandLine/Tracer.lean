/-
Formula/CommandLine/Tracer.lean

The function tracer.  Its first lines are functions of `t`, up to an empty
line; each further line gives a new `t`, and the functions are printed with
their values there.  An empty line adds a tenth to `t`; any other line is an
expression, in which `t` is the value before.  The constants `pi` and `e` are
known throughout.

A line that is no expression prints an error and changes nothing.  The tracer
is one step for each line, so the end of the input can come anywhere.
-/
import Formula.CommandLine.Output
import Formula.Solver.Call

namespace Formula.CommandLine

/-- Where the tracer stands. -/
inductive Phase
  /-- Functions are read. -/
  | functions
  /-- Values are read; the number is the present `t`. -/
  | values (t : Float)
  | finished

/-- The state of the tracer. -/
structure Tracer where
  solver : Solver
  optimize : Bool
  /-- The functions so far, in the order in which they were entered. -/
  functions : List LiveExpr
  phase : Phase

namespace Tracer

/-- The variable of the functions. -/
def variableName : String := "t"

/-- What an empty line adds. -/
def stepWidth : Float := 0.1

/-- The ratio of a circle's circumference to its diameter. -/
def pi : Float := 3.141592653589793

/-- The bindings before the first line: `t` is zero. -/
def bindings (t : Float) : Bindings Float :=
  ⟨[variableName, "pi", "e"], some [t, pi, Arithmetic.euler]⟩

def start (config : Config) (optimize : Bool) : Tracer :=
  ⟨.configured config (bindings 0.0), optimize, [], .functions⟩

/-- What is printed before the first line. -/
def functionPrompt : String :=
  s!"Enter functions of {variableName}, one per line (empty line to finish):"

/-- What is printed before the first value. -/
def valuePrompt : String :=
  s!"Enter {variableName} values (empty line steps by {Decimal.fullText stepWidth}, 'quit' exits):"

/-- Runs work; an error is printed, and the state stays as it was. -/
def attempt {β : Type} (s : Tracer) (work : Reported β) (next : β → Work Tracer) :
    Work Tracer := do
  match ← ExceptT.lift (Work.ofReported work).run with
  | .ok v => next v
  | .error e =>
    Work.print s!"Error: {e.message}"
    return s

/-- Moves to a new `t` and prints the values of the functions there. -/
def moveTo (s : Tracer) (t : Float) : Work Tracer := do
  let solver ← Work.ofExcept (s.solver.bind variableName t)
  let values ← s.functions.mapM fun f => Work.ofExcept (solver.eval f)
  let row := ", ".intercalate (values.map Decimal.fullText)
  Work.print s!"{variableName}={Decimal.fullText t}: ({row})"
  return { s with solver, phase := .values t }

/-- Takes one line. -/
def step (s : Tracer) (line : String) : Work Tracer :=
  let text := String.ofList (Text.trimBlanks line.toList)
  match s.phase with
  | .functions =>
    if text.isEmpty then
      if s.functions.isEmpty then return { s with phase := .finished }
      else do
        Work.print valuePrompt
        return { s with phase := .values 0.0 }
    else
      s.attempt (s.solver.parse text (some s.optimize)) fun f =>
        return { s with functions := s.functions ++ [f] }
  | .values t =>
    if text = "quit" then return { s with phase := .finished }
    else if text.isEmpty then s.moveTo (t + stepWidth)
    else s.attempt (s.solver.evalText text) s.moveTo
  | .finished => return s

/-- Takes lines up to the last one. -/
def run (s : Tracer) (lines : List String) : Work Tracer := do
  Work.print functionPrompt
  lines.foldlM step s

end Tracer

end Formula.CommandLine
