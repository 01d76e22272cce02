/-
Formula/CommandLine/Evaluate.lean

Evaluating the expressions of the command line, once for given values of the
variables, or along a sweep of one variable.
-/
import Formula.CommandLine.Arguments
import Formula.CommandLine.Output

namespace Formula.CommandLine

/-! ### Variables -/

/-- Gives a name a value: in its old place if it has one, else at the end. -/
def assign (name : String) (value : Float) : List (String × Float) → List (String × Float)
  | [] => [(name, value)]
  | (x, v) :: rest => if x = name then (x, value) :: rest else (x, v) :: assign name value rest

/-- A name and a value separated by an equals sign, or what is wrong with the
text. -/
def readBinding (text : String) : Except String (String × Float) :=
  let cs := text.toList
  let name := cs.takeWhile (· ≠ '=')
  match cs.dropWhile (· ≠ '=') with
  | _ :: value =>
    if name.isEmpty then .error s!"expected NAME=VALUE, got {Text.quoted text}"
    else
      match readNumber (String.ofList value) with
      | .ok v => .ok (String.ofList (Text.trimBlanks name), v)
      | .error e => .error e.message
  | [] => .error s!"expected NAME=VALUE, got {Text.quoted text}"

/-- All bindings, the later value of a name replacing the earlier one. -/
def readBindings (texts : List String) : Except String (List (String × Float)) :=
  texts.foldlM (fun bindings text => do
    let (name, value) ← readBinding text
    return assign name value bindings) []

/-! ### Evaluation -/

/-- A sweep of one variable. -/
structure Sweep where
  name : String
  start : Float
  values : List Float

/-- Reads the four values of the sweep switch. -/
def readSweep : List String → Work (Option Sweep)
  | [name, start, stop, step] => do
    let start ← Work.ofExcept (readNumber start)
    let stop ← Work.ofExcept (readNumber stop)
    let step ← Work.ofExcept (readNumber step)
    match sweepValues start stop step with
    | .ok values => return some ⟨name, start, values⟩
    | .error e => throw (.sweep e)
  | _ => return none

/-- The bindings with a place for the variable of a sweep. -/
def Sweep.extend (s : Sweep) (bindings : List (String × Float)) : List (String × Float) :=
  if (bindings.lookup s.name).isSome then bindings else bindings ++ [(s.name, s.start)]

/-- One row of values for each value of a sweep. -/
def Sweep.rows (s : Sweep) (bindings : List (String × Float)) : Samples :=
  .list (s.values.map fun x =>
    .list (bindings.map fun (name, v) => .item (if name = s.name then x else v)))

/-- Prints the value of an expression, or its values along a sweep. -/
def printValues (solver : Solver) (bindings : List (String × Float)) (sweep : Option Sweep)
    (e : LiveExpr) : Work Unit :=
  match sweep with
  | none => do
    let v ← Work.ofExcept (solver.eval e)
    Work.print s!"  = {Decimal.fullText v}"
  | some s =>
    if s.values.isEmpty then return
    else do
      let ys ← Work.ofExcept (solver.evalRows e (s.rows bindings))
      (s.values.zip ys).forM fun (x, y) =>
        Work.print s!"  {s.name}={Decimal.sixDigits x}\t{Decimal.fullText y}"

/-- Reads an expression, prints its optimized form if it is optimized, and
prints its values. -/
def evaluateText (solver : Solver) (bindings : List (String × Float)) (sweep : Option Sweep)
    (optimize : Bool) (text : String) : Work Unit := do
  let e ← Work.ofReported (solver.parse text (some optimize))
  if optimize then Work.print s!"{text}  =>  {e.text}"
  printValues solver bindings sweep e

/-- Evaluates all expressions. -/
def evaluateAll (arguments : Arguments) (config : Config) (bindings : List (String × Float)) :
    Work Unit := do
  let sweep ← readSweep (arguments.sweep.getD [])
  let bindings := match sweep with
    | some s => s.extend bindings
    | none => bindings
  let names := bindings.map fun (name, _) => Datum.text name
  let values := Samples.list (bindings.map fun (_, v) => .item v)
  let solver ← Work.ofExcept (Solver.make config names (some values))
  arguments.expressions.forM (evaluateText solver bindings sweep (!arguments.noOptimize))

end Formula.CommandLine
