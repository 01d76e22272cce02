/-
Formula/Solver/Call.lean

The calls of a solver.  A call works on the solver in steps, each of which may
fail, report or replace a part of the solver; what has been replaced before a
step fails stays replaced.
-/
import Formula.Solver.Basic

namespace Formula

namespace Solver

/-- Work on a solver.  The solver outlives a failure in the state it is in. -/
abbrev Action := ExceptT Error (StateT Solver (Traced Report))

/-- Reporting work that leaves the solver alone. -/
instance : MonadLift Reported Action := ⟨fun x => ExceptT.mk (StateT.lift x.run)⟩

namespace Action

variable {β : Type}

/-- The solver that work leaves behind, and what comes of the work. -/
def on (a : Action β) (s : Solver) : Solver × Reported β :=
  let r := a.run s
  (r.value.2, ExceptT.mk ⟨r.value.1, r.trace⟩)

/-- Replaces the names.  The values stay, place by place, if their number still
fits, and are dropped otherwise. -/
def setVariables (given : List Datum) : Action Unit := do
  let names ← Reported.ofExcept ((variableNames given).mapError .naming)
  let s ← get
  let kept := s.bindings.values.filter (·.length == names.length)
  let bindings ← Reported.ofExcept ((Bindings.make names kept).mapError .binding)
  set { s with bindings }
  Reported.report (.variablesSet names)

/-- Replaces all values.  A single number is taken as the value of the only
variable. -/
def storeValues (given : Samples) : Action Unit := do
  let s ← get
  let values ← Reported.ofExcept (given.flatten.mapError .samples)
  let bindings ← Reported.ofExcept ((s.bindings.setValues values).mapError .binding)
  set { s with bindings }

/-- Reports values as the list that they are given as; a single number is no
list. -/
def reportValues (given : Samples) : Action Unit :=
  match given with
  | .item _ => throw .notAList
  | .list _ => Reported.report (.valuesSet given.text)

/-- Replaces all values and reports them. -/
def setValues (given : Samples) : Action Unit := do
  storeValues given
  reportValues given

/-- Replaces the value of one name. -/
def setValue (name : String) (value : Float) : Action Unit := do
  let s ← get
  let bindings ← Reported.ofExcept ((s.bindings.bind name value).mapError .binding)
  set { s with bindings }

/-- Turns the reading of operands as finite on or off, in the configuration and
then in the optimizer. -/
def setRational (value : Bool) : Action Unit := do
  modify fun s => { s with config := { s.config with rational := value } }
  modify fun s => { s with settings := { s.settings with rational := value } }

/-- Reads an expression. -/
def parse (text : String) (optimize : Option Bool) : Action LiveExpr := do
  (← get).parse text optimize

/-- The value of an expression. -/
def eval (e : LiveExpr) : Action Float := do
  Reported.ofExcept ((← get).eval e)

/-- The values of an expression, or of a text that is read first, for rows of
values. -/
def evalRows (source : LiveExpr ⊕ String) (rows : Samples) : Action (List Float) := do
  let e ← match source with
    | .inl e => pure e
    | .inr text => parse text none
  Reported.ofExcept ((← get).evalRows e rows)

end Action

/-! ### Calls -/

/-- A call of a solver, with its arguments. -/
inductive Call
  | setVariables (names : List Datum)
  | setValues (values : Samples)
  | bind (name : String) (value : Float)
  | setRational (value : Bool)
  | parse (text : String) (optimize : Option Bool)
  | eval (e : LiveExpr)
  | evalText (text : String)
  | evalRows (source : LiveExpr ⊕ String) (rows : Samples)

/-- What a call gives back. -/
inductive Answer
  | nothing
  | expr (e : LiveExpr)
  | value (v : Float)
  | values (vs : List Float)

/-- The work of a call. -/
def Call.action : Call → Action Answer
  | setVariables names => (fun _ => .nothing) <$> Action.setVariables names
  | setValues values => (fun _ => .nothing) <$> Action.setValues values
  | bind name value => (fun _ => .nothing) <$> Action.setValue name value
  | setRational value => (fun _ => .nothing) <$> Action.setRational value
  | parse text optimize => .expr <$> Action.parse text optimize
  | eval e => .value <$> Action.eval e
  | evalText text => .value <$> (do Action.eval (← Action.parse text (some false)))
  | evalRows source rows => .values <$> Action.evalRows source rows

/-- The solver after a call, and what comes of the call. -/
def call (s : Solver) (c : Call) : Solver × Reported Answer := c.action.on s

/-- The solver after a call. -/
def after (s : Solver) (c : Call) : Solver := (s.call c).1

/-- What a call answers. -/
def answer (s : Solver) (c : Call) : Except Error Answer := (s.call c).2.run.value

/-- The solver after one call after the other, whether they fail or not. -/
def run (s : Solver) (calls : List Call) : Solver := calls.foldl after s

/-! ### Single calls -/

/-- Replaces the names. -/
def setVariables (s : Solver) (given : List Datum) : Reported Solver :=
  let (left, work) := (Action.setVariables given).on s
  (fun _ => left) <$> work

/-- Sets all values; the solver that is left behind comes with the work. -/
def setValues (s : Solver) (given : Samples) : Solver × Reported Unit :=
  (Action.setValues given).on s

/-- Replaces the value of one name. -/
def bind (s : Solver) (name : String) (value : Float) : Except Error Solver :=
  let (left, work) := (Action.setValue name value).on s
  (fun _ => left) <$> work.run.value

/-- Turns the reading of operands as finite on or off. -/
def setRational (s : Solver) (value : Bool) : Solver := ((Action.setRational value).on s).1

end Solver

end Formula
