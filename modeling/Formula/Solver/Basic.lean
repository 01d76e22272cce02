/-
Formula/Solver/Basic.lean

The solver: variable bindings, a configuration and the settings of its
optimizer, and with them the way from a text to a value.  What is here reads
the solver; the calls that change it are in `Formula.Solver.Call`.
-/
import Formula.Solver.LiveExpr

namespace Formula

/-- Variable bindings, a configuration and an optimizer.  The optimizer has
settings of its own, which are taken from the configuration once. -/
structure Solver where
  config : Config
  settings : Settings Float
  bindings : Bindings Float

/-- The names in a list of untyped data.  Each has to be a text that starts
with a letter, and no two may be equal. -/
def variableNames (given : List Datum) : Except NamingError (List String) := do
  let names ← given.mapM fun d =>
    match d with
    | .text s =>
      match s.toList with
      | c :: _ => if Text.isLetter c then .ok s else .error (.badStart d.shown)
      | [] => .error (.badStart d.shown)
    | _ => .error (.badStart d.shown)
  if namesAreDistinct names then return names else .error (.duplicate names)

namespace Solver

/-- A solver whose optimizer is set as the configuration says. -/
def configured (config : Config) (bindings : Bindings Float) : Solver :=
  ⟨config, config.settings, bindings⟩

/-- A solver for the given names. -/
def make (config : Config) (names : List Datum) (values : Option Samples) :
    Except Error Solver := do
  let names ← (variableNames names).mapError .naming
  let values ← values.mapM fun t => t.flatten.mapError .samples
  return configured config (← (Bindings.make names values).mapError .binding)

/-- Whether an identifier is a variable. -/
def knows (s : Solver) (name : String) : Bool :=
  !s.config.restrictVariables || s.bindings.contains name

/-- Reads an expression, and optimizes it if asked to; without a wish the
configuration decides. -/
def parse (s : Solver) (text : String) (optimize : Option Bool) : Reported LiveExpr := do
  let e ← Reported.read s.knows text
  let live ← Reported.ofExcept ((LiveExpr.ofExpr e).mapError .eval)
  if optimize.getD s.config.optimize then
    return LiveExpr.ofNode
      (← Reported.ofOptimizer (live.root.optimizeTree s.settings .empty))
  else return live

/-- The value of an expression. -/
def eval (s : Solver) (e : LiveExpr) : Except Error Float :=
  match s.bindings.values with
  | none => .error .valuesMissing
  | some _ => (e.expr.eval s.bindings.environment).mapError .eval

/-- The value of a text, which is not optimized. -/
def evalText (s : Solver) (text : String) : Reported Float := do
  let e ← s.parse text (some false)
  Reported.ofExcept (s.eval e)

/-- The values of an expression for rows of values. -/
def evalRows (s : Solver) (e : LiveExpr) (samples : Samples) : Except Error (List Float) :=
  e.evalRows s.bindings.names samples

/-- Whether two numbers are equal within the tolerance. -/
def equals (s : Solver) (a b : Float) : Bool := Arithmetic.alike s.config.epsilon a b

end Solver

end Formula
