/-
Formula/Config.lean

The configuration of a solver.  Fields arrive untyped and are checked in a
fixed order: first that there are no others, then that the four switches are
booleans, then that the tolerance is a number, then that it is positive.
-/
import Formula.Datum
import Formula.Simplify.Settings

namespace Formula

/-- The options of a solver. -/
structure Config where
  rational : Bool := true
  epsilon : Float := defaultEpsilon
  /-- Only the names of the solver are variables. -/
  restrictVariables : Bool := true
  /-- Expressions are optimized when they are parsed. -/
  optimize : Bool := true
  validateOptimizations : Bool := false

/-- What is wrong with the fields of a configuration. -/
inductive ConfigError
  | unknownField (field : String)
  | notBoolean (field : String)
  | epsilonNotNumeric
  | epsilonNotPositive

def ConfigError.message : ConfigError → String
  | unknownField field => s!"SolverConfig.__init__() got an unexpected keyword argument '{field}'"
  | notBoolean field => s!"{field} must be a boolean"
  | epsilonNotNumeric => "epsilon must be numeric"
  | epsilonNotPositive => "epsilon must be positive"

namespace Config

/-- The names of all fields. -/
def fieldNames : List String :=
  ["rational", "epsilon", "restrict_variables", "optimize", "validate_optimizations"]

/-- Refuses the first field of another name. -/
def checkNames (fields : List (String × Datum)) : Except ConfigError Unit :=
  match fields.find? fun (name, _) => !fieldNames.contains name with
  | some (name, _) => .error (.unknownField name)
  | none => .ok ()

/-- A switch among the given fields. -/
def switch (fields : List (String × Datum)) (name : String) (default : Bool) :
    Except ConfigError Bool :=
  match fields.lookup name with
  | none => .ok default
  | some (.bool b) => .ok b
  | some _ => .error (.notBoolean name)

/-- The tolerance among the given fields. -/
def tolerance (fields : List (String × Datum)) : Except ConfigError Float := do
  let v ← match fields.lookup "epsilon" with
    | none => .ok defaultEpsilon
    | some (.number v) => .ok v
    | some (.integer i) => .ok (Float.ofInt i)
    | some _ => .error .epsilonNotNumeric
  if v > 0.0 then return v else .error .epsilonNotPositive

/-- The configuration with the given fields; the others have their defaults. -/
def ofFields (fields : List (String × Datum)) : Except ConfigError Config := do
  checkNames fields
  let rational ← switch fields "rational" true
  let restrictVariables ← switch fields "restrict_variables" true
  let optimize ← switch fields "optimize" true
  let validateOptimizations ← switch fields "validate_optimizations" false
  let epsilon ← tolerance fields
  return { rational, epsilon, restrictVariables, optimize, validateOptimizations }

/-- The settings of the optimizer. -/
def settings (c : Config) : Settings Float := ⟨c.rational, c.epsilon, c.validateOptimizations⟩

end Config

end Formula
