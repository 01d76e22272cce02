/-
Formula/Solver/Report.lean

What a solver reports while it works, and at which level each report is
logged: applied rules as debug messages, one line for each parsed text and
optimized tree at the detailed level, and the pass limit as a warning.
-/
import Formula.Error
import Formula.Log
import Formula.Simplify.Trace

namespace Formula

/-- A report of a solver. -/
inductive Report
  | parsed (tokens nodes : Nat)
  | optimizer (event : Event Float)
  | variablesSet (names : List String)
  /-- The values as they were given. -/
  | valuesSet (shown : String)

/-- The log message of an optimizer event. -/
def Event.logged (e : Event Float) : Log.Message :=
  match e with
  | .applied .. => .debug e.message
  | .optimized .. => .info e.message .detailed
  | .passLimit _ => .warning e.message

/-- The log message of a report. -/
def Report.logged : Report → Log.Message
  | parsed tokens nodes => .info s!"Parsed {tokens} tokens into {nodes} nodes" .detailed
  | optimizer event => event.logged
  | variablesSet names => .info s!"Variables set to {Text.quotedList names}" .detailed
  | valuesSet shown => .info s!"Values set to {shown}" .detailed

/-- Work that reports and may fail; the reports before a failure stay. -/
abbrev Reported := ExceptT Error (Traced Report)

namespace Reported

/-- Makes a report. -/
def report (r : Report) : Reported Unit := ExceptT.lift (Traced.report r)

/-- Work that cannot fail, and reports optimizer events. -/
def ofOptimizer {β : Type} (x : Traced (Event Float) β) : Reported β :=
  ExceptT.lift ⟨x.value, x.trace.map .optimizer⟩

/-- Work that reports nothing. -/
def ofExcept {β : Type} (x : Except Error β) : Reported β := ExceptT.mk (pure x)

/-- Reads an expression and reports its sizes; `known` tells the names of
variables. -/
def read (known : String → Bool) (text : String) : Reported (Expr Float) := do
  let tokens ← ofExcept ((tokenize text).mapError .lex)
  let e ← ofExcept ((parse known tokens).mapError .parse)
  report (.parsed tokens.length e.size)
  return e

end Reported

end Formula
