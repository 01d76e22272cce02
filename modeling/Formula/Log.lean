/-
Formula/Log.lean

Logging.  A logger has a level, and writes to the console, to a file, to both
or to neither.  A message is written if the level admits it.  A logger that
writes to neither still shows the bare text of warnings and errors on the
console.

The shared logger comes into being at its first use, with its default level.
Setting the level keeps the logger and where it writes, unless it writes
nowhere; then a new one is made.
-/

namespace Formula.Log

/-- How much is logged, from nothing to every applied rule. -/
inductive Level
  | silent | minimal | moderate | detailed | verbose
  deriving DecidableEq

def Level.rank : Level → Nat
  | silent => 0
  | minimal => 1
  | moderate => 2
  | detailed => 3
  | verbose => 4

/-- The level of a name. -/
def Level.ofName? : String → Option Level
  | "SILENT" => some silent
  | "MINIMAL" => some minimal
  | "MODERATE" => some moderate
  | "DETAILED" => some detailed
  | "VERBOSE" => some verbose
  | _ => none

/-- A message by its purpose. -/
inductive Message
  | critical (text : String)
  /-- Information that is logged from the given level on. -/
  | info (text : String) (required : Level)
  | milestone (text : String)
  | warning (text : String)
  | debug (text : String)

/-- The severity of a line. -/
inductive Severity
  | debug | info | warning | error
  deriving DecidableEq

def Severity.name : Severity → String
  | debug => "DEBUG"
  | info => "INFO"
  | warning => "WARNING"
  | error => "ERROR"

/-- A message that is written. -/
structure Record where
  severity : Severity
  text : String

/-- The line of a record. -/
def Record.line (r : Record) : String := r.severity.name ++ " - " ++ r.text

/-- Where records go, and which. -/
structure Logger where
  level : Level
  console : Bool
  file : Bool
  deriving DecidableEq

/-- What a message adds to the console and to the file. -/
structure Written where
  console : List String
  file : List String

namespace Logger

/-- A new logger writes to the console unless it is silent. -/
def make (level : Level) (file : Bool) : Logger := ⟨level, level ≠ .silent, file⟩

/-- The logger that the first use makes. -/
def default : Logger := make .moderate false

/-- Whether messages that need a level are logged. -/
def admits (l : Logger) (required : Level) : Bool := required.rank ≤ l.level.rank

/-- The record of a message, if it is logged. -/
def record? (l : Logger) : Message → Option Record
  | .critical text => if l.level ≠ .silent then some ⟨.error, "CRITICAL: " ++ text⟩ else none
  | .info text required => if l.admits required then some ⟨.info, text⟩ else none
  | .milestone text => if l.level ≠ .silent then some ⟨.info, "MILESTONE: " ++ text⟩ else none
  | .warning text => if l.admits .minimal then some ⟨.warning, text⟩ else none
  | .debug text => if l.admits .verbose then some ⟨.debug, "DEBUG: " ++ text⟩ else none

/-- Writes a record. -/
def write (l : Logger) (r : Record) : Written :=
  let line := [r.line]
  if l.console || l.file then
    ⟨if l.console then line else [], if l.file then line else []⟩
  else
    match r.severity with
    | .warning | .error => ⟨[r.text], []⟩
    | _ => ⟨[], []⟩

/-- Writes a message, if it is logged. -/
def log (l : Logger) (m : Message) : Written :=
  match l.record? m with
  | some r => l.write r
  | none => ⟨[], []⟩

end Logger

/-! ### The shared logger -/

/-- The shared logger; the first use makes it. -/
def current (shared : Option Logger) : Logger := shared.getD .default

/-- The shared logger after its level has been set. -/
def setLevel (shared : Option Logger) (level : Level) : Logger :=
  let l := current shared
  if l.console || l.file then { l with level } else .make level false

end Formula.Log
