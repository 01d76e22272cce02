/-
Formula/CommandLine/Switch.lean

The switches of the command line, and how one argument is read.  A switch has
one or two names; a name with two dashes may be shortened as long as one name
is left that it can mean, and may have its value attached behind an equals
sign.  Behind a name with one dash the value, or the letters of more switches,
may be attached directly.

An argument that starts with a dash is still a value if it is just the dash,
if it looks like a negative number, or if it holds a space.
-/
import Formula.Text.Digit
import Formula.Text.Quoted

namespace Formula.CommandLine

/-- What a switch asks for. -/
inductive Purpose
  | help
  | version
  | bind
  | sweep
  | noOptimize
  | irrational
  /-- A second simplified form by another program, of which nothing is shown
  here. -/
  | externalForm
  | debug
  | verbose
  | logfile
  deriving DecidableEq

/-- A switch with its names and the number of its values. -/
structure Switch where
  names : List String
  purpose : Purpose
  arity : Nat

/-- All switches. -/
def switches : List Switch :=
  [⟨["-h", "--help"], .help, 0⟩, ⟨["-v", "--version"], .version, 0⟩, ⟨["--var"], .bind, 1⟩,
   ⟨["--sweep"], .sweep, 4⟩, ⟨["--no-optimize"], .noOptimize, 0⟩,
   ⟨["--irrational"], .irrational, 0⟩, ⟨["--sympy"], .externalForm, 0⟩,
   ⟨["-D", "--debug"], .debug, 0⟩, ⟨["-V", "--verbose"], .verbose, 0⟩,
   ⟨["-L", "--logfile"], .logfile, 1⟩]

/-- All names with their switches. -/
def switchNames : List (String × Switch) :=
  switches.flatMap fun s => s.names.map fun name => (name, s)

/-- The switch of a full name. -/
def switchNamed? (name : List Char) : Option Switch := switchNames.lookup (String.ofList name)

/-- Text attached to the name of a switch, directly or behind an equals sign. -/
structure Attached where
  text : List Char
  behindEquals : Bool

/-- What an argument is. -/
inductive Reading
  | value
  /-- Two dashes; only values follow. -/
  | separator
  | switch (s : Switch) (name : String) (attached : Option Attached)
  | unknownSwitch

/-- The part before the first equals sign, and the part behind it. -/
def splitEquals (cs : List Char) : List Char × Option Attached :=
  match cs.dropWhile (· ≠ '=') with
  | [] => (cs, none)
  | _ :: rest => (cs.takeWhile (· ≠ '='), some ⟨rest, true⟩)

/-- Whether the characters are decimal digits of any script, one at least. -/
def areDigits (cs : List Char) : Bool :=
  !cs.isEmpty && cs.all fun c => (Text.decimalValue? c).isSome

/-- Whether the characters behind a dash make a negative number: digits, or
digits behind a point that may have digits before it. -/
def looksNumeric (cs : List Char) : Bool :=
  let cs := if cs.getLast? = some '\n' then cs.dropLast else cs
  areDigits cs ||
    match cs.dropWhile (· ≠ '.') with
    | _ :: fraction =>
      let whole := cs.takeWhile (· ≠ '.')
      (whole.isEmpty || areDigits whole) && areDigits fraction
    | [] => false

/-- The switches that an argument with no full name can mean. -/
def candidates (arg : List Char) : List Reading :=
  match arg with
  | '-' :: '-' :: _ =>
    let (head, attached) := splitEquals arg
    switchNames.filterMap fun (name, s) =>
      if head.isPrefixOf name.toList then some (.switch s name attached) else none
  | '-' :: letter :: text =>
    switchNames.filterMap fun (name, s) =>
      if name.toList = ['-', letter] then some (.switch s name (some ⟨text, false⟩)) else none
  | _ => []

/-- The full name of a reading that is a switch. -/
def Reading.name? : Reading → Option String
  | switch _ name _ => some name
  | _ => none

/-- Reads an argument; the error is the list of full names it could mean. -/
def readArgument (arg : String) : Except (List String) Reading :=
  let cs := arg.toList
  if cs = ['-', '-'] then .ok .separator
  else if cs.head? ≠ some '-' then .ok .value
  else
    match switchNamed? cs with
    | some s => .ok (.switch s arg none)
    | none =>
      if cs.length = 1 then .ok .value
      else
        let (head, attached) := splitEquals cs
        match attached, switchNamed? head with
        | some text, some s => .ok (.switch s (String.ofList head) (some text))
        | _, _ =>
          match candidates cs with
          | [reading] => .ok reading
          | [] => .ok (if looksNumeric cs.tail || cs.contains ' ' then .value else .unknownSwitch)
          | readings => .error (readings.filterMap Reading.name?)

end Formula.CommandLine
