/-
Formula/CommandLine/Arguments.lean

From the list of arguments to what they ask for.  All arguments are read
first, so an ambiguous one is reported before anything else.  Then they are
taken one by one: a switch takes the values behind it, and the first unbroken
row of other values are the expressions.  What is left over at the end is an
error.
-/
import Formula.CommandLine.Switch

namespace Formula.CommandLine

/-- What a list of arguments asks for. -/
structure Arguments where
  expressions : List String := []
  bindings : List String := []
  sweep : Option (List String) := none
  noOptimize : Bool := false
  irrational : Bool := false
  debug : Bool := false
  verbose : Bool := false
  logfile : Option String := none

/-- Why no work is done. -/
inductive Stop
  | help
  | version
  /-- The arguments make no sense. -/
  | misuse (message : String)

/-- What messages call a switch. -/
def Switch.title (s : Switch) : String := "/".intercalate s.names

/-- What is wrong with a switch. -/
def Switch.misuse (s : Switch) (what : String) : Stop := .misuse s!"argument {s.title}: {what}"

/-- A switch has fewer values than it takes. -/
def Switch.tooFew (s : Switch) : Stop :=
  s.misuse (if s.arity = 1 then "expected one argument" else s!"expected {s.arity} arguments")

/-- A switch has a value that it does not take. -/
def Switch.ignored (s : Switch) (text : List Char) : Stop :=
  s.misuse s!"ignored explicit argument {Text.quoted (String.ofList text)}"

/-- Obeys a switch that has its values. -/
def Arguments.obey (a : Arguments) (s : Switch) (values : List String) : Except Stop Arguments :=
  match s.purpose with
  | .help => .error .help
  | .version => .error .version
  | .bind => .ok { a with bindings := a.bindings ++ values }
  | .sweep => .ok { a with sweep := some values }
  | .noOptimize => .ok { a with noOptimize := true }
  | .irrational => .ok { a with irrational := true }
  | .externalForm => .ok a
  | .debug => .ok { a with debug := true }
  | .verbose => .ok { a with verbose := true }
  | .logfile => .ok { a with logfile := values.head? }

/-! ### One argument -/

/-- What one argument with a switch amounts to: switches that have their
values, text that means nothing, and a switch that still needs values. -/
structure Effects where
  complete : List (Switch × List String)
  extra : Option String
  waiting : Option Switch

/-- The effects of a switch without attached text. -/
def Switch.alone (s : Switch) : Effects :=
  if s.arity = 0 then ⟨[(s, [])], none, none⟩ else ⟨[], none, some s⟩

/-- Puts a switch without values before other effects. -/
def Effects.after (s : Switch) (e : Effects) : Effects :=
  { e with complete := (s, []) :: e.complete }

/-- The effects of a switch with text attached to it.  Behind a letter that
takes no value, more letters may follow. -/
def attachedEffects (s : Switch) (isLetter behindEquals : Bool) :
    List Char → Except Stop Effects
  | [] =>
    if s.arity = 1 then .ok ⟨[(s, [""])], none, none⟩
    else if s.arity = 0 then .error (s.ignored [])
    else .error s.tooFew
  | c :: rest =>
    if s.arity = 1 then .ok ⟨[(s, [String.ofList (c :: rest)])], none, none⟩
    else if s.arity ≠ 0 then .error s.tooFew
    else if !isLetter || behindEquals || c = '-' then .error (s.ignored (c :: rest))
    else
      match switchNamed? ['-', c] with
      | none => .ok ⟨[(s, [])], some (String.ofList ('-' :: c :: rest)), none⟩
      | some next =>
        match rest with
        | [] => .ok (next.alone.after s)
        | '=' :: text => (·.after s) <$> attachedEffects next true true text
        | d :: text => (·.after s) <$> attachedEffects next true false (d :: text)

/-- The effects of an argument that is a switch. -/
def switchEffects (s : Switch) (name : String) (attached : Option Attached) :
    Except Stop Effects :=
  match attached with
  | none => .ok s.alone
  | some a => attachedEffects s (name.length = 2) a.behindEquals a.text

/-! ### All arguments -/

/-- The work on a list of arguments. -/
structure Progress where
  arguments : Arguments
  /-- The values since the last switch. -/
  row : List String
  /-- Whether the expressions have been taken. -/
  taken : Bool
  extras : List String
  /-- A switch that needs more values than it has so far. -/
  waiting : Option (Switch × List String)

namespace Progress

def start : Progress := ⟨{}, [], false, [], none⟩

/-- Ends a row of values: they are the expressions, without the first
separator, or else left over. -/
def closeRow (p : Progress) : Progress :=
  if p.row.isEmpty then p
  else if p.taken then { p with row := [], extras := p.extras ++ p.row }
  else
    { p with
      row := []
      taken := true
      arguments := { p.arguments with expressions := p.row.erase "--" } }

/-- Adds the effects of a switch. -/
def add (p : Progress) (e : Effects) : Except Stop Progress := do
  let arguments ← e.complete.foldlM (fun a (s, values) => a.obey s values) p.arguments
  return { p with
    arguments
    extras := p.extras ++ e.extra.toList
    waiting := e.waiting.map (·, []) }

/-- Takes one argument. -/
def step (p : Progress) (arg : Reading × String) : Except Stop Progress :=
  match p.waiting, arg with
  | some (s, values), (.value, text) =>
    let values := values ++ [text]
    if values.length < s.arity then .ok { p with waiting := some (s, values) }
    else do
      let arguments ← p.arguments.obey s values
      return { p with arguments, waiting := none }
  | some (s, _), _ => .error s.tooFew
  | none, (.switch s name attached, _) => do
    p.closeRow.add (← switchEffects s name attached)
  | none, (.unknownSwitch, text) =>
    let p := p.closeRow
    .ok { p with extras := p.extras ++ [text] }
  | none, (_, text) => .ok { p with row := p.row ++ [text] }

/-- Ends the work. -/
def finish (p : Progress) : Except Stop Arguments :=
  match p.waiting with
  | some (s, _) => .error s.tooFew
  | none =>
    let p := p.closeRow
    if p.extras.isEmpty then .ok p.arguments
    else .error (.misuse ("unrecognized arguments: " ++ " ".intercalate p.extras))

end Progress

/-- Reads all arguments; behind a separator there are only values. -/
def readArguments : List String → Except Stop (List (Reading × String))
  | [] => .ok []
  | arg :: rest =>
    match readArgument arg with
    | .error names =>
      .error (.misuse (s!"ambiguous option: {arg} could match " ++ ", ".intercalate names))
    | .ok .separator => .ok ((.separator, arg) :: rest.map (.value, ·))
    | .ok reading => ((reading, arg) :: ·) <$> readArguments rest

/-- What a list of arguments asks for. -/
def parseArguments (argv : List String) : Except Stop Arguments := do
  let readings ← readArguments argv
  (← readings.foldlM Progress.step .start).finish

end Formula.CommandLine
