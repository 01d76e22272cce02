/-
Formula/Bindings.lean

Variable bindings: distinct names in order, and their values if these have
been set.  All values are set at once; a single one can be replaced afterwards.
Without names there is nothing to set, and the empty list of values is there
from the start.
-/
import Formula.Expr.Evaluation
import Formula.Samples

namespace Formula

universe u

/-- Names in order and, once set, their values in the same order. -/
structure Bindings (α : Type u) where
  names : List String
  values : Option (List α)

/-- Why bindings cannot be made or changed. -/
inductive BindingError
  | duplicateNames (names : List String)
  | wrongCount (names : List String) (count : Nat)
  | undefinedVariable (name : String)
  | valuesNotSet

def BindingError.message : BindingError → String
  | duplicateNames names => s!"Variable names must be unique: {Text.quotedList names}"
  | wrongCount names count =>
    s!"Expected {names.length} values for variables {Text.quotedList names}, got {count}"
  | undefinedVariable name => (EvalError.undefinedVariable name).message
  | valuesNotSet => "Cannot bind a single variable before values are set"

/-- Whether no name occurs twice. -/
def namesAreDistinct : List String → Bool
  | [] => true
  | x :: rest => !rest.contains x && namesAreDistinct rest

namespace Bindings

variable {α : Type u}

/-- The bindings without names. -/
def empty : Bindings α := ⟨[], some []⟩

/-- Sets all values. -/
def setValues (b : Bindings α) (values : List α) : Except BindingError (Bindings α) :=
  if values.length = b.names.length then .ok { b with values := some values }
  else .error (.wrongCount b.names values.length)

/-- Bindings of the given names. -/
def make (names : List String) (values : Option (List α)) : Except BindingError (Bindings α) :=
  if namesAreDistinct names then
    match values with
    | some vs => setValues ⟨names, none⟩ vs
    | none => .ok ⟨names, if names.isEmpty then some [] else none⟩
  else .error (.duplicateNames names)

/-- Replaces the value of one name. -/
def bind (b : Bindings α) (name : String) (value : α) : Except BindingError (Bindings α) :=
  match b.names.idxOf? name, b.values with
  | none, _ => .error (.undefinedVariable name)
  | some _, none => .error .valuesNotSet
  | some i, some vs => .ok { b with values := some (vs.set i value) }

/-- The value of a name. -/
def get? (b : Bindings α) (name : String) : Option α :=
  match b.names.idxOf? name, b.values with
  | some i, some vs => vs[i]?
  | _, _ => none

/-- The bindings as an environment. -/
def environment (b : Bindings α) : Environment α := b.get?

/-- Whether a name is bound, with or without a value. -/
def contains (b : Bindings α) (name : String) : Bool := b.names.contains name

/-- The names with their values; none while these are not set. -/
def items (b : Bindings α) : List (String × α) := b.names.zip (b.values.getD [])

/-- The bindings as messages show them. -/
def text (b : Bindings Float) : String :=
  let bound := b.items.map fun (name, value) => name ++ "=" ++ Decimal.fullText value
  "EvaluationContext(" ++ ", ".intercalate bound ++ ")"

/-! ### Bindings with values -/

variable {names : List String} {values : List α} {b : Bindings α} {x : String}

theorem eq_of_make (h : make names (some values) = .ok b) :
    b = ⟨names, some values⟩ ∧ values.length = names.length := by
  simp only [make, setValues] at h
  split at h
  · split at h
    · next hlength => exact ⟨(Except.ok.inj h).symm, hlength⟩
    · cases h
  · cases h

theorem namesAreDistinct_iff : namesAreDistinct names ↔ names.Nodup := by
  induction names with
  | nil => simp [namesAreDistinct]
  | cons x names ih => simp [namesAreDistinct, ih]

/-- Distinct names are bound to any values of the right number. -/
theorem make_eq_ok (hnames : names.Nodup) (hvalues : values.length = names.length) :
    make names (some values) = .ok ⟨names, some values⟩ := by
  rw [make, if_pos (namesAreDistinct_iff.mpr hnames)]
  exact if_pos hvalues

theorem exists_idxOf? (hx : x ∈ names) : ∃ i, names.idxOf? x = some i ∧ i < names.length := by
  obtain ⟨i, hi⟩ := Option.isSome_iff_exists.mp (List.isSome_idxOf?.mpr hx)
  exact ⟨i, hi, (List.idxOf?_eq_some_iff.mp hi).1⟩

/-- A name has the value at its place. -/
theorem environment_of_idxOf? {i : Nat} (hi : names.idxOf? x = some i) :
    environment ⟨names, some values⟩ x = values[i]? := by
  simp [environment, get?, hi]

/-- Bindings with values give a value to every name. -/
theorem environment_eq_none_iff (h : make names (some values) = .ok b) :
    b.environment x = none ↔ ¬b.contains x := by
  obtain ⟨rfl, hlength⟩ := eq_of_make h
  simp only [contains, List.contains_iff_mem]
  by_cases hx : x ∈ names
  · obtain ⟨i, hi, hlt⟩ := exists_idxOf? hx
    rw [environment_of_idxOf? hi, List.getElem?_eq_getElem (hlength ▸ hlt)]
    simp [hx]
  · simp [environment, get?, List.idxOf?_eq_none_iff.mpr hx, hx]

theorem exists_environment_iff (h : make names (some values) = .ok b) :
    (∃ v, b.environment x = some v) ↔ b.contains x := by
  rw [← Option.ne_none_iff_exists', ne_eq, environment_eq_none_iff h, Classical.not_not]

end Bindings

end Formula
