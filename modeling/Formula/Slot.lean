/-
Formula/Slot.lean

The operand slots of operators by name.  A path is a row of slots that leads
from a node down to another.
-/

namespace Formula

/-- The name of an operand slot. -/
inductive Slot
  | operand | left | right
  deriving DecidableEq

namespace Slot

def name : Slot → String
  | operand => "operand"
  | left => "left"
  | right => "right"

/-- The slot of a name. -/
def ofName? : String → Option Slot
  | "operand" => some operand
  | "left" => some left
  | "right" => some right
  | _ => none

theorem ofName?_name (s : Slot) : ofName? s.name = some s := by
  cases s <;> rfl

end Slot

/-- The slots on the way down from a node to another. -/
abbrev Path := List Slot

end Formula
