/-
Formula/Graph/WellFormed.lean

Which cells are the roots of well-formed trees, and which cells can be reached
from others.  Both questions are answered by a walk along slots that never
visits a cell twice, so it ends on every finite graph, cycles included.  A
well-formed tree has no empty slot, every operand in it links back to its
owner, and no cell is met twice.
-/
import Formula.Graph.Basic

namespace Formula

universe u

namespace Graph

variable {α : Type u}

/-- Whether the trees below the pending cells are well-formed and have no cell
in common, all cells of them being unseen. -/
def areWellFormed (g : Graph α) (unseen pending : List Nat) : Bool :=
  match pending with
  | [] => true
  | i :: rest =>
    if _h : i ∈ unseen then
      match g.cell? i with
      | some c =>
        let xs := c.content.operands
        c.content.isFilled && xs.all (fun x => g.parent? x = some i)
          && areWellFormed g (unseen.erase i) (xs ++ rest)
      | none => false
    else false
termination_by unseen.length
decreasing_by
  have := List.length_erase_of_mem _h
  have := List.length_pos_of_mem _h
  omega

/-- Whether the tree below a cell is well-formed. -/
def isWellFormed (g : Graph α) (i : Nat) : Bool :=
  g.areWellFormed (List.range g.cellCount) [i]

/-- The unseen cells that can be reached from the pending ones. -/
def gather (g : Graph α) (unseen pending : List Nat) : List Nat :=
  match _h : pending.find? unseen.contains with
  | none => []
  | some i => i :: gather g (unseen.erase i) (g.operands i ++ pending.erase i)
termination_by unseen.length
decreasing_by
  have member : i ∈ unseen := List.contains_iff_mem.mp (List.find?_some _h)
  have := List.length_erase_of_mem member
  have := List.length_pos_of_mem member
  omega

/-- The cells that can be reached from the given ones along slots. -/
def reachable (g : Graph α) (from_ : List Nat) : List Nat :=
  g.gather (List.range g.cellCount) from_

end Graph

end Formula
