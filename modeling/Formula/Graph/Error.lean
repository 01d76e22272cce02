/-
Formula/Graph/Error.lean

What can go wrong with trees in a graph.
-/

namespace Formula

/-- What is wrong with an edit, or with the tree that a run has left. -/
inductive GraphError
  /-- The cell is not in the only slot of the owner. -/
  | notTheOperand (old owner : String)
  /-- The cell is in neither slot of the owner. -/
  | notAnOperand (old owner : String)
  /-- The owner has no slots. -/
  | noSlots (title : String)
  /-- The cell has no owner in which it could be replaced. -/
  | noParent
  /-- There is nothing at the end of a path. -/
  | noOperand
  /-- The optimizer has left a tree that is not well-formed. -/
  | malformed (text : String)
  deriving DecidableEq

def GraphError.message : GraphError → String
  | notTheOperand old owner => s!"{old} is not the operand of {owner}"
  | notAnOperand old owner => s!"{old} is not an operand of {owner}"
  | noSlots title => s!"{title} has no child slots"
  | noParent => "The node has no parent"
  | noOperand => "The node has no such operand"
  | malformed text => s!"Optimizer produced a malformed tree: {text}"

end Formula
