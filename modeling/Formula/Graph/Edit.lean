/-
Formula/Graph/Edit.lean

Replacing cells: an operand of a given owner, or a cell anywhere in a tree.
-/
import Formula.Graph.Error
import Formula.Graph.View

namespace Formula

universe u

namespace Graph

variable {α : Type u} [Numeral α]

/-- Puts a cell into the slot of an owner that holds another one; of two such
slots, the left one. -/
def replaceChild (g : Graph α) (owner : Nat) (old new : Option Nat) :
    Except GraphError (Graph α) :=
  match g.content? owner with
  | some (.unary _ x) =>
    if x = old then .ok (g.setSlot owner .operand new)
    else .error (.notTheOperand (g.description old) (g.description owner))
  | some (.binary _ l r) =>
    if l = old then .ok (g.setSlot owner .left new)
    else if r = old then .ok (g.setSlot owner .right new)
    else .error (.notAnOperand (g.description old) (g.description owner))
  | _ => .error (.noSlots (g.expr owner).title)

/-- Replaces a cell in the tree below a root, and gives the root of the new
tree. -/
def replaceNode (g : Graph α) (root target new : Nat) : Except GraphError (Graph α × Nat) :=
  if target = root then .ok (g, new)
  else
    match g.parent? target with
    | none => .error .noParent
    | some p => (·, root) <$> g.replaceChild p (some target) (some new)

end Graph

end Formula
