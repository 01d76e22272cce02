/-
Formula/Proofs/Graph/Reachable.lean

The graphs that can be reached with the operations on nodes: making nodes,
filling slots, changing constants, moving marks and links, copying, and
optimizing with any settings.  Nothing is asked of these operations.  Slots may
be filled with cells that are held elsewhere, or above, and the optimizer may be
run on any cell, also where it fails.

Every operation stays in the region of all cells, so it is a run of edits there, and
what edits keep holds of every reachable graph.
-/
import Formula.Proofs.Graph.Regions

namespace Formula

namespace Graph

/-! ### Operations on graphs -/

section

variable {α : Type} {K : Graph α → Nat → Prop} {g g' : Graph α}

/-- A run of edits anywhere; what is marked has the property `K`. -/
abbrev EditedBy (K : Graph α → Nat → Prop) (g g' : Graph α) : Prop := Edits K (fun _ => True) g g'

/-- A run of any edits. -/
abbrev Edited (g g' : Graph α) : Prop := EditedBy (fun _ _ => True) g g'

theorem edited_setSlot (g : Graph α) (i : Nat) (s : Slot) (new : Option Nat) :
    EditedBy K g (g.setSlot i s new) :=
  (Closed.all g).edits_setSlot trivial fun _ _ => trivial

theorem edited_newUnary (g : Graph α) (op : UnaryOp) (x : Option Nat) :
    EditedBy K g (g.newUnary op x).1 :=
  edits_newUnary op trivial fun _ _ => trivial

theorem edited_newBinary (g : Graph α) (op : BinaryOp) (l r : Option Nat) :
    EditedBy K g (g.newBinary op l r).1 :=
  edits_newBinary op trivial (fun _ _ => trivial) fun _ _ => trivial

theorem edited_build (g : Graph α) (e : Expr α) : EditedBy K g (g.build e).1 :=
  ((Closed.all g).edits_build e).1

theorem edited_replaceChild [Numeral α] {owner : Nat} {old new : Option Nat}
    (h : g.replaceChild owner old new = .ok g') : EditedBy K g g' :=
  (Closed.all g).edits_replaceChild trivial (fun _ _ => trivial) h

theorem edited_replaceNode [Numeral α] {root target new j : Nat}
    (h : g.replaceNode root target new = .ok (g', j)) : EditedBy K g g' :=
  ((Closed.all g).edits_replaceNode trivial trivial trivial h).1

/-- Work that may go anywhere is a run of edits. -/
theorem edited_of_confined {β : Type} {x : Editing α β} {P : β → Prop}
    (h : x.Confined (fun _ => True) P) (g : Graph α) : Edited g (x g).value.1 :=
  (h g (Closed.all g)).1

end

/-! ### Reachable graphs -/

variable {α : Type} [Numeral α] [Arithmetic α] {g g' : Graph α}

/-- The graphs that can be reached with the operations on nodes. -/
inductive Reachable : Graph α → Prop
  | empty : Reachable .empty
  | newConst {g : Graph α} (v : α) : Reachable g → Reachable (g.add (.const v)).1
  | newVar {g : Graph α} (x : String) : Reachable g → Reachable (g.add (.var x)).1
  | newUnary {g : Graph α} (op : UnaryOp) (x : Option Nat) : Reachable g →
      Reachable (g.newUnary op x).1
  | newBinary {g : Graph α} (op : BinaryOp) (l r : Option Nat) : Reachable g →
      Reachable (g.newBinary op l r).1
  | setSlot {g : Graph α} (i : Nat) (s : Slot) (new : Option Nat) : Reachable g →
      Reachable (g.setSlot i s new)
  | setValue {g : Graph α} (i : Nat) (v : α) : Reachable g → Reachable (g.setValue i v)
  | detach {g : Graph α} (i : Nat) : Reachable g → Reachable (g.detach i)
  | mark {g : Graph α} (i : Nat) : Reachable g → Reachable (g.mark i)
  | invalidate {g : Graph α} (i : Nat) : Reachable g → Reachable (g.invalidate i)
  | size {g : Graph α} (i : Nat) : Reachable g → Reachable (g.size i).1
  | copy {g : Graph α} (i : Nat) : Reachable g → Reachable (g.copy i).1
  | replaceChild {g g' : Graph α} {owner : Nat} {old new : Option Nat} : Reachable g →
      g.replaceChild owner old new = .ok g' → Reachable g'
  | replaceNode {g g' : Graph α} {root target new j : Nat} : Reachable g →
      g.replaceNode root target new = .ok (g', j) → Reachable g'
  | optimizeHere {g : Graph α} (s : Settings α) (env : Environment α) (i : Nat) : Reachable g →
      Reachable (g.optimizeHere s env i).value.1
  | optimizeTree {g : Graph α} (s : Settings α) (env : Environment α) (i : Nat) : Reachable g →
      Reachable (g.optimizeTree s env i).value.1

/-- Reachable graphs come about by edits. -/
theorem Reachable.edited (h : Reachable g) : Edited .empty g := by
  induction h with
  | empty => exact .refl
  | newConst v _ ih => exact ih.trans (.single (.add rfl))
  | newVar x _ ih => exact ih.trans (.single (.add rfl))
  | newUnary op x _ ih => exact ih.trans (edited_newUnary _ op x)
  | newBinary op l r _ ih => exact ih.trans (edited_newBinary _ op l r)
  | setSlot i s new _ ih => exact ih.trans (edited_setSlot _ i s new)
  | setValue i v _ ih => exact ih.trans (.single (.setValue trivial))
  | detach i _ ih => exact ih.trans (.single (.detach trivial))
  | mark i _ ih => exact ih.trans (.single (.mark trivial trivial))
  | invalidate i _ ih => exact ih.trans (.single (.invalidate trivial))
  | size i _ ih => exact ih.trans (.single .size)
  | copy i _ ih => exact ih.trans (edited_build _ _)
  | replaceChild _ hreplace ih => exact ih.trans (edited_replaceChild hreplace)
  | replaceNode _ hreplace ih => exact ih.trans (edited_replaceNode hreplace)
  | optimizeHere s env i _ ih =>
      exact ih.trans (edited_of_confined (Editing.Confined.optimizeHere trivial) _)
  | optimizeTree s env i _ ih =>
      exact ih.trans (edited_of_confined
        (Editing.Confined.wholeTree (fun _ hi => Editing.Confined.optimize hi) trivial) _)

end Graph

end Formula
