/-
Formula/Graph/Editing.lean

Work on a graph, step by step.  It reports events, it may fail, and in either
case it leaves a graph behind: what has been edited before a failure stays
edited.
-/
import Formula.Graph.Edit
import Formula.Simplify.Trace

namespace Formula

/-- Work on a graph. -/
def Editing (α β : Type) : Type := Graph α → Traced (Event α) (Graph α × Except GraphError β)

namespace Editing

variable {α β γ : Type}

instance : Monad (Editing α) where
  pure v := fun g => ⟨(g, .ok v), []⟩
  bind x f := fun g =>
    match x g with
    | ⟨(g, .ok v), before⟩ => ⟨(f v g).value, before ++ (f v g).trace⟩
    | ⟨(g, .error e), before⟩ => ⟨(g, .error e), before⟩

/-- The graph as it is. -/
def get : Editing α (Graph α) := fun g => ⟨(g, .ok g), []⟩

/-- Changes the graph. -/
def edit (f : Graph α → Graph α) : Editing α Unit := fun g => ⟨(f g, .ok ()), []⟩

/-- Changes the graph and gives what the change yields. -/
def make (f : Graph α → Graph α × β) : Editing α β := fun g => ⟨((f g).1, .ok (f g).2), []⟩

/-- Changes the graph unless that is impossible. -/
def attempt (f : Graph α → Except GraphError (Graph α × β)) : Editing α β := fun g =>
  match f g with
  | .ok (g, v) => ⟨(g, .ok v), []⟩
  | .error e => ⟨(g, .error e), []⟩

/-- Stops with an error. -/
def fail (e : GraphError) : Editing α β := fun g => ⟨(g, .error e), []⟩

/-- Reports an event. -/
def report (e : Event α) : Editing α Unit := fun g => ⟨(g, .ok ()), [e]⟩

/-! ### Cells -/

/-- The cell at the end of a path. -/
def locate (i : Nat) (p : Path) : Editing α Nat := fun g =>
  match g.follow i p with
  | some x => ⟨(g, .ok x), []⟩
  | none => ⟨(g, .error .noOperand), []⟩

/-- The parent of a cell. -/
def parentOf (i : Nat) : Editing α Nat := fun g =>
  match g.parent? i with
  | some p => ⟨(g, .ok p), []⟩
  | none => ⟨(g, .error .noParent), []⟩

/-- A new cell for a constant. -/
def newConst (v : α) : Editing α Nat := make (·.add (.const v))

/-- A new cell for a unary operator. -/
def newUnary (op : UnaryOp) (x : Nat) : Editing α Nat := make (·.newUnary op (some x))

/-- A new cell for a binary operator. -/
def newBinary (op : BinaryOp) (l r : Nat) : Editing α Nat :=
  make (·.newBinary op (some l) (some r))

/-- A copy of the tree at the end of a path. -/
def copy (i : Nat) (p : Path) : Editing α Nat := do
  let x ← locate i p
  match ← make (·.copy x) with
  | some y => return y
  | none => fail .noOperand

/-- The size of the tree below a cell. -/
def size (i : Nat) : Editing α Nat := make (·.size i)

variable [Numeral α]

/-- Puts a cell into the slot of an owner that holds another one. -/
def replaceChild (owner old new : Nat) : Editing α Unit :=
  attempt fun g => (·, ()) <$> g.replaceChild owner (some old) (some new)

/-- Replaces a cell in the tree below a root, and gives the root of the new
tree. -/
def replaceNode (root target new : Nat) : Editing α Nat :=
  attempt (·.replaceNode root target new)

end Editing

end Formula
