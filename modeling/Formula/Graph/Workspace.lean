/-
Formula/Graph/Workspace.lean

A graph with handles.  A handle is a name for a cell and keeps the cell and
everything below it in use.  A parent link to a cell out of use is lost:
parents do not keep themselves alive, only handles and owners do.
-/
import Formula.Error
import Formula.Graph.Optimize

namespace Formula

/-- A graph with handles. -/
structure Workspace where
  graph : Graph Float
  handles : List (String × Nat)

namespace Workspace

/-- The workspace without cells and handles. -/
def empty : Workspace := ⟨.empty, []⟩

/-- The cell of a handle. -/
def cell? (w : Workspace) (name : String) : Option Nat := w.handles.lookup name

/-- The handles of a cell in order. -/
def handlesOf (w : Workspace) (i : Nat) : List String :=
  ((w.handles.filter (·.2 = i)).map Prod.fst).mergeSort (· ≤ ·)

/-- Lets a handle name a cell. -/
def bind (w : Workspace) (name : String) (i : Nat) : Workspace :=
  { w with handles := (name, i) :: w.handles.filter (·.1 ≠ name) }

/-- Forgets all handles but one. -/
def bindOnly (w : Workspace) (name : String) (i : Nat) : Workspace :=
  { w with handles := [(name, i)] }

/-- Drops the parent links to cells that are out of use. -/
def release (w : Workspace) : Workspace :=
  let used := w.graph.reachable (w.handles.map Prod.snd)
  { w with
    graph := ⟨w.graph.cells.map fun c => { c with parent := c.parent.filter used.contains }⟩ }

/-- Adds the tree of an expression. -/
def build (w : Workspace) (e : Expr Float) : Workspace × Option Nat :=
  let (graph, i) := w.graph.build e
  ({ w with graph }, i)

/-- Adds the tree of a text, of which the sizes are known. -/
def read (w : Workspace) (text : String) : Except Error (Workspace × Option Nat) := do
  let (w, i) := w.build (← readExpr text)
  let graph := i.toList.foldl (fun g i => (g.size i).1) w.graph
  return ({ w with graph }, i)

end Workspace

end Formula
