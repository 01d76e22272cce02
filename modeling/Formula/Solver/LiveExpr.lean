/-
Formula/Solver/LiveExpr.lean

An expression in use: a tree that is evaluated, optimized and edited in place.
Its text is remembered from the first time it is shown until the expression is
optimized or told to forget it; an edit alone does not refresh it.
-/
import Formula.Expr.Traversal
import Formula.Simplify.Optimize
import Formula.Solver.Report

namespace Formula

/-- An expression in use. -/
structure LiveExpr where
  root : Node Float
  shown : Option String

/-- What is known of an expression at a glance. -/
structure Summary where
  text : String
  size : Nat
  depth : Nat
  vars : List String
  optimized : Bool

namespace LiveExpr

/-- An expression that has not been shown. -/
def ofNode (root : Node Float) : LiveExpr := ⟨root, none⟩

/-- A plain expression without empty slots. -/
def ofExpr (e : Expr Float) : Except EvalError LiveExpr :=
  match Node.ofExpr? e with
  | some root => .ok (ofNode root)
  | none => .error .emptySlot

/-- The plain expression. -/
def expr (e : LiveExpr) : Expr Float := e.root.expr

/-- The text that is shown. -/
def text (e : LiveExpr) : String := e.shown.getD e.expr.text

/-- Shows the text, which is remembered from then on. -/
def display (e : LiveExpr) : LiveExpr := { e with shown := some e.text }

/-- Forgets the text. -/
def forget (e : LiveExpr) : LiveExpr := { e with shown := none }

/-- Another expression of the same form, with nothing optimized or shown. -/
def copy (e : LiveExpr) : LiveExpr := ofNode e.root.clean

def summary (e : LiveExpr) : Summary where
  text := e.text
  size := e.root.size
  depth := e.expr.depth
  vars := e.expr.sortedVars
  optimized := e.root.tag.settled

/-- Optimizes the expression; the flag tells whether the tree has changed. -/
def optimize (settings : Settings Float) (env : Environment Float) (e : LiveExpr) :
    Traced (Event Float) (Bool × LiveExpr) := do
  let root ← e.root.optimizeTree settings env
  return (!e.expr.equals 0.0 root.expr, ofNode root)

/-- Puts a subtree into the slot at the end of a path, if there is such a slot. -/
def edit (path : Path) (subtree : Node Float) (e : LiveExpr) : Option LiveExpr :=
  if (e.root.at? path).isSome then some { e with root := e.root.put path subtree } else none

/-- The values of the expression for the rows of a grid, whose columns are in
the order of the names. -/
def evalGrid (names : List String) (g : Grid) (e : LiveExpr) : Except Error (List Float) := do
  let rows ← (g.rows names.length).mapError .samples
  (e.expr.evalRows names rows).mapError .eval

/-- The values of the expression for the rows of a table. -/
def evalRows (names : List String) (samples : Samples) (e : LiveExpr) :
    Except Error (List Float) := do
  e.evalGrid names (← samples.grid.mapError .samples)

end LiveExpr

end Formula
