/-
Formula/Graph/View.lean

The tree below a cell, read out of a graph, and the way back: adding a tree to
a graph.  A cell that can be reached in two ways is read twice.

The read-out goes at most as deep as there are cells, which without cycles is
deep enough.
-/
import Formula.Expr.Printing
import Formula.Graph.Basic

namespace Formula

universe u

namespace Graph

variable {α : Type u}

/-! ### Reading out -/

/-- The cell at the end of a path of slots. -/
def follow (g : Graph α) (i : Nat) : Path → Option Nat
  | [] => some i
  | s :: p => (g.slot? i s).bind (g.follow · p)

/-- The expression below a cell down to a depth. -/
def exprWithin (g : Graph α) : Nat → Option Nat → Expr α
  | fuel + 1, some i =>
    match g.content? i with
    | some (.const v) => .const v
    | some (.var x) => .var x
    | some (.unary op x) => .unary op (exprWithin g fuel x)
    | some (.binary op l r) => .binary op (exprWithin g fuel l) (exprWithin g fuel r)
    | none => .hole
  | _, _ => .hole

/-- The expression below a cell. -/
def expr (g : Graph α) (i : Nat) : Expr α := g.exprWithin g.cellCount (some i)

/-! ### Adding -/

/-- Adds a cell for each node of an expression, operands first. -/
def build (g : Graph α) : Expr α → Graph α × Option Nat
  | .hole => (g, none)
  | .const v => let (g, i) := g.add (.const v); (g, some i)
  | .var x => let (g, i) := g.add (.var x); (g, some i)
  | .unary op x =>
    let (g, x) := g.build x
    let (g, i) := g.newUnary op x
    (g, some i)
  | .binary op l r =>
    let (g, l) := g.build l
    let (g, r) := g.build r
    let (g, i) := g.newBinary op l r
    (g, some i)

/-- Adds a copy of the tree below a cell, with nothing remembered. -/
def copy (g : Graph α) (i : Nat) : Graph α × Option Nat := g.build (g.expr i)

/-! ### Sizes -/

/-- Adds up what a count gives for some cells; it may change the graph. -/
def sumOver (count : Graph α → Nat → Graph α × Option Nat) :
    List Nat → Graph α → Graph α × Option Nat
  | [], g => (g, some 0)
  | i :: rest, g =>
    let (g, n) := count g i
    let (g, total) := sumOver count rest g
    (g, do return (← n) + (← total))

/-- The size of the tree below a cell, if that tree is no deeper than a depth.
A remembered size is believed; a size that is found is remembered. -/
def sizeWithin : Nat → Graph α → Nat → Graph α × Option Nat
  | 0, g, _ => (g, none)
  | fuel + 1, g, i =>
    match g.knownSize? i with
    | some n => (g, some n)
    | none =>
      match sumOver (sizeWithin fuel) (g.operands i) g with
      | (g, some n) => (g.update i ({ · with knownSize := some (1 + n) }), some (1 + n))
      | (g, none) => (g, none)

/-- The size of the tree below a cell.  Only below a cycle there is none. -/
def size (g : Graph α) (i : Nat) : Graph α × Nat :=
  let (g, n) := sizeWithin g.cellCount g i
  (g, n.getD 0)

/-- How messages show the node in a cell. -/
def description [Numeral α] (g : Graph α) : Option Nat → String
  | some i => (g.expr i).description
  | none => "None"

end Graph

end Formula
