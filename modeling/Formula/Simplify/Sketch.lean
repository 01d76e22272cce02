/-
Formula/Simplify/Sketch.lean

Sketches.  A sketch tells how a new tree is made of new nodes and of parts of
an old one, which are named by their paths.  Rules are written with sketches,
so that one and the same rule can be carried out on a tree and on a graph.
-/
import Formula.Simplify.Node

namespace Formula

universe u

/-- New nodes over parts of an old tree. -/
inductive Sketch (α : Type u)
  | part (path : Path)
  | const (value : α)
  | unary (op : UnaryOp) (operand : Sketch α)
  | binary (op : BinaryOp) (left right : Sketch α)

namespace Sketch

variable {α : Type u}

/-- The parts that are used, from left to right. -/
def parts : Sketch α → List Path
  | part p => [p]
  | const _ => []
  | unary _ x => x.parts
  | binary _ l r => l.parts ++ r.parts

end Sketch

namespace Node

variable {α : Type u}

/-- The part at the end of a path.  A path that leads nowhere gives the whole
tree; no rule uses one. -/
def part (n : Node α) (p : Path) : Node α := (n.at? p).getD n

/-- The tree that a sketch makes of parts of a tree. -/
def build (n : Node α) : Sketch α → Node α
  | .part p => n.part p
  | .const v => newConst v
  | .unary op x => newUnary op (n.build x)
  | .binary op l r => newBinary op (n.build l) (n.build r)

/-- Rebuilds the part at the end of a path where it stands. -/
def rebuildAt (n : Node α) (p : Path) (sk : Sketch α) : Node α := n.put p ((n.part p).build sk)

end Node

end Formula
