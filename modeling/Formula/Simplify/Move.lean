/-
Formula/Simplify/Move.lean

What a rule has decided to do to a tree, as data.  A move names all places by
their paths in the tree as it is before the move.  This file also carries moves
out on trees; on graphs they are rows of edits.
-/
import Formula.Simplify.Chain
import Formula.Simplify.Identity

namespace Formula

universe u

/-- What a rule does to a tree. -/
inductive Move (α : Type u)
  /-- A new tree is made of parts of the old one. -/
  | rebuild (sketch : Sketch α)
  /-- A negation goes, and a factor of its operand takes up the sign. -/
  | pushSign (factor : Path) (change : SignChange α)
  /-- A constant of a chain gets another value, and another constant goes. -/
  | collapse (kind : ChainKind) (kept : Path) (value : α) (removed : Path)
  /-- The argument of a logarithm is multiplied by that of another one, or
  divided, and the other one goes.  The slot is where the one that stays has its
  argument. -/
  | joinLogarithms (op : BinaryOp) (kept : Path) (slot : Slot) (argument removed : Path)
  /-- An exponent is added to that of a power, or subtracted, and the factor it
  comes from goes.  If what stays is a root it becomes a power first.  The
  exponent is made of parts of the factor that goes. -/
  | joinPowers (op : BinaryOp) (kept : Path) (fromRoot : Bool) (exponent : Sketch α)
      (removed : Path)

namespace Node

variable {α : Type u}

/-- Makes an operator of the part at a path and of another tree. -/
def graft (n : Node α) (op : BinaryOp) (p : Path) (m : Node α) : Node α :=
  n.put p (newBinary op (n.part p) m)

variable [Arithmetic α]

/-- Turns the root at a path into a power, if it is said to be a root. -/
def normalized (n : Node α) (fromRoot : Bool) (p : Path) : Node α :=
  if fromRoot then n.rebuildAt p Expr.rootAsPower else n

/-- Carries out a move. -/
def perform (n : Node α) : Move α → Node α
  | .rebuild sketch => n.build sketch
  | .pushSign factor change => (n.rebuildAt factor change.sketch).part [.operand]
  | .collapse kind kept v removed =>
    match n.expr.splice? kind removed with
    | some s => (n.put kept (newConst v)).splice s
    | none => n
  | .joinLogarithms op kept slot argument removed =>
    match n.expr.splice? .additive removed with
    | some s => (n.splice s).graft op (s.shift kept ++ [slot]) (n.part argument)
    | none => n
  | .joinPowers op kept fromRoot exponent removed =>
    match n.expr.splice? .multiplicative removed with
    | some s =>
      ((n.normalized fromRoot kept).splice s).graft op (s.shift kept ++ [.right])
        ((n.part removed).build exponent)
    | none => n

end Node

end Formula
