/-
Formula/Expr/Similarity.lean

Structural equality with a tolerance on constants: the same shape, operators,
names and empty slots, and constants that are equal or differ by less than the
tolerance.  The relation is symmetric and not transitive, and an expression
with a NaN constant is not even equal to itself.
-/
import Formula.Expr.Basic

namespace Formula

universe u

namespace Expr

variable {α : Type u} [Arithmetic α]

/-- Equality up to `ε` on constants. -/
def equals (ε : α) : Expr α → Expr α → Bool
  | hole, hole => true
  | const a, const b => Arithmetic.alike ε b a
  | var x, var y => y == x
  | unary op x, unary op' y => op' == op && x.equals ε y
  | binary op l r, binary op' l' r' => op' == op && l.equals ε l' && r.equals ε r'
  | _, _ => false

end Expr

/-- The tolerance used where none is given. -/
def defaultEpsilon : Float := 0.0001

end Formula
