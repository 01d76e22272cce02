/-
Formula/Expr/Path.lean

Parts of an expression by their paths.  A path that leads to no part is not an
error; there is just nothing at its end.
-/
import Formula.Expr.Basic
import Formula.Slot

namespace Formula

universe u

namespace Expr

variable {α : Type u}

/-- The operand in a slot. -/
def operand? : Expr α → Slot → Option (Expr α)
  | unary _ x, .operand => some x
  | binary _ l _, .left => some l
  | binary _ _ r, .right => some r
  | _, _ => none

/-- The part at the end of a path. -/
def at? (e : Expr α) : Path → Option (Expr α)
  | [] => some e
  | s :: p => (e.operand? s).bind (·.at? p)

@[simp] theorem at?_nil (e : Expr α) : e.at? [] = some e := rfl

theorem at?_cons (e : Expr α) (s : Slot) (p : Path) :
    e.at? (s :: p) = (e.operand? s).bind (·.at? p) := rfl

theorem at?_append (e : Expr α) (p q : Path) : e.at? (p ++ q) = (e.at? p).bind (·.at? q) := by
  induction p generalizing e with
  | nil => rfl
  | cons s p ih => cases h : e.operand? s <;> simp [at?_cons, h, ih]

end Expr

end Formula
