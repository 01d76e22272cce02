/-
Formula/Simplify/Settings.lean

The settings of an optimizer.
-/
import Formula.Expr.Similarity

namespace Formula

universe u

/-- The settings of an optimizer. -/
structure Settings (α : Type u) where
  /-- Operands are taken to be finite, so that `x * 0`, `x - x` and `x / x` have
  their usual values. -/
  rational : Bool
  /-- The tolerance with which subtrees and constants are compared. -/
  epsilon : α
  /-- Whether the result is checked to be well formed. -/
  validate : Bool

/-- The settings used where none are given. -/
def Settings.default : Settings Float := ⟨true, defaultEpsilon, false⟩

end Formula
