/-
Formula/Arithmetic.lean

What a type of values has to offer for expressions over it to be evaluated and
simplified: the operations named by the operators, three constants, and two
comparisons.  Expressions, their evaluation and their simplification are
written against this interface, so the same definitions run on binary64 and
can be read in an exact field.

The instance for `Float` is IEEE binary64: no operation fails, and NaN and the
infinities are ordinary values.
-/
import Formula.Operator

namespace Formula

universe u

/-- The arithmetic of a type of values. -/
class Arithmetic (α : Type u) where
  zero : α
  one : α
  /-- The base of the natural logarithm. -/
  euler : α
  unary : UnaryOp → α → α
  binary : BinaryOp → α → α → α
  /-- Numerical equality: not reflexive where the values have a NaN. -/
  same : α → α → Bool
  /-- `within ε a b` says that `a` and `b` differ by less than `ε`. -/
  within : α → α → α → Bool

namespace Arithmetic

variable {α : Type u} [Arithmetic α]

/-- The constant minus one. -/
def negOne : α := unary .neg one

/-- Constants are alike if they are equal or closer than `ε`; the first
alternative is what makes an infinity like itself. -/
def alike (ε a b : α) : Bool := same a b || within ε a b

end Arithmetic

/-! ### Binary64 -/

namespace Binary64

/-- The greater value, or NaN if either is NaN. -/
def maximum (a b : Float) : Float := if a ≥ b || a.isNaN then a else b

/-- The lesser value, or NaN if either is NaN. -/
def minimum (a b : Float) : Float := if a ≤ b || a.isNaN then a else b

/-- Halves go up, toward positive infinity. -/
def roundHalfUp (v : Float) : Float := (v + 0.5).floor

def unary : UnaryOp → Float → Float
  | .neg => Float.neg
  | .cos => Float.cos
  | .sin => Float.sin
  | .tan => Float.tan
  | .ln => Float.log
  | .round => roundHalfUp
  | .ceil => Float.ceil
  | .floor => Float.floor

/-- A root is a power with the reciprocal degree, and a logarithm to a base is
a quotient of natural logarithms. -/
def binary : BinaryOp → Float → Float → Float
  | .add => Float.add
  | .sub => Float.sub
  | .mul => Float.mul
  | .div => Float.div
  | .pow => Float.pow
  | .root => fun degree radicand => Float.pow radicand (1.0 / degree)
  | .log => fun base argument => Float.log argument / Float.log base
  | .max => maximum
  | .min => minimum

end Binary64

instance : Arithmetic Float where
  zero := 0.0
  one := 1.0
  euler := 2.718281828459045
  unary := Binary64.unary
  binary := Binary64.binary
  same a b := a == b
  within ε a b := (a - b).abs < ε

end Formula
