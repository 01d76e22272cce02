/-
Formula/Numeral.lean

Values that can be written in an expression and read from one.  For `Float`
the written form of a constant is `constantText`, and numbers are read by
`ofText?`.
-/
import Formula.Decimal.Layout
import Formula.Decimal.Reading

namespace Formula

universe u

/-- Values with a written form. -/
class Numeral (α : Type u) where
  text : α → String
  ofText? : String → Option α

instance : Numeral Float where
  text := Decimal.constantText
  ofText? := Decimal.ofText?

end Formula
