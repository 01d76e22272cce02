/-
Formula/Expr/Equivalence.lean

Numerical comparison of two expressions on sample values.  The samples spread
over a half-open interval; which of its values are drawn does not matter, so
they come from a short recurrence on 64-bit words.  Two values agree if they
are equal, both NaN, or both finite and close.
-/
import Formula.Expr.Evaluation

namespace Formula

/-- How samples are drawn and compared. -/
structure Comparison where
  low : Float := 0.5
  high : Float := 3.0
  count : Nat := 16
  seed : UInt64 := 0
  /-- The tolerance relative to the second value. -/
  relative : Float := 1e-6
  absolute : Float := 1e-9

namespace Comparison

/-- The next word of the recurrence. -/
def nextWord (w : UInt64) : UInt64 := w * 6364136223846793005 + 1442695040888963407

/-- A number from zero up to one, made of the leading bits of a word. -/
def fraction (w : UInt64) : Float := (w >>> 11).toFloat / 9007199254740992.0

/-- A row of samples, and the word behind its last one. -/
def row (c : Comparison) : Nat → UInt64 → List Float × UInt64
  | 0, w => ([], w)
  | columns + 1, w =>
    let w := nextWord w
    let (rest, w') := row c columns w
    ((c.low + (c.high - c.low) * fraction w) :: rest, w')

/-- Rows of samples. -/
def rows (c : Comparison) (columns : Nat) : Nat → UInt64 → List (List Float)
  | 0, _ => []
  | count + 1, w =>
    let (first, w') := c.row columns w
    first :: rows c columns count w'

/-- Whether two values agree. -/
def agree (c : Comparison) (a b : Float) : Bool :=
  a == b || (a.isNaN && b.isNaN)
    || (a.isFinite && b.isFinite && (a - b).abs ≤ c.absolute + c.relative * b.abs)

end Comparison

/-- Whether two expressions agree on all samples.  Without variables there is
one row without values. -/
def Expr.equivalent (c : Comparison) (names : List String) (a b : Expr Float) :
    Except EvalError Bool := do
  let rows :=
    if names.isEmpty then [[]]
    else c.rows names.length c.count (Comparison.nextWord c.seed)
  let as ← a.evalRows names rows
  let bs ← b.evalRows names rows
  return (as.zip bs).all fun (x, y) => c.agree x y

end Formula
