/-
Formula/Decimal/Shortest.lean

The decimals that stand for a float.

`shortest v` is the decimal with the fewest digits among all that round to
`v`, and of those the one nearest to `v`.  On the grid of `n`-digit decimals
only the two neighbours of `v` can qualify, since the decimals that round to
`v` form an interval around it, so each grid is tried with these two and the
first grid with a hit decides.  Seventeen digits always suffice.

`rounded n v` is `v` rounded to `n` digits, a tie going to the even digit.
-/
import Formula.Decimal.Binary64

namespace Formula.Decimal

/-- The number `digits * 10 ^ exponent`. -/
structure Digits where
  digits : Nat
  exponent : Int

/-- The number of decimal digits; zero has one. -/
def digitCount (n : Nat) : Nat := (Nat.toDigits 10 n).length

/-- Drops trailing zeros, at most as many as `fuel`. -/
def Digits.trim : Nat → Digits → Digits
  | 0, d => d
  | fuel + 1, d =>
    if d.digits ≠ 0 && d.digits % 10 = 0 then trim fuel ⟨d.digits / 10, d.exponent + 1⟩ else d

/-- A value with the ends of the interval of numbers that round to it, all
three over one denominator; the ends belong to the interval if `closed`. -/
structure Interval where
  low : Nat
  value : Nat
  high : Nat
  denominator : Nat
  closed : Bool

/-- Measured in quarters of the last place, the value is `4 * significand`, the
upper end lies two quarters above it, and the lower end two below or, where
the floats below lie twice as dense, one. -/
def Binary.interval (v : Binary) : Interval :=
  let quarters := 4 * v.significand
  let below := if v.isPowerStep then 1 else 2
  let e := v.exponent - 2
  let scale := if e < 0 then 1 else pow2 e.natAbs
  { low := (quarters - below) * scale
    value := quarters * scale
    high := (quarters + 2) * scale
    denominator := if e < 0 then pow2 e.natAbs else 1
    closed := v.significand % 2 = 0 }

/-- The position of the decimal point: `10 ^ (p - 1) ≤ num / den < 10 ^ p`. -/
def pointPosition (num den : Nat) : Int :=
  if den ≤ num then digitCount (num / den)
  else
    let d := digitCount (den / num)
    if den ≤ num * pow10 (d - 1) then 2 - (d : Int) else 1 - (d : Int)

/-- The interval measured in units of `10 ^ e`. -/
def Interval.inUnits (i : Interval) (e : Int) : Interval :=
  if e < 0 then
    let k := pow10 e.natAbs
    { i with low := i.low * k, value := i.value * k, high := i.high * k }
  else { i with denominator := i.denominator * pow10 e.natAbs }

/-- Whether an integer lies in the interval. -/
def Interval.holds (i : Interval) (n : Nat) : Bool :=
  let x := n * i.denominator
  if i.closed then i.low ≤ x && x ≤ i.high else i.low < x && x < i.high

/-- The integer that stands for the value of the interval: the neighbour of
the value that lies in the interval, of two such the nearer, of two equally
near the even one. -/
def Interval.integer? (i : Interval) : Option Nat :=
  let below := i.value / i.denominator
  let twice := 2 * (i.value % i.denominator)
  match i.holds below, i.holds (below + 1) with
  | false, false => none
  | true, false => some below
  | false, true => some (below + 1)
  | true, true =>
    if twice < i.denominator || (twice = i.denominator && below % 2 = 0) then some below
    else some (below + 1)

/-- Tries `n`, `n + 1`, … digits, `fuel` grids in all. -/
def shortestFrom (i : Interval) (point : Int) : Nat → Nat → Digits
  | 0, _ => ⟨0, 0⟩
  | fuel + 1, n =>
    match (i.inUnits (point - n)).integer? with
    | some d => Digits.trim 18 ⟨d, point - n⟩
    | none => shortestFrom i point fuel (n + 1)

/-- The shortest decimal that rounds to the value, and of those the nearest. -/
def Binary.shortest (v : Binary) : Digits :=
  let i := v.interval
  shortestFrom i (pointPosition i.value i.denominator) 17 1

/-- The value rounded to `n` digits. -/
def Binary.rounded (v : Binary) (n : Nat) : Digits :=
  let i := v.interval
  let point := pointPosition i.value i.denominator
  let j := i.inUnits (point - n)
  Digits.trim (n + 1) ⟨roundHalfEven j.value j.denominator, point - n⟩

end Formula.Decimal
