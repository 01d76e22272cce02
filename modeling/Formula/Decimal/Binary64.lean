/-
Formula/Decimal/Binary64.lean

Binary64 as numbers.  A finite value is `significand * 2 ^ exponent` with a
sign; `Magnitude.ofFloat` takes a float apart and `Binary64.nearest` puts the
float nearest to a positive fraction together.  Everything in between is exact
arithmetic on naturals, so the printers and the reader of decimal text never
round twice.
-/

namespace Formula.Decimal

/-- A power of two. -/
def pow2 (n : Nat) : Nat := Nat.pow 2 n

/-- A power of ten. -/
def pow10 (n : Nat) : Nat := Nat.pow 10 n

/-- A positive finite value `significand * 2 ^ exponent`.  The field
`isPowerStep` tells whether the next smaller float is only half as far away as
the next greater one. -/
structure Binary where
  significand : Nat
  exponent : Int
  isPowerStep : Bool

/-- What a float is, apart from its sign. -/
inductive Magnitude
  | nan
  | infinite
  | zero
  | finite (value : Binary)

/-- The sign bit and the magnitude of a float. -/
def Magnitude.ofFloat (v : Float) : Bool × Magnitude :=
  let bits := v.toBits.toNat
  let negative := pow2 63 ≤ bits
  let field : Nat := bits / pow2 52 % pow2 11
  let fraction : Nat := bits % pow2 52
  let magnitude :=
    if field = 2047 then
      if fraction = 0 then infinite else nan
    else if field = 0 then
      if fraction = 0 then zero else finite ⟨fraction, -1074, false⟩
    else finite ⟨pow2 52 + fraction, (field : Int) - 1075, fraction = 0 && field ≠ 1⟩
  (negative, magnitude)

/-! ### The nearest float to a fraction -/

/-- The numerator and the denominator of `num / den / 2 ^ e`. -/
def scaleDown (num den : Nat) (e : Int) : Nat × Nat :=
  if e < 0 then (num * pow2 e.natAbs, den) else (num, den * pow2 e.natAbs)

/-- The exponent with which a fraction has a significand of 53 bits, or the
least exponent there is if that is greater. -/
def exponentFor (num den : Nat) : Int :=
  let guess : Int := (num.log2 : Int) - den.log2 - 53
  let (n, d) := scaleDown num den guess
  max (-1074) (if n < d * pow2 53 then guess else guess + 1)

/-- The quotient rounded to the nearest integer, a tie to the even one. -/
def roundHalfEven (num den : Nat) : Nat :=
  let q := num / den
  let r := num % den
  if 2 * r < den || (2 * r = den && q % 2 = 0) then q else q + 1

/-- The bits of the float nearest to a fraction, a tie going to the even
significand and overflow to infinity.  A carry out of the significand moves
into the exponent field by itself. -/
def nearestBits (num den : Nat) : Nat :=
  if num = 0 then 0
  else
    let e := exponentFor num den
    let (n, d) := scaleDown num den e
    min ((e + 1074).toNat * pow2 52 + roundHalfEven n d) (2047 * pow2 52)

/-- The float with the given sign nearest to a fraction. -/
def nearest (negative : Bool) (num den : Nat) : Float :=
  Float.ofBits (UInt64.ofNat ((if negative then pow2 63 else 0) + nearestBits num den))

end Formula.Decimal
