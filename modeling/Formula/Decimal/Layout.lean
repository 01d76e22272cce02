/-
Formula/Decimal/Layout.lean

How digits become text.  A `Layout` says for which decimal exponents a number
is written positionally and whether a positional integer keeps a point; all
other numbers are written with an exponent of at least two digits.

Three texts of a float follow: `fullText` is the one that reads back as the
same float, `constantText` writes integers below 10 ^ 15 without a point, and
`sixDigits` rounds to six digits.
-/
import Formula.Decimal.Shortest

namespace Formula.Decimal

/-- The decisions of a float format. -/
structure Layout where
  /-- The least decimal exponent written positionally. -/
  lowest : Int
  /-- The greatest decimal exponent written positionally. -/
  highest : Int
  /-- Whether a positional integer ends in a point and a zero. -/
  keepsPoint : Bool

/-- The text of a natural number as characters. -/
def digitChars (n : Nat) : List Char := Nat.toDigits 10 n

/-- The text of an exponent: always a sign, and two digits at least. -/
def exponentChars (e : Int) : List Char :=
  let ds := digitChars e.natAbs
  (if e < 0 then '-' else '+') :: (if ds.length < 2 then '0' :: ds else ds)

/-- The digits with the point after the first `point` of them; zeros fill the
places between the digits and the point. -/
def Layout.positional (layout : Layout) (ds : List Char) (point : Int) : List Char :=
  if point ≤ 0 then '0' :: '.' :: List.replicate point.natAbs '0' ++ ds
  else
    let p := point.natAbs
    if p < ds.length then ds.take p ++ '.' :: ds.drop p
    else
      ds ++ List.replicate (p - ds.length) '0' ++ if layout.keepsPoint then ['.', '0'] else []

/-- The digits with a point after the first of them and a decimal exponent. -/
def scientific (ds : List Char) (exponent : Int) : List Char :=
  let mantissa := match ds with
    | d :: next :: rest => d :: '.' :: next :: rest
    | short => short
  mantissa ++ 'e' :: exponentChars exponent

/-- The text of a number without its sign. -/
def Layout.chars (layout : Layout) (d : Digits) : List Char :=
  let ds := digitChars d.digits
  let point := ds.length + d.exponent
  if layout.lowest < point && point ≤ layout.highest + 1 then layout.positional ds point
  else scientific ds (point - 1)

/-- The text of a float, given the digits of its finite magnitudes; a NaN has
no sign. -/
def Layout.text (layout : Layout) (pick : Binary → Digits) (v : Float) : String :=
  let (negative, magnitude) := Magnitude.ofFloat v
  let sign := if negative then ['-'] else []
  match magnitude with
  | .nan => "nan"
  | .infinite => String.ofList (sign ++ ['i', 'n', 'f'])
  | .zero => String.ofList (sign ++ '0' :: if layout.keepsPoint then ['.', '0'] else [])
  | .finite b => String.ofList (sign ++ layout.chars (pick b))

/-- Positional for decimal exponents from -4 to 15, and always with a point. -/
def fullLayout : Layout := ⟨-4, 15, true⟩

/-- The shortest text that reads back as the same float. -/
def fullText (v : Float) : String := fullLayout.text Binary.shortest v

/-- Positional for decimal exponents from -4 to 5, and without an idle point. -/
def sixDigitLayout : Layout := ⟨-4, 5, false⟩

/-- A float rounded to six digits. -/
def sixDigits (v : Float) : String := sixDigitLayout.text (·.rounded 6) v

/-- The integer that a finite magnitude is, if it is one. -/
def Binary.natural? (b : Binary) : Option Nat :=
  if b.exponent < 0 then
    let d := pow2 b.exponent.natAbs
    if b.significand % d = 0 then some (b.significand / d) else none
  else some (b.significand * pow2 b.exponent.natAbs)

/-- The text of a constant: integers below 10 ^ 15 are written as integers, so
that zero loses its sign, and all other values in full. -/
def constantText (v : Float) : String :=
  let (negative, magnitude) := Magnitude.ofFloat v
  match magnitude with
  | .zero => "0"
  | .finite b =>
    match b.natural? with
    | some n =>
      if n < pow10 15 then String.ofList ((if negative then ['-'] else []) ++ digitChars n)
      else fullText v
    | none => fullText v
  | _ => fullText v

end Formula.Decimal
