/-
Formula/Decimal/Reading.lean

Reading a float from text.  The text may have white space around it and single
underscores between digits; the rest is a sign, then digits with an optional
point and an optional exponent, or one of the words for infinity and NaN in
any case.  Decimal digits of every script count.  The value is rounded once,
to the nearest float.
-/
import Formula.Decimal.Binary64
import Formula.Text.Blank
import Formula.Text.Digit

namespace Formula.Decimal

/-- The value of a digit between `0` and `9`. -/
def asciiDigit? (c : Char) : Option Nat := if c.isDigit then some (c.toNat - '0'.toNat) else none

/-- Decimal digits of other scripts become those of ASCII, white space becomes
a space, and what is neither becomes a character that no number holds. -/
def plainChar (c : Char) : Char :=
  if c.toNat < 128 then c
  else if Text.isBlank c then ' '
  else match Text.decimalValue? c with
    | some d => Char.ofNat ('0'.toNat + d)
    | none => '?'

/-- The white space that may surround a number, after the other white space has
become spaces. -/
def isPadding (c : Char) : Bool := c = ' ' || (9 ≤ c.toNat && c.toNat ≤ 13)

/-- The characters without the padding at both ends. -/
def trimPadding (cs : List Char) : List Char :=
  ((cs.dropWhile isPadding).reverse.dropWhile isPadding).reverse

/-- Removes the underscores, each of which has to stand between two digits. -/
def dropUnderscores (previous : Char) : List Char → Option (List Char)
  | [] => if previous = '_' then none else some []
  | c :: rest =>
    if c = '_' then
      if previous.isDigit then dropUnderscores c rest else none
    else if previous = '_' && !c.isDigit then none
    else (c :: ·) <$> dropUnderscores c rest

/-- The number that a row of digits stands for. -/
def digitsValue (cs : List Char) : Nat :=
  cs.foldl (fun n c => 10 * n + (c.toNat - '0'.toNat)) 0

/-- Splits a sign off; the flag is true for a minus. -/
def takeSign : List Char → Bool × List Char
  | '-' :: rest => (true, rest)
  | '+' :: rest => (false, rest)
  | cs => (false, cs)

/-- The exponent part, which has to fill the rest of the text. -/
def readExponent? : List Char → Option Int
  | [] => some 0
  | c :: rest =>
    if c = 'e' || c = 'E' then
      let (negative, ds) := takeSign rest
      if ds.isEmpty || !ds.all Char.isDigit then none
      else some (if negative then -(digitsValue ds : Int) else digitsValue ds)
    else none

/-- An unsigned decimal number as digits and a decimal exponent. -/
def readDecimal? (cs : List Char) : Option (Nat × Int) :=
  let whole := cs.takeWhile Char.isDigit
  let rest := cs.dropWhile Char.isDigit
  let (fraction, tail) := match rest with
    | '.' :: more => (more.takeWhile Char.isDigit, more.dropWhile Char.isDigit)
    | _ => ([], rest)
  if whole.isEmpty && fraction.isEmpty then none
  else (readExponent? tail).map fun e =>
    (digitsValue (whole ++ fraction), e - fraction.length)

/-- The float nearest to `digits * 10 ^ exponent`.  Numbers beyond the range of
the format are recognized by their size, before any power is computed. -/
def ofDecimal (negative : Bool) (digits : Nat) (exponent : Int) : Float :=
  let size := (Nat.toDigits 10 digits).length + exponent
  if digits = 0 || size < -400 then nearest negative 0 1
  else if size > 400 then nearest negative (pow10 400) 1
  else if exponent < 0 then nearest negative digits (pow10 exponent.natAbs)
  else nearest negative (digits * pow10 exponent.natAbs) 1

/-- The float that a text stands for. -/
def ofText? (text : String) : Option Float := do
  let trimmed := trimPadding (text.toList.map plainChar)
  let (negative, body) := takeSign (← dropUnderscores ' ' trimmed)
  let word := String.ofList (body.map Char.toLower)
  if word = "inf" || word = "infinity" then
    return if negative then -1.0 / 0.0 else 1.0 / 0.0
  else if word = "nan" then
    return 0.0 / 0.0
  else
    let (digits, exponent) ← readDecimal? body
    return ofDecimal negative digits exponent

end Formula.Decimal
