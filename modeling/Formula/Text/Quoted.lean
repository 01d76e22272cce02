/-
Formula/Text/Quoted.lean

Text in quotes, as messages show it.  Single quotes are used unless the text
holds a single quote and no double quote.  The quote in use and the backslash
get a backslash, line feed, carriage return and tabulator have their letters,
and every other character that is not printable is written as its code point
in the shortest of three hexadecimal forms.
-/
import Formula.Text.Printable

namespace Formula.Text

/-- The number in lower case hexadecimal, filled with zeros to the width. -/
def hexPadded (width n : Nat) : List Char :=
  let digits := Nat.toDigits 16 n
  List.replicate (width - digits.length) '0' ++ digits

/-- How one character is written between the given quotes. -/
def quotedChar (quote c : Char) : List Char :=
  if c = quote || c = '\\' then ['\\', c]
  else if c = '\n' then ['\\', 'n']
  else if c = '\r' then ['\\', 'r']
  else if c = '\t' then ['\\', 't']
  else if isPrintable c then [c]
  else if c.toNat < 0x100 then ['\\', 'x'] ++ hexPadded 2 c.toNat
  else if c.toNat < 0x10000 then ['\\', 'u'] ++ hexPadded 4 c.toNat
  else ['\\', 'U'] ++ hexPadded 8 c.toNat

/-- The quote to use for a text. -/
def quoteFor (cs : List Char) : Char :=
  if cs.contains '\'' && !cs.contains '"' then '"' else '\''

/-- A text in quotes. -/
def quoted (s : String) : String :=
  let cs := s.toList
  let quote := quoteFor cs
  String.ofList (quote :: cs.flatMap (quotedChar quote) ++ [quote])

/-- Items between brackets, separated by a comma and a space. -/
def bracketed (items : List String) : String := "[" ++ ", ".intercalate items ++ "]"

/-- A list of names, each in quotes. -/
def quotedList (names : List String) : String := bracketed (names.map quoted)

end Formula.Text
