/-
Formula/Text/Blank.lean

White space: the characters of Unicode 14 that separate words, among them the
control characters from tabulator to carriage return and the four information
separators.
-/
import Formula.Text.Ranges

namespace Formula.Text

/-- The white space of Unicode 14. -/
def blankRanges : CharRanges :=
  [(0x9, 0xD), (0x1C, 0x20), (0x85, 0x85), (0xA0, 0xA0), (0x1680, 0x1680),
   (0x2000, 0x200A), (0x2028, 0x2029), (0x202F, 0x202F), (0x205F, 0x205F),
   (0x3000, 0x3000)]

/-- Whether a character is white space. -/
def isBlank (c : Char) : Bool := blankRanges.contains c

/-- The characters without the white space at both ends. -/
def trimBlanks (cs : List Char) : List Char :=
  ((cs.dropWhile isBlank).reverse.dropWhile isBlank).reverse

end Formula.Text
