/-
Formula/Token/Basic.lean

The words of an expression.  Numbers and identifiers carry their text; every
other token is one fixed symbol or keyword.  What a token does in an
expression is its `Role`: the tokens of all binary operators but the minus
have one role, and so have the words of all functions.
-/
import Formula.Operator

namespace Formula

/-- A token of an expression. -/
inductive Token
  | number (text : String)
  | identifier (text : String)
  | plus | minus | times | divide | power
  | openParen | closeParen
  | root | cos | sin | tan | log | ln | max | min | round | ceil | floor
  deriving DecidableEq

namespace Token

/-- The text of a token as it stands in an expression. -/
def text : Token → String
  | number s | identifier s => s
  | plus => "+"
  | minus => "-"
  | times => "*"
  | divide => "/"
  | power => "^"
  | openParen => "("
  | closeParen => ")"
  | root => "r"
  | cos => "cos"
  | sin => "sin"
  | tan => "tan"
  | log => "log"
  | ln => "ln"
  | max => "max"
  | min => "min"
  | round => "round"
  | ceil => "ceil"
  | floor => "floor"

/-- The tokens of one character. -/
def symbols : List (Char × Token) :=
  [('+', plus), ('-', minus), ('*', times), ('/', divide), ('^', power),
   ('(', openParen), (')', closeParen)]

/-- The tokens whose words no identifier can have.  Case matters. -/
def keywords : List Token := [root, cos, sin, tan, log, ln, max, min, round, ceil, floor]

/-- The token of one character, if the character is one. -/
def ofSymbol? (c : Char) : Option Token := symbols.lookup c

/-- A word is a keyword if it equals one as a whole, and else an identifier. -/
def ofWord (word : String) : Token := (keywords.find? (·.text == word)).getD (identifier word)

/-- What a token does in an expression. -/
inductive Role
  | number (text : String)
  | name (text : String)
  | opening
  | closing
  /-- Subtraction after a value, negation elsewhere. -/
  | minus
  | binary (op : BinaryOp)
  | function (op : UnaryOp)

/-- The role of a token. -/
def role : Token → Role
  | number s => .number s
  | identifier s => .name s
  | openParen => .opening
  | closeParen => .closing
  | minus => .minus
  | plus => .binary .add
  | times => .binary .mul
  | divide => .binary .div
  | power => .binary .pow
  | root => .binary .root
  | log => .binary .log
  | max => .binary .max
  | min => .binary .min
  | cos => .function .cos
  | sin => .function .sin
  | tan => .function .tan
  | ln => .function .ln
  | round => .function .round
  | ceil => .function .ceil
  | floor => .function .floor

end Token

end Formula
