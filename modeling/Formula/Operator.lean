/-
Formula/Operator.lean

The operators of the expression language: eight unary ones and nine binary
ones, nothing else.  For each operator this file fixes how it is written, what
it is called in messages, and how tightly it binds.

A precedence class is shared by all operators that are resolved together.
Every unary operator is in the tightest class, so the five operator classes
split into one unary class and four binary ones.
-/

namespace Formula

/-- The operators with one operand. -/
inductive UnaryOp
  | neg | cos | sin | tan | ln | round | ceil | floor
  deriving DecidableEq

/-- The operators with two operands; `root` takes the degree on its left and
`log` takes the base on its left. -/
inductive BinaryOp
  | add | sub | mul | div | pow | root | log | max | min
  deriving DecidableEq

/-- The binding classes, loosest first; leaves sit below every operator. -/
inductive Precedence
  | leaf | extremum | additive | multiplicative | power | unary
  deriving DecidableEq

/-- The rank of a class, higher for tighter binding. -/
def Precedence.rank : Precedence → Nat
  | leaf => 0
  | extremum => 1
  | additive => 2
  | multiplicative => 3
  | power => 4
  | unary => 5

/-! ### Unary operators -/

namespace UnaryOp

/-- All unary operators, each once. -/
def all : List UnaryOp := [neg, cos, sin, tan, ln, round, ceil, floor]

/-- The word an operator goes by; a negation is shown as `-` in expressions
and goes by its word everywhere else. -/
def symbol : UnaryOp → String
  | neg => "neg"
  | cos => "cos"
  | sin => "sin"
  | tan => "tan"
  | ln => "ln"
  | round => "round"
  | ceil => "ceil"
  | floor => "floor"

/-- The operator with the given word. -/
def ofSymbol? (s : String) : Option UnaryOp := all.find? (·.symbol == s)

theorem ofSymbol?_symbol (op : UnaryOp) : ofSymbol? op.symbol = some op := by
  cases op <;> rfl

/-- The name of the operation in messages. -/
def title : UnaryOp → String
  | neg => "Negation"
  | cos => "Cosine"
  | sin => "Sine"
  | tan => "Tangent"
  | ln => "NaturalLog"
  | round => "Round"
  | ceil => "Ceiling"
  | floor => "Floor"

/-- Unary operators bind tightest, all alike. -/
def precedence (_ : UnaryOp) : Precedence := .unary

end UnaryOp

/-! ### Binary operators -/

namespace BinaryOp

/-- All binary operators, each once. -/
def all : List BinaryOp := [add, sub, mul, div, pow, root, log, max, min]

/-- How an operator is written between its operands. -/
def symbol : BinaryOp → String
  | add => "+"
  | sub => "-"
  | mul => "*"
  | div => "/"
  | pow => "^"
  | root => "r"
  | log => "log"
  | max => "max"
  | min => "min"

/-- The operator with the given symbol. -/
def ofSymbol? (s : String) : Option BinaryOp := all.find? (·.symbol == s)

theorem ofSymbol?_symbol (op : BinaryOp) : ofSymbol? op.symbol = some op := by
  cases op <;> rfl

/-- The name of the operation in messages. -/
def title : BinaryOp → String
  | add => "Addition"
  | sub => "Subtraction"
  | mul => "Multiplication"
  | div => "Division"
  | pow => "Exponentiation"
  | root => "Root"
  | log => "Logarithm"
  | max => "Max"
  | min => "Min"

/-- The class in which an operator is resolved. -/
def precedence : BinaryOp → Precedence
  | max | min => .extremum
  | add | sub => .additive
  | mul | div => .multiplicative
  | pow | root | log => .power

end BinaryOp

/-! ### Operators of either kind -/

/-- An operator with one or two operands. -/
inductive Operator
  | unary (op : UnaryOp)
  | binary (op : BinaryOp)
  deriving DecidableEq

/-- The name of the operation in messages. -/
def Operator.title : Operator → String
  | unary op => op.title
  | binary op => op.title

end Formula
