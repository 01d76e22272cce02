/-
Formula/Column.lean

Columns of values, and what an operator does to whole columns.  A column is
worked through once for each arithmetic operation: a root, say, takes the
reciprocals of all degrees first, and then all powers.  Operators on columns are
picked by their symbol.
-/
import Formula.Arithmetic

namespace Formula

/-- No operator on columns has the given symbol. -/
inductive ColumnError
  | unknownUnary
  | unknownBinary
  deriving DecidableEq

def ColumnError.message : ColumnError → String
  | unknownUnary => "unknown unary operator"
  | unknownBinary => "unknown binary operator"

namespace Column

/-- The column of one value in every row. -/
def ofConst (count : Nat) (v : Float) : List Float := List.replicate count v

/-- The column at a position of a table of rows. -/
def ofRows (rows : List (List Float)) (position : Nat) : List Float :=
  rows.map fun row => row.getD position 0.0

/-! ### The operators -/

/-- A unary operator on a column. -/
def unary (op : UnaryOp) (xs : List Float) : List Float :=
  match op with
  | .neg => xs.map Float.neg
  | .cos => xs.map Float.cos
  | .sin => xs.map Float.sin
  | .tan => xs.map Float.tan
  | .ln => xs.map Float.log
  | .round => (xs.map (· + 0.5)).map Float.floor
  | .ceil => xs.map Float.ceil
  | .floor => xs.map Float.floor

/-- A binary operator on two columns; the degrees of a root and the bases of a
logarithm are on the left. -/
def binary (op : BinaryOp) (xs ys : List Float) : List Float :=
  match op with
  | .add => List.zipWith Float.add xs ys
  | .sub => List.zipWith Float.sub xs ys
  | .mul => List.zipWith Float.mul xs ys
  | .div => List.zipWith Float.div xs ys
  | .pow => List.zipWith Float.pow xs ys
  | .root => List.zipWith Float.pow ys (xs.map (1.0 / ·))
  | .log => List.zipWith Float.div (ys.map Float.log) (xs.map Float.log)
  | .max => List.zipWith Binary64.maximum xs ys
  | .min => List.zipWith Binary64.minimum xs ys

/-! ### The operator of a symbol -/

/-- The operator on one column that has the given symbol. -/
def unaryOperator (symbol : String) : Except ColumnError UnaryOp :=
  match UnaryOp.ofSymbol? symbol with
  | some op => .ok op
  | none => .error .unknownUnary

/-- The operator on two columns that has the given symbol. -/
def binaryOperator (symbol : String) : Except ColumnError BinaryOp :=
  match BinaryOp.ofSymbol? symbol with
  | some op => .ok op
  | none => .error .unknownBinary

/-- The unary operator of a symbol on a column. -/
def applyUnary (symbol : String) (xs : List Float) : Except ColumnError (List Float) := do
  return unary (← unaryOperator symbol) xs

/-- The binary operator of a symbol on two columns. -/
def applyBinary (symbol : String) (xs ys : List Float) : Except ColumnError (List Float) := do
  return binary (← binaryOperator symbol) xs ys

end Column

end Formula
