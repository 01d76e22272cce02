/-
Formula/Error.lean

Everything that can go wrong between a text and a value, by the part of the
library that finds it.
-/
import Formula.Bindings
import Formula.Config
import Formula.Expr.Traversal
import Formula.Graph.Error
import Formula.Parsing.Error
import Formula.Parsing.Scope
import Formula.Token.Scan

namespace Formula

/-- What is wrong with a list of variable names. -/
inductive NamingError
  /-- The name, shown as messages show it, is no text that starts with a
  letter. -/
  | badStart (shown : String)
  | duplicate (names : List String)

def NamingError.message : NamingError → String
  | badStart shown => s!"Variable names must start with a letter: {shown}"
  | duplicate names => (BindingError.duplicateNames names).message

/-- An error of any part. -/
inductive Error
  | lex (e : LexError)
  | parse (e : ParseError)
  | eval (e : EvalError)
  | binding (e : BindingError)
  | samples (e : SampleError)
  | config (e : ConfigError)
  | naming (e : NamingError)
  | column (e : ColumnError)
  /-- No operator with one operand, or with two, has the given symbol. -/
  | unknownUnary (symbol : String)
  | unknownBinary (symbol : String)
  /-- A text that should be a number is none. -/
  | notANumber (text : String)
  /-- A solver without values was asked for one. -/
  | valuesMissing
  /-- One number was given where a list of numbers is reported. -/
  | notAList
  | graph (e : GraphError)
  /-- No order of nodes has the given name. -/
  | unknownOrder (name : String)

def Error.message : Error → String
  | lex e => e.message
  | parse e => e.message
  | eval e => e.message
  | binding e => e.message
  | samples e => e.message
  | config e => e.message
  | naming e => e.message
  | column e => e.message
  | unknownUnary symbol => s!"Unknown unary operator: {symbol}"
  | unknownBinary symbol => s!"Unknown binary operator: {symbol}"
  | notANumber text => notANumberMessage text
  | valuesMissing => "Uninitialized values! Call set_values first"
  | notAList => "'float' object is not iterable"
  | graph e => e.message
  | unknownOrder name => s!"Invalid traversal_order: {name}"

/-- Reads an expression in which every identifier is a variable. -/
def readExpr (text : String) : Except Error (Expr Float) := do
  let tokens ← (tokenize text).mapError .lex
  (parse anyName tokens).mapError .parse

/-- The operator with one operand that has the given symbol. -/
def unaryOperator (symbol : String) : Except Error UnaryOp :=
  match UnaryOp.ofSymbol? symbol with
  | some op => .ok op
  | none => .error (.unknownUnary symbol)

/-- The operator with two operands that has the given symbol. -/
def binaryOperator (symbol : String) : Except Error BinaryOp :=
  match BinaryOp.ofSymbol? symbol with
  | some op => .ok op
  | none => .error (.unknownBinary symbol)

/-- The order of nodes that has the given name. -/
def nodeOrder (name : String) : Except Error TraversalOrder :=
  match TraversalOrder.ofName? name with
  | some order => .ok order
  | none => .error (.unknownOrder name)

/-- Reads a number. -/
def readNumber (text : String) : Except Error Float :=
  match Decimal.ofText? text with
  | some v => .ok v
  | none => .error (.notANumber text)

end Formula
