/-
Formula/Parsing/Error.lean

Why a list of tokens is not an expression.
-/
import Formula.Operator
import Formula.Text.Quoted

namespace Formula

/-- Why a list of tokens is not an expression. -/
inductive ParseError
  | unmatchedClosing
  | missingClosing
  | emptyGroup
  | emptyExpression
  /-- Two numbers stand side by side; the second one has the given text. -/
  | consecutiveNumbers (text : String)
  /-- The text of a number token is not that of a number. -/
  | notANumber (text : String)
  | unrecognizedVariable (name : String)
  | missingLeft (op : BinaryOp)
  | missingRight (op : Operator)
  | missingArguments (op : Operator)
  /-- Several segments remain, with the given titles. -/
  | unconnected (titles : List String)
  deriving DecidableEq

/-- What is said of a text that is not a number. -/
def notANumberMessage (text : String) : String :=
  s!"could not convert string to float: {Text.quoted text}"

namespace ParseError

def message : ParseError → String
  | unmatchedClosing => "Unmatched closing parenthesis"
  | missingClosing => "Missing closing parenthesis"
  | emptyGroup => "Empty parentheses"
  | emptyExpression => "Empty expression"
  | consecutiveNumbers text => s!"Two consecutive numbers before {text}"
  | notANumber text => notANumberMessage text
  | unrecognizedVariable name => s!"Unrecognized variable \"{name}\""
  | missingLeft op => s!"Missing left argument for {op.title}"
  | missingRight op => s!"Missing right argument for {op.title}"
  | missingArguments op => s!"Missing arguments for {op.title}"
  | unconnected titles => "Multiple unconnected segments: " ++ ", ".intercalate titles

end ParseError

end Formula
