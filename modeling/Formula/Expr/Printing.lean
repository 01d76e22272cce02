/-
Formula/Expr/Printing.lean

Expressions as text.  A binary operator is written between its operands and
always in parentheses.  A function word is followed by its operand in
parentheses, which are those of the operand if it is binary; a negation is a
bare minus sign.  An empty slot is a question mark.
-/
import Formula.Expr.Basic
import Formula.Numeral

namespace Formula

universe u

namespace Expr

variable {α : Type u}

/-- Whether an expression is written in parentheses. -/
def isBracketed : Expr α → Bool
  | binary .. => true
  | _ => false

variable [Numeral α]

/-- The written form of an expression. -/
def text : Expr α → String
  | hole => "?"
  | const v => Numeral.text v
  | var x => x
  | unary op x =>
    if op = .neg then "-" ++ x.text
    else if x.isBracketed then op.symbol ++ x.text
    else op.symbol ++ "(" ++ x.text ++ ")"
  | binary op l r => "(" ++ l.text ++ " " ++ op.symbol ++ " " ++ r.text ++ ")"

/-- The written form marked with the form of the topmost node. -/
def description (e : Expr α) : String :=
  let form := match e with
    | hole => "Hole"
    | const _ => "ConstantNode"
    | var _ => "VariableNode"
    | unary .. => "UnaryOpNode"
    | binary .. => "BinaryOpNode"
  form ++ "(" ++ e.text ++ ")"

end Expr

end Formula
