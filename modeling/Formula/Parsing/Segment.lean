/-
Formula/Parsing/Segment.lean

One parenthesis level of an expression as a flat row of segments: operands
that are finished, and operators that still wait for theirs.  `resolve` turns
a row into one expression, a binding class at a time, tightest first.

The unary class comes first: a run of unary operators is applied to the
operand behind it, innermost first, and no unary operator is left.  Each
binary class is then joined in one pass from left to right, an operator taking
the operand before it, which may be the result of the join before, and the
operand behind it.  So operators of one class associate to the left.
-/
import Formula.Expr.Basic
import Formula.Parsing.Error

namespace Formula

universe u

/-- A segment of a row. -/
inductive Segment (α : Type u)
  | operand (e : Expr α)
  | unary (op : UnaryOp)
  | binary (op : BinaryOp)

/-- A segment of a row without unary operators. -/
inductive Link (α : Type u)
  | operand (e : Expr α)
  | operator (op : BinaryOp)

namespace Link

variable {α : Type u}

/-- What a link is called in messages. -/
def title : Link α → String
  | operand e => e.title
  | operator op => op.title

/-- Joins the operators of one class.  The first argument is the operand just
before the row, which the next operator may take. -/
def join (level : Precedence) : Option (Expr α) → List (Link α) → Except ParseError (List (Link α))
  | left, [] => .ok (left.toList.map .operand)
  | left, .operand e :: rest => do
    return left.toList.map .operand ++ (← join level (some e) rest)
  | left, .operator op :: rest =>
    if op.precedence = level then
      match left, rest with
      | none, _ => .error (.missingLeft op)
      | some l, .operand r :: rest => join level (some (.binary op l r)) rest
      | some _, _ => .error (.missingRight (.binary op))
    else do
      return left.toList.map .operand ++ .operator op :: (← join level none rest)

/-- The binary classes, tightest first. -/
def levels : List Precedence := [.power, .multiplicative, .additive, .extremum]

/-- The one expression that a row of links has become. -/
def single : List (Link α) → Except ParseError (Expr α)
  | [.operand e] => .ok e
  | [.operator op] => .error (.missingArguments (.binary op))
  | links => .error (.unconnected (links.map title))

end Link

namespace Segment

variable {α : Type u}

/-- Applies the unary operators.  The first argument holds the run of unary
operators just before the row, the last one first. -/
def applyUnary : List UnaryOp → List (Segment α) → Except ParseError (List (Link α))
  | [], [] => .ok []
  | op :: _, [] => .error (.missingRight (.unary op))
  | run, .unary op :: rest => applyUnary (op :: run) rest
  | run, .operand e :: rest => do
    return .operand (run.foldl (fun x op => .unary op x) e) :: (← applyUnary [] rest)
  | [], .binary op :: rest => do return .operator op :: (← applyUnary [] rest)
  | op :: _, .binary _ :: _ => .error (.missingRight (.unary op))

/-- The expression that a row of segments stands for. -/
def resolve (row : List (Segment α)) : Except ParseError (Expr α) := do
  let links ← applyUnary [] row
  Link.single (← Link.levels.foldlM (fun links level => Link.join level none links) links)

end Segment

end Formula
