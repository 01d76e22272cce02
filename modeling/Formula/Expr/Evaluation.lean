/-
Formula/Expr/Evaluation.lean

The value of an expression.  An environment gives some names a value;
evaluation goes from left to right and fails at the first variable that has
none.  Arithmetic itself never fails.

`evalRows` evaluates one expression of binary64 against many rows of values at
once, a column for each name: every node yields the column of its values, one for
each row.
-/
import Formula.Column
import Formula.Expr.Basic

namespace Formula

universe u

/-- The values that names stand for. -/
abbrev Environment (α : Type u) := String → Option α

/-- The environment without any value. -/
def Environment.empty {α : Type u} : Environment α := fun _ => none

/-- Why an expression has no value. -/
inductive EvalError
  | undefinedVariable (name : String)
  /-- An operand is missing. -/
  | emptySlot
  /-- An operator is none on columns. -/
  | column (e : ColumnError)
  deriving DecidableEq

def EvalError.message : EvalError → String
  | undefinedVariable name => s!"Encountered undefined variable \"{name}\" in expression"
  | emptySlot => "Encountered empty operand slot in expression"
  | column e => e.message

namespace Expr

variable {α : Type u} [Arithmetic α]

/-- The value of an expression in an environment. -/
def eval (env : Environment α) : Expr α → Except EvalError α
  | hole => .error .emptySlot
  | const v => .ok v
  | var x => match env x with
    | some v => .ok v
    | none => .error (.undefinedVariable x)
  | unary op x => do return Arithmetic.unary op (← x.eval env)
  | binary op l r => do
    let a ← l.eval env
    let b ← r.eval env
    return Arithmetic.binary op a b

/-- The values of an expression for rows of values, one column for each of the
names. -/
def evalRows (names : List String) (rows : List (List Float)) :
    Expr Float → Except EvalError (List Float)
  | hole => .error .emptySlot
  | const v => .ok (Column.ofConst rows.length v)
  | var x => match names.idxOf? x with
    | some i => .ok (Column.ofRows rows i)
    | none => .error (.undefinedVariable x)
  | unary op x => do
    let xs ← x.evalRows names rows
    (Column.applyUnary op.symbol xs).mapError .column
  | binary op l r => do
    let xs ← l.evalRows names rows
    let ys ← r.evalRows names rows
    (Column.applyBinary op.symbol xs ys).mapError .column

end Expr

end Formula
