/-
Formula/Expr/Basic.lean

Expressions as plain trees.  A tree may have empty operand slots, written
`hole`; such a tree can be printed, measured and compared, and an expression
is *filled* if it has none.

Besides the type this file holds its measures and the views that forget part
of a tree: the operands, the variables, and the skeleton that forgets the
values of the constants.
-/
import Formula.Arithmetic

namespace Formula

universe u v

/-- An expression over values of type `α`. -/
inductive Expr (α : Type u)
  /-- An empty operand slot. -/
  | hole
  | const (value : α)
  | var (name : String)
  | unary (op : UnaryOp) (operand : Expr α)
  | binary (op : BinaryOp) (left right : Expr α)
  deriving DecidableEq

namespace Expr

variable {α : Type u} {β : Type v}

/-- The number of nodes; an empty slot is none. -/
def size : Expr α → Nat
  | hole => 0
  | const _ | var _ => 1
  | unary _ x => 1 + x.size
  | binary _ l r => 1 + (l.size + r.size)

/-- The number of nodes on the longest way down. -/
def depth : Expr α → Nat
  | hole => 0
  | const _ | var _ => 1
  | unary _ x => 1 + x.depth
  | binary _ l r => 1 + max l.depth r.depth

/-- Whether a tree has no empty slot. -/
def isFilled : Expr α → Bool
  | hole => false
  | const _ | var _ => true
  | unary _ x => x.isFilled
  | binary _ l r => l.isFilled && r.isFilled

/-- Whether a tree is an empty slot. -/
def isHole : Expr α → Bool
  | hole => true
  | _ => false

/-- The operands that are there, from left to right. -/
def operands : Expr α → List (Expr α)
  | unary _ x => [x].filter (!·.isHole)
  | binary _ l r => [l, r].filter (!·.isHole)
  | _ => []

/-- What the topmost node is called in messages. -/
def title : Expr α → String
  | hole => "Hole"
  | const _ => "Constant"
  | var _ => "Variable"
  | unary op _ => op.title
  | binary op _ _ => op.title

/-- The binding class of the topmost node. -/
def precedence : Expr α → Precedence
  | unary op _ => op.precedence
  | binary op _ _ => op.precedence
  | _ => .leaf

/-- Whether the topmost node is a unary operator with one of the symbols. -/
def isUnary (symbols : List String) : Expr α → Bool
  | unary op _ => symbols.contains op.symbol
  | _ => false

/-- Whether the topmost node is a binary operator with one of the symbols. -/
def isBinary (symbols : List String) : Expr α → Bool
  | binary op _ _ => symbols.contains op.symbol
  | _ => false

/-- Whether a tree is a constant, of the given value if there is one. -/
def isConstant [Arithmetic α] (value : Option α) : Expr α → Bool
  | const v => value.all (Arithmetic.same v)
  | _ => false

/-- The same tree over other values. -/
def map (f : α → β) : Expr α → Expr β
  | hole => hole
  | const v => const (f v)
  | var x => var x
  | unary op x => unary op (x.map f)
  | binary op l r => binary op (l.map f) (r.map f)

/-- The tree without the values of its constants.  It is what expressions are
hashed by: equal within any tolerance implies equal skeletons. -/
def skeleton (e : Expr α) : Expr Unit := e.map fun _ => ()

/-- The names of the variables, each where it first occurs. -/
def vars : Expr α → List String
  | hole | const _ => []
  | var x => [x]
  | unary _ x => x.vars
  | binary _ l r => l.vars ++ r.vars.filter (!l.vars.contains ·)

/-- The names of the variables in the order of their code points. -/
def sortedVars (e : Expr α) : List String := e.vars.mergeSort (· ≤ ·)

end Expr

end Formula
