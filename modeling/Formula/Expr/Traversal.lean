/-
Formula/Expr/Traversal.lean

The nodes of an expression as a list, each shown by the subexpression below
it.  A walk takes the first pending node and hands its operands to the pending
ones: behind them for the breadth-first order, before them for the depth-first
order.  That is all in which the two orders differ.
-/
import Formula.Expr.Basic

namespace Formula

universe u

/-- The order in which nodes are listed. -/
inductive TraversalOrder
  | breadthFirst | depthFirst
  deriving DecidableEq

/-- The order of a name. -/
def TraversalOrder.ofName? : String → Option TraversalOrder
  | "breadth_first" => some breadthFirst
  | "depth_first" => some depthFirst
  | _ => none

/-- Where the operands of a node join the pending nodes. -/
def TraversalOrder.enqueue {β : Type u} (order : TraversalOrder) (operands pending : List β) :
    List β :=
  match order with
  | breadthFirst => pending ++ operands
  | depthFirst => operands ++ pending

namespace Expr

variable {α : Type u}

/-- What is left to do while a list of nodes is pending: each node counts
twice, and each pending one once more. -/
def workload : List (Expr α) → Nat
  | [] => 0
  | e :: rest => 2 * e.size + 1 + workload rest

theorem workload_append (xs ys : List (Expr α)) :
    workload (xs ++ ys) = workload xs + workload ys := by
  induction xs with
  | nil => simp [workload]
  | cons e xs ih => simp [workload, ih, Nat.add_assoc]

theorem workload_enqueue (order : TraversalOrder) (xs ys : List (Expr α)) :
    workload (order.enqueue xs ys) = workload xs + workload ys := by
  cases order <;> simp [TraversalOrder.enqueue, workload_append, Nat.add_comm]

theorem workload_operands_lt (e : Expr α) : workload e.operands < 2 * e.size + 1 := by
  cases e with
  | hole | const | var => simp [operands, workload]
  | unary op x => cases x <;> simp [operands, workload, isHole, size, List.filter]
  | binary op l r =>
    cases l <;> cases r <;> simp [operands, workload, isHole, size, List.filter] <;> omega

/-- All nodes below the pending ones, these included. -/
def walk (order : TraversalOrder) (pending : List (Expr α)) : List (Expr α) :=
  match pending with
  | [] => []
  | e :: rest => e :: walk order (order.enqueue e.operands rest)
termination_by workload pending
decreasing_by
  have := workload_operands_lt e
  rw [workload_enqueue, workload]
  omega

/-- All nodes of an expression. -/
def nodes (order : TraversalOrder) (e : Expr α) : List (Expr α) := walk order [e]

/-- The value of a constant. -/
def constant? : Expr α → Option α
  | const v => some v
  | _ => none

/-- The values of the constants in depth-first order. -/
def constants (e : Expr α) : List α := (e.nodes .depthFirst).filterMap constant?

/-- Whether the topmost operator has the given symbol. -/
def hasOperator (symbol : String) : Expr α → Bool
  | unary op _ => op.symbol == symbol
  | binary op _ _ => op.symbol == symbol
  | _ => false

/-- The nodes with the given operator in breadth-first order. -/
def withOperator (symbol : String) (e : Expr α) : List (Expr α) :=
  (e.nodes .breadthFirst).filter (·.hasOperator symbol)

end Expr

end Formula
