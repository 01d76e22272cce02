/-
Formula/Simplify/Optimize.lean

The optimizer on trees.  A node is optimized from below: a pass optimizes its
operands and then applies the first rule of its operator that does apply.
Passes are repeated until one changes nothing, at most `maxPasses` times.  Then
the node is folded to a constant if it has a value in the given environment,
and settled.  A settled node is left alone.

Where all operands are constants no rule is tried: folding evaluates exactly.

The recursion is bounded by `weight`, which no rule increases and which is
smaller for operands.  Three operators weigh more than their one node, since
rules may trade them for two: a negation for a factor, a natural logarithm for
a negation and a product, a root for a power and a quotient.
-/
import Formula.Expr.Evaluation
import Formula.Simplify.Collect
import Formula.Simplify.Trace

namespace Formula

universe u

namespace Expr

variable {α : Type u}

/-- The bound on the depth of an optimizer run. -/
def weight : Expr α → Nat
  | hole => 0
  | const _ | var _ => 1
  | unary op x => (if op = .neg || op = .ln then 2 else 1) + x.weight
  | binary op l r => (if op = .root then 3 else 1) + (l.weight + r.weight)

/-- The rules for an expression, in the order in which they are tried. -/
def rules : Expr α → List Rule
  | unary .neg _ => [.simplifyNegation]
  | unary .ln _ => [.simplifyNaturalLog]
  | binary .add _ _ => [.simplifyAddition, .collapseAdditiveConstants, .combineLogarithms]
  | binary .sub _ _ => [.simplifySubtraction, .collapseAdditiveConstants, .combineLogarithms]
  | binary .mul _ _ => [.simplifyMultiplication, .collapseMultiplicativeConstants,
      .combineExponents, .combineFractions]
  | binary .div _ _ => [.simplifyDivision, .collapseMultiplicativeConstants, .combineExponents]
  | binary .pow _ _ => [.simplifyExponentiation]
  | binary .root _ _ => [.simplifyRoot]
  | binary .log _ _ => [.simplifyLogarithm]
  | _ => []

end Expr

/-- What a rule decides to do to an expression; nothing if it does not apply.
Fractions are combined on trial, which takes an optimizer and is not decided
here. -/
def Rule.move? {α : Type u} [Arithmetic α] (s : Settings α) : Rule → Expr α → Option (Move α)
  | simplifyAddition, .binary _ l r => (l.simplifyAddition r).map .rebuild
  | simplifySubtraction, .binary _ l r => (l.simplifySubtraction s r).map .rebuild
  | simplifyMultiplication, .binary _ l r => (l.simplifyMultiplication s r).map .rebuild
  | simplifyDivision, .binary _ l r => (l.simplifyDivision s r).map .rebuild
  | simplifyExponentiation, .binary _ l r => (l.simplifyExponentiation r).map .rebuild
  | simplifyRoot, .binary _ l r => (l.simplifyRoot r).map .rebuild
  | simplifyLogarithm, .binary _ l r => (l.simplifyLogarithm s r).map .rebuild
  | simplifyNegation, .unary _ x =>
    if x.isFactored then
      some (.pushSign (.operand :: x.signChange.1) x.signChange.2)
    else x.simplifyNegation.map .rebuild
  | simplifyNaturalLog, .unary _ x => (x.simplifyNaturalLog s).map .rebuild
  | collapseAdditiveConstants, e => e.collapseAdditive
  | collapseMultiplicativeConstants, e => e.collapseMultiplicative
  | combineLogarithms, e => e.combineLogarithms s
  | combineExponents, e => e.combineExponents s
  | _, _ => none

namespace Node

variable {α : Type u} [Arithmetic α]

/-- The number of passes after which a node is left as it is. -/
def maxPasses : Nat := 64

/-- An optimizer run on a node. -/
abbrev Run (α : Type u) := Node α → Traced (Event α) (Step α)

/-- Optimizes a whole tree and reports its sizes. -/
def wholeTree (optimize : Run α) (root : Node α) : Traced (Event α) (Node α) := do
  let s ← optimize root
  Traced.report (.optimized root.size s.node.size)
  return s.node

/-- Turns a product of two quotients into a quotient of two products, if one of
these gets smaller by optimizing it. -/
def combineFractions (optimize : Run α) : Node α → Traced (Event α) (Option (Node α))
  | binary _ _ (binary _ .div a b) (binary _ .div c d) => do
    let above := newBinary .mul a.clean c.clean
    let below := newBinary .mul b.clean d.clean
    let above' ← wholeTree optimize above
    let below' ← wholeTree optimize below
    return if above.size ≤ above'.size ∧ below.size ≤ below'.size then none
      else some (newBinary .div above' below')
  | _ => return none

/-- Applies a rule. -/
def applyRule (s : Settings α) (optimize : Run α) (rule : Rule) (n : Node α) :
    Traced (Event α) (Option (Node α)) :=
  if rule = .combineFractions then combineFractions optimize n
  else return (rule.move? s n.expr).map n.perform

/-- Applies the first rule that does apply and reports it. -/
def firstRule (s : Settings α) (optimize : Run α) (n : Node α) :
    List Rule → Traced (Event α) (Option (Node α))
  | [] => return none
  | rule :: rest => do
    match ← applyRule s optimize rule n with
    | some m =>
      Traced.report (.applied rule n.expr m.expr)
      return some m
    | none => firstRule s optimize n rest

/-- Optimizes the operands of a node. -/
def optimizeOperands (optimize : Run α) : Run α
  | unary _ op x => do
    let x' ← optimize x
    return ⟨unary .fresh op x'.node, x'.change⟩
  | binary _ op l r => do
    let l' ← optimize l
    let r' ← optimize r
    return ⟨binary .fresh op l'.node r'.node, l'.change.andThen r'.change⟩
  | leaf => return ⟨leaf, .unchanged⟩

/-- Whether a node has operands, and all of them are constants. -/
def hasConstantOperands (n : Node α) : Bool := !n.operands.isEmpty && n.operands.all isConst

/-- One pass over a node. -/
def pass (s : Settings α) (optimize : Run α) : Run α := fun n => do
  let below ← optimizeOperands optimize n
  if below.node.hasConstantOperands then return below
  else
    match ← firstRule s optimize below.node below.node.expr.rules with
    | some m => return ⟨m, .changed⟩
    | none => return below

/-- Passes until one changes nothing, at most as many as the number says. -/
def passes (s : Settings α) (optimize : Run α) : Nat → Run α
  | 0, n => do
    Traced.report (.passLimit n.expr)
    return ⟨n, .unchanged⟩
  | k + 1, n => do
    let first ← pass s optimize n
    if first.change = .unchanged then return first
    else
      let rest ← passes s optimize k first.node
      return ⟨rest.node, .changed⟩

/-- Folds a node that has a value, and settles it. -/
def finish (env : Environment α) (s : Step α) : Step α :=
  if s.node.isConst then ⟨s.node.settle, s.change⟩
  else
    match s.node.expr.eval env with
    | .ok v => ⟨(newConst v).settle, .changed⟩
    | .error _ => ⟨s.node.settle, s.change⟩

/-- Optimizes a node of at most the given weight. -/
def optimizeWithin (s : Settings α) (env : Environment α) : Nat → Run α
  | 0, n => return ⟨n, .unchanged⟩
  | fuel + 1, n =>
    if n.tag.settled then return ⟨n, .unchanged⟩
    else do return finish env (← passes s (optimizeWithin s env fuel) maxPasses n)

/-- Optimizes a node. -/
def optimize (s : Settings α) (env : Environment α) : Run α :=
  fun n => optimizeWithin s env n.expr.weight n

/-- Optimizes a whole tree. -/
def optimizeTree (s : Settings α) (env : Environment α) (root : Node α) :
    Traced (Event α) (Node α) :=
  wholeTree (optimize s env) root

end Node

end Formula
