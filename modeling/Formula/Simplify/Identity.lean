/-
Formula/Simplify/Identity.lean

The local rules: identities of one operator and its operands.  Each rule takes
the operands and sketches the tree that takes the operator's place, or gives
nothing if it does not apply.  The alternatives of a rule are tried in the
order in which they are written.
-/
import Formula.Expr.Similarity
import Formula.Simplify.Settings
import Formula.Simplify.Sketch

namespace Formula

universe u

namespace Expr

variable {α : Type u}

/-- Whether the topmost node is a negation. -/
def isNegation : Expr α → Bool
  | unary op _ => op = .neg
  | _ => false

/-- Whether the topmost node is the given binary operator. -/
def hasOp (op : BinaryOp) : Expr α → Bool
  | binary op' _ _ => op' = op
  | _ => false

/-- Whether the topmost node is a product or a quotient. -/
def isFactored (e : Expr α) : Bool := e.hasOp .mul || e.hasOp .div

variable [Arithmetic α]

open Arithmetic

/-- Whether a tree is the given constant. -/
def isValue (v : α) (e : Expr α) : Bool := e.isConstant (some v)

/-- Whether a tree is a quotient with numerator one. -/
def isReciprocal : Expr α → Bool
  | binary op a _ => op = .div && a.isValue one
  | _ => false

/-- Whether two subtrees are equal within the tolerance of the settings. -/
def alike (s : Settings α) (a b : Expr α) : Bool := a.equals s.epsilon b

/-- Whether a tree is a constant within the tolerance of the base of the
natural logarithm. -/
def isEuler (s : Settings α) : Expr α → Bool
  | const v => within s.epsilon v euler
  | _ => false

/-! ### Sums, differences, negations -/

def simplifyAddition (l r : Expr α) : Option (Sketch α) :=
  if r.isValue zero then some (.part [.left])
  else if l.isValue zero then some (.part [.right])
  else if r.isNegation then some (.binary .sub (.part [.left]) (.part [.right, .operand]))
  else if l.isNegation then some (.binary .sub (.part [.right]) (.part [.left, .operand]))
  else none

def simplifySubtraction (s : Settings α) (l r : Expr α) : Option (Sketch α) :=
  if r.isValue zero then some (.part [.left])
  else if l.isValue zero then some (.unary .neg (.part [.right]))
  else if s.rational && alike s l r then some (.const zero)
  else if r.isNegation then some (.binary .add (.part [.left]) (.part [.right, .operand]))
  else none

/-- Negations of negations and of differences.  A negation of a product or
quotient is not rebuilt but moved into it. -/
def simplifyNegation (x : Expr α) : Option (Sketch α) :=
  if x.isNegation then some (.part [.operand, .operand])
  else if x.hasOp .sub then
    some (.binary .sub (.part [.operand, .right]) (.part [.operand, .left]))
  else none

/-! ### Products and quotients -/

def simplifyMultiplication (s : Settings α) (l r : Expr α) : Option (Sketch α) :=
  if r.isValue one then some (.part [.left])
  else if l.isValue one then some (.part [.right])
  else if s.rational && (l.isValue zero || r.isValue zero) then some (.const zero)
  else if l.isNegation && r.isNegation then
    some (.binary .mul (.part [.left, .operand]) (.part [.right, .operand]))
  else if r.isReciprocal then some (.binary .div (.part [.left]) (.part [.right, .right]))
  else if l.isReciprocal then some (.binary .div (.part [.right]) (.part [.left, .right]))
  else none

def simplifyDivision (s : Settings α) (l r : Expr α) : Option (Sketch α) :=
  if r.isValue one then some (.part [.left])
  else if s.rational && alike s l r then some (.const one)
  else if s.rational && l.isValue zero then some (.const zero)
  else if l.isNegation && r.isNegation then
    some (.binary .div (.part [.left, .operand]) (.part [.right, .operand]))
  else if l.hasOp .div then
    some (.binary .div (.part [.left, .left])
      (.binary .mul (.part [.left, .right]) (.part [.right])))
  else if r.hasOp .div then
    some (.binary .div (.binary .mul (.part [.left]) (.part [.right, .right]))
      (.part [.right, .left]))
  else none

/-! ### Powers, roots, logarithms -/

def simplifyExponentiation (base exponent : Expr α) : Option (Sketch α) :=
  if exponent.isValue one then some (.part [.left])
  else if exponent.isValue zero || base.isValue one then some (.const one)
  else if base.hasOp .pow then
    some (.binary .pow (.part [.left, .left])
      (.binary .mul (.part [.left, .right]) (.part [.right])))
  else if base.hasOp .root then
    some (.binary .pow (.part [.left, .right])
      (.binary .div (.part [.right]) (.part [.left, .left])))
  else none

def simplifyRoot (degree radicand : Expr α) : Option (Sketch α) :=
  if degree.isValue one then some (.part [.right])
  else if radicand.hasOp .pow then
    some (.binary .pow (.part [.right, .left])
      (.binary .div (.part [.right, .right]) (.part [.left])))
  else if radicand.hasOp .root then
    some (.binary .root (.binary .mul (.part [.left]) (.part [.right, .left]))
      (.part [.right, .right]))
  else none

/-- The exponent to which a base has to be raised, if the argument in the given
slot is a power or root of a base that passes the test. -/
def exponentOf? (isBase : Expr α → Bool) (slot : Slot) (argument : Expr α) :
    Option (Sketch α) :=
  match argument with
  | binary .pow b _ => if isBase b then some (.part [slot, .right]) else none
  | binary .root _ b =>
    if isBase b then some (.binary .div (.const one) (.part [slot, .left])) else none
  | _ => none

/-- A root as a power with the reciprocal exponent. -/
def rootAsPower : Sketch α :=
  .binary .pow (.part [.right]) (.binary .div (.const one) (.part [.left]))

def simplifyLogarithm (s : Settings α) (base argument : Expr α) : Option (Sketch α) :=
  exponentOf? (alike s · base) .right argument

def simplifyNaturalLog (s : Settings α) (argument : Expr α) : Option (Sketch α) :=
  exponentOf? (isEuler s) .operand argument

/-! ### Signs of products -/

/-- The first constant or negation among the factors from left to right, if
there is one. -/
def signAbsorber? : Expr α → Option Path
  | const _ => some []
  | unary op _ => if op = .neg then some [] else none
  | binary op l r =>
    if op = .mul || op = .div then
      match l.signAbsorber? with
      | some p => some (.left :: p)
      | none => r.signAbsorber?.map (.right :: ·)
    else none
  | _ => none

/-- The leftmost factor. -/
def leftmostFactor : Expr α → Path
  | binary op l _ => if op = .mul || op = .div then .left :: l.leftmostFactor else []
  | _ => []

end Expr

/-- How a factor takes up a minus sign. -/
inductive SignChange (α : Type u)
  /-- The factor is a constant and gets the opposite value. -/
  | flip (value : α)
  /-- The factor is a negation and loses it. -/
  | unwrap
  /-- The factor gets a negation. -/
  | wrap

/-- What is made of the factor. -/
def SignChange.sketch {α : Type u} : SignChange α → Sketch α
  | flip v => .const v
  | unwrap => .part [.operand]
  | wrap => .unary .neg (.part [])

/-- The factor of a product or quotient that takes up a minus sign, and how: the
first constant or negation, or else the leftmost factor. -/
def Expr.signChange {α : Type u} [Arithmetic α] (product : Expr α) : Path × SignChange α :=
  match product.signAbsorber? with
  | none => (product.leftmostFactor, .wrap)
  | some p =>
    match product.at? p with
    | some (.const v) => (p, .flip (Arithmetic.unary .neg v))
    | _ => (p, .unwrap)

end Formula
