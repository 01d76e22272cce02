/-
Formula/Simplify/Chain.lean

Chains.  An additive chain is a maximal run of sums, differences and
negations, a multiplicative chain a maximal run of products, quotients and
negations.  What hangs below the run are the terms of the chain, in order from
left to right.  A term is flipped if it enters negatively, or inversely: right
of a difference or quotient, and, in additive chains, below a negation.  A
negation inside a product does not flip; it is a factor of minus one.

Terms are named by their paths.  `splice?` tells how the chain is mended when
a term is taken out of it, and `shift` where the other parts are found then.
-/
import Formula.Simplify.Sketch

namespace Formula

universe u

/-- The two kinds of chains. -/
inductive ChainKind
  | additive | multiplicative
  deriving DecidableEq

/-- Whether an operator is one of the chain, and if so whether it flips its
right operand. -/
def ChainKind.flips? : ChainKind → BinaryOp → Option Bool
  | additive, .add => some false
  | additive, .sub => some true
  | multiplicative, .mul => some false
  | multiplicative, .div => some true
  | _, _ => none

/-- The kind of the chain that an operator starts; operators that are in no
chain look at the factors. -/
def ChainKind.ofOperator (op : BinaryOp) : ChainKind :=
  if op = .add || op = .sub then additive else multiplicative

/-! ### Terms -/

/-- A term of a chain. -/
structure ChainTerm (α : Type u) where
  expr : Expr α
  flipped : Bool
  /-- The term is the whole numerator of a quotient and cannot be taken out. -/
  pinned : Bool
  path : Path

/-- A term of an operand as a term of the whole. -/
def ChainTerm.below {α : Type u} (s : Slot) (t : ChainTerm α) : ChainTerm α :=
  { t with path := s :: t.path }

namespace Expr

variable {α : Type u}

/-- The terms of the chain that starts at a node, given how the node itself
enters. -/
def termsFrom (kind : ChainKind) (flipped pinned : Bool) : Expr α → List (ChainTerm α)
  | unary op x =>
    if op = .neg then
      (x.termsFrom kind (flipped != (kind == .additive)) false).map (.below .operand)
    else [⟨unary op x, flipped, pinned, []⟩]
  | binary op l r =>
    match kind.flips? op with
    | some flip =>
      (l.termsFrom kind flipped (op == .div)).map (.below .left)
        ++ (r.termsFrom kind (flipped != flip) false).map (.below .right)
    | none => [⟨binary op l r, flipped, pinned, []⟩]
  | leaf => [⟨leaf, flipped, pinned, []⟩]

/-- The terms of the chain that starts at a node. -/
def terms (kind : ChainKind) (e : Expr α) : List (ChainTerm α) := e.termsFrom kind false false

/-- The terms of the chain that the topmost operator starts. -/
def chainTerms (e : Expr α) : List (ChainTerm α) :=
  match e with
  | binary op _ _ => e.terms (.ofOperator op)
  | _ => e.terms .multiplicative

end Expr

/-! ### Splices -/

/-- How a chain is mended when a term is taken out of it. -/
inductive Splice (α : Type u)
  /-- An operand takes the place of its operator. -/
  | promote (owner : Path) (survivor : Slot)
  /-- The negation of the right operand takes the place of a difference. -/
  | negate (owner : Path)
  /-- A constant takes a place. -/
  | fill (place : Path) (value : α)

namespace Splice

variable {α : Type u}

/-- A splice in a part as a splice in the whole. -/
def below (p : Path) : Splice α → Splice α
  | promote owner survivor => promote (p ++ owner) survivor
  | negate owner => negate (p ++ owner)
  | fill place v => fill (p ++ place) v

/-- The place where the chain is mended. -/
def place : Splice α → Path
  | promote owner _ | negate owner => owner
  | fill place _ => place

/-- What is made there of the part that was there. -/
def sketch : Splice α → Sketch α
  | promote _ survivor => .part [survivor]
  | negate _ => .unary .neg (.part [.right])
  | fill _ v => .const v

/-- A path after a part has moved from one place to another. -/
def moved (source target p : Path) : Path :=
  if source.isPrefixOf p then target ++ p.drop source.length else p

/-- Where a part that stays is found after the splice. -/
def shift (p : Path) : Splice α → Path
  | promote owner survivor => moved (owner ++ [survivor]) owner p
  | negate owner => moved (owner ++ [.right]) (owner ++ [.operand]) p
  | fill _ _ => p

end Splice

/-- How an operand is taken out of the chain at its operator.  A negation around
it goes with it in a sum, so the operator above has to answer, and becomes the
factor minus one in a product; a numerator becomes one. -/
def Expr.spliceHere? {α : Type u} [Arithmetic α] (kind : ChainKind) :
    Expr α → Slot → Option (Splice α)
  | .unary _ _, .operand =>
    match kind with
    | .additive => none
    | .multiplicative => some (.fill [] Arithmetic.negOne)
  | .binary op _ _, .left =>
    match op with
    | .sub => some (.negate [])
    | .div => some (.fill [.left] Arithmetic.one)
    | _ => some (.promote [] .right)
  | .binary _ _ _, .right => some (.promote [] .left)
  | _, _ => none

/-- How the term at a path is taken out of a chain: the lowest operator above it
that can answer does.  There is no answer if nothing of the chain would be
left. -/
def Expr.splice? {α : Type u} [Arithmetic α] (kind : ChainKind) :
    Path → Expr α → Option (Splice α)
  | [], _ => none
  | s :: p, e =>
    (e.operand? s).bind fun x => ((x.splice? kind p).map (.below [s])).or (e.spliceHere? kind s)

/-- Carries out a splice. -/
def Node.splice {α : Type u} (n : Node α) (s : Splice α) : Node α := n.rebuildAt s.place s.sketch

end Formula
