/-
Formula/Graph/Optimize.lean

The optimizer on graphs.  It goes the same way as the optimizer on trees: what
a rule does is decided on the expression below a cell.  But a tree in a graph
is not made anew.  Moves are carried out by edits: a new cell adopts operands
that an old one still holds, a term is taken out through the parent of its
cell, and each edit makes everything above it forget that it was optimized.

A run on a cell gives nothing if the tree is as it was, the cell itself if it
is still the root of the tree, and else the cell that has to take its place.
-/
import Formula.Graph.Editing
import Formula.Graph.WellFormed
import Formula.Simplify.Optimize

namespace Formula

/-- What became of a cell that was optimized. -/
inductive Outcome
  | unchanged
  /-- The cell is still the root of its tree. -/
  | edited
  /-- Another cell has to take its place. -/
  | replaced (new : Nat)
  deriving DecidableEq

/-- The outcome of a run on a cell. -/
def Outcome.ofRun (i : Nat) : Option Nat → Outcome
  | none => unchanged
  | some j => if j = i then edited else replaced j

/-- The root of the tree after the cell has been optimized. -/
def Outcome.root (i : Nat) : Outcome → Nat
  | unchanged | edited => i
  | replaced new => new

namespace Graph

variable {α : Type}

/-- Whether a cell holds a constant. -/
def isConst (g : Graph α) (i : Nat) : Bool :=
  match g.content? i with
  | some (.const _) => true
  | _ => false

/-- Whether a cell has operands, and all of them are constants. -/
def hasConstantOperands (g : Graph α) (i : Nat) : Bool :=
  !(g.operands i).isEmpty && (g.operands i).all g.isConst

end Graph

namespace Editing

variable {α : Type} [Arithmetic α] [Numeral α]

/-! ### Moves -/

/-- Makes the tree of a sketch. -/
def sketch (i : Nat) : Sketch α → Editing α Nat
  | .part p => locate i p
  | .const v => newConst v
  | .unary op x => do
    let x ← sketch i x
    newUnary op x
  | .binary op l r => do
    let l ← sketch i l
    let r ← sketch i r
    newBinary op l r

/-- Rebuilds a cell below a root and gives the root of the new tree. -/
def rebuildAt (root target : Nat) (sk : Sketch α) : Editing α Nat := do
  let new ← sketch target sk
  replaceNode root target new

/-- Lets a factor take up a minus sign. -/
def takeSign (factor : Nat) (change : SignChange α) : Editing α Unit :=
  match change with
  | .flip v => edit (·.setValue factor v)
  | _ => do
    let owner ← parentOf factor
    let new ← sketch factor change.sketch
    replaceChild owner factor new

/-- Takes a term out of the chain below a root and gives the root of the rest;
the number bounds the way up. -/
def spliceWithin (kind : ChainKind) (root : Nat) : Nat → Nat → Editing α Nat
  | 0, _ => fail .noParent
  | fuel + 1, term => do
    let owner ← parentOf term
    let g ← get
    match g.content? owner with
    | some (.unary .neg _) =>
      match kind with
      | .additive => spliceWithin kind root fuel owner
      | .multiplicative => rebuildAt root owner (.const Arithmetic.negOne)
    | some (.binary op (some l) (some r)) =>
      if op = .add ∨ op = .mul then
        rebuildAt root owner (.part [if l = term then .right else .left])
      else if r = term then rebuildAt root owner (.part [.left])
      else if op = .sub then rebuildAt root owner (.unary .neg (.part [.right]))
      else rebuildAt root term (.const Arithmetic.one)
    | _ => fail .noOperand

/-- Takes a term out of the chain below a root. -/
def splice (kind : ChainKind) (root term : Nat) : Editing α Nat := do
  let g ← get
  spliceWithin kind root g.cellCount term

/-- Makes an operator of the operand in a slot and of another cell, and puts it
into the slot. -/
def graft (op : BinaryOp) (owner : Nat) (slot : Slot) (x : Nat) : Editing α Unit := do
  let old ← locate owner [slot]
  let new ← newBinary op old x
  edit (·.setSlot owner slot (some new))

/-- Puts a power with the reciprocal exponent in the place of a root. -/
def rootToPower (i : Nat) : Editing α Nat := do
  let power ← sketch i Expr.rootAsPower
  replaceChild (← parentOf i) i power
  return power

/-- Turns a root into a power, if it is said to be a root, and gives the power. -/
def normalized (fromRoot : Bool) (i : Nat) : Editing α Nat :=
  if fromRoot then rootToPower i else return i

/-- Carries out a move on the tree below a cell and gives the root of the new
tree. -/
def perform (i : Nat) : Move α → Editing α Nat
  | .rebuild sk => sketch i sk
  | .pushSign factor change => do
    let product ← locate i [.operand]
    takeSign (← locate i factor) change
    return product
  | .collapse kind kept v removed => do
    let kept ← locate i kept
    let removed ← locate i removed
    edit (·.setValue kept v)
    splice kind i removed
  | .joinLogarithms op kept slot argument removed => do
    let kept ← locate i kept
    let argument ← locate i argument
    let removed ← locate i removed
    let root ← splice .additive i removed
    graft op kept slot argument
    return root
  | .joinPowers op kept fromRoot exponent removed => do
    let kept ← locate i kept
    let removed ← locate i removed
    let kept ← normalized fromRoot kept
    let root ← splice .multiplicative i removed
    let exponent ← sketch removed exponent
    graft op kept .right exponent
    return root

/-! ### Rules -/

/-- An optimizer run on a cell. -/
abbrev Run (α : Type) := Nat → Editing α (Option Nat)

/-- Optimizes a whole tree, and gives the root of the result, which has no
parent.  If the settings ask for it, the result is checked. -/
def wholeTree (s : Settings α) (optimize : Run α) (i : Nat) : Editing α Nat := do
  let before ← size i
  let result ← optimize i
  let root := result.getD i
  edit (·.detach root)
  let after ← size root
  report (.optimized before after)
  let g ← get
  if s.validate && !g.isWellFormed root then fail (.malformed (g.expr root).text)
  else return root

/-- Makes a product of copies of two parts. -/
def productOfCopies (i : Nat) (p q : Path) : Editing α Nat := do
  let x ← copy i p
  let y ← copy i q
  newBinary .mul x y

/-- Turns a product of two quotients into a quotient of two products, if one of
these gets smaller by optimizing it.  It works on copies, so the old tree stays
as it is if that does not pay off. -/
def combineFractions (s : Settings α) (optimize : Run α) (i : Nat) : Editing α (Option Nat) := do
  let g ← get
  match g.expr i with
  | .binary _ (.binary .div _ _) (.binary .div _ _) => do
    let above ← productOfCopies i [.left, .left] [.right, .left]
    let below ← productOfCopies i [.left, .right] [.right, .right]
    let sizeAbove ← size above
    let sizeBelow ← size below
    let above' ← wholeTree s optimize above
    let below' ← wholeTree s optimize below
    let sizeAbove' ← size above'
    let sizeBelow' ← size below'
    if sizeAbove ≤ sizeAbove' ∧ sizeBelow ≤ sizeBelow' then return none
    else return some (← newBinary .div above' below')
  | _ => return none

/-- Applies a rule. -/
def applyRule (s : Settings α) (optimize : Run α) (rule : Rule) (i : Nat) :
    Editing α (Option Nat) := do
  if rule = .combineFractions then combineFractions s optimize i
  else
    let g ← get
    match rule.move? s (g.expr i) with
    | some m => return some (← perform i m)
    | none => return none

/-- Applies the first rule that does apply and reports it. -/
def firstRule (s : Settings α) (optimize : Run α) (i : Nat) :
    List Rule → Editing α (Option Nat)
  | [] => return none
  | rule :: rest => do
    let before ← get
    match ← applyRule s optimize rule i with
    | some j => do
      let after ← get
      report (.applied rule (before.expr i) (after.expr j))
      return some j
    | none => firstRule s optimize i rest

/-! ### Runs -/

/-- Optimizes what is in a slot, and puts what takes its place into the slot.
Gives whether anything has changed. -/
def optimizeSlot (optimize : Run α) (i : Nat) (slot : Slot) (x : Option Nat) :
    Editing α Bool :=
  match x with
  | none => fail .noOperand
  | some x => do
    match ← optimize x with
    | none => return false
    | some y => do
      if y ≠ x then edit (·.setSlot i slot (some y))
      return true

/-- Optimizes what is in some slots of a cell, one after the other. -/
def optimizeSlots (optimize : Run α) (i : Nat) : List (Slot × Option Nat) → Editing α Bool
  | [] => return false
  | (slot, x) :: rest => do
    let first ← optimizeSlot optimize i slot x
    let others ← optimizeSlots optimize i rest
    return first || others

/-- One pass over a cell. -/
def pass (s : Settings α) (optimize : Run α) (i : Nat) : Editing α (Option Nat) := do
  let g ← get
  let changed ← optimizeSlots optimize i (((g.content? i).map Content.slots).getD [])
  let below := if changed then some i else none
  let g ← get
  if g.hasConstantOperands i then return below
  else
    match ← firstRule s optimize i (g.expr i).rules with
    | some j => return some j
    | none => return below

/-- Passes until one changes nothing, at most as many as the number says.
Gives the root of the tree and whether it has changed. -/
def passes (s : Settings α) (optimize : Run α) : Nat → Nat → Editing α (Nat × Bool)
  | 0, i => do
    let g ← get
    report (.passLimit (g.expr i))
    return (i, false)
  | k + 1, i => do
    match ← pass s optimize i with
    | none => return (i, false)
    | some j => do
      let (root, _) ← passes s optimize k j
      return (root, true)

/-- Folds a cell that has a value, and marks it. -/
def finish (env : Environment α) (i : Nat) (changed : Bool) : Editing α (Option Nat) := do
  let g ← get
  match g.expr i with
  | .const _ => do
    edit (·.mark i)
    return if changed then some i else none
  | e =>
    match e.eval env with
    | .ok v => do
      let c ← newConst v
      edit (·.mark c)
      return some c
    | .error _ => do
      edit (·.mark i)
      return if changed then some i else none

/-- Optimizes the tree below a cell if it has at most the given weight. -/
def optimizeWithin (s : Settings α) (env : Environment α) : Nat → Run α
  | 0, _ => return none
  | fuel + 1, i => do
    let g ← get
    if g.isSettled i then return none
    else
      let (root, changed) ← passes s (optimizeWithin s env fuel) Node.maxPasses i
      finish env root changed

/-- Optimizes the tree below a cell. -/
def optimize (s : Settings α) (env : Environment α) : Run α := fun i => do
  let g ← get
  optimizeWithin s env (g.expr i).weight i

/-- Optimizes the tree below a cell and lets the result take the place of the
cell below its parent. -/
def optimizeHere (s : Settings α) (env : Environment α) (i : Nat) : Editing α Outcome := do
  let outcome := Outcome.ofRun i (← optimize s env i)
  match outcome with
  | .replaced new =>
    let g ← get
    match g.parent? i with
    | none => edit (·.detach new)
    | some p => replaceChild p i new
  | _ => pure ()
  return outcome

end Editing

namespace Graph

variable {α : Type} [Arithmetic α] [Numeral α]

/-- Optimizes the tree below a cell where it stands. -/
def optimizeHere (s : Settings α) (env : Environment α) (g : Graph α) (i : Nat) :
    Traced (Event α) (Graph α × Except GraphError Outcome) :=
  Editing.optimizeHere s env i g

/-- Optimizes the tree below a cell, and gives the root of the result, which
has no parent. -/
def optimizeTree (s : Settings α) (env : Environment α) (g : Graph α) (i : Nat) :
    Traced (Event α) (Graph α × Except GraphError Nat) :=
  Editing.wholeTree s (Editing.optimize s env) i g

end Graph

end Formula
