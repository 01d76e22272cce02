/-
Formula/Graph/Basic.lean

Expressions as graphs of cells.  A cell holds a node whose operand slots name
other cells or are empty, and a link to the cell that adopted it last, its
parent.  Nothing keeps a cell from being in several slots; then only one of
its owners is its parent.

A cell also remembers two things about what hangs below it: that it has been
optimized, and its size.  An edit forgets both for the edited cell and for
everything on the way up along parent links, so an owner that is not a parent
may remember too much.  On well-formed trees, where every operand links back
to its owner, nothing stale is remembered.

Cells are numbered by their place and never go away; what cannot be reached
any more is simply not looked at.
-/
import Formula.Operator
import Formula.Slot

namespace Formula

universe u

/-- The node in a cell; a slot holds the number of a cell, or nothing. -/
inductive Content (α : Type u)
  | const (value : α)
  | var (name : String)
  | unary (op : UnaryOp) (operand : Option Nat)
  | binary (op : BinaryOp) (left right : Option Nat)
  deriving DecidableEq

namespace Content

variable {α : Type u}

/-- The slots and what they hold, from left to right. -/
def slots : Content α → List (Slot × Option Nat)
  | const _ | var _ => []
  | unary _ x => [(.operand, x)]
  | binary _ l r => [(.left, l), (.right, r)]

/-- What a slot holds. -/
def get? (c : Content α) (s : Slot) : Option Nat := (c.slots.lookup s).join

/-- The cells in the slots, from left to right. -/
def operands (c : Content α) : List Nat := c.slots.filterMap Prod.snd

/-- Whether there is a slot of the given name. -/
def hasSlot (c : Content α) (s : Slot) : Bool := c.slots.any (·.1 = s)

/-- Whether no slot is empty. -/
def isFilled (c : Content α) : Bool := c.slots.all (·.2.isSome)

/-- Fills a slot, or empties it. -/
def set (s : Slot) (new : Option Nat) : Content α → Content α
  | unary op x => if s = .operand then unary op new else unary op x
  | binary op l r =>
    if s = .left then binary op new r
    else if s = .right then binary op l new
    else binary op l r
  | leaf => leaf

end Content

/-- A node, its parent, and what is remembered about the tree below it. -/
structure Cell (α : Type u) where
  content : Content α
  parent : Option Nat := none
  settled : Bool := false
  knownSize : Option Nat := none
  deriving DecidableEq

/-- A graph of cells. -/
structure Graph (α : Type u) where
  cells : Array (Cell α)
  deriving DecidableEq

namespace Graph

variable {α : Type u}

/-- The graph without cells. -/
def empty : Graph α := ⟨#[]⟩

/-- The number of cells. -/
def cellCount (g : Graph α) : Nat := g.cells.size

/-- The cell of a number. -/
def cell? (g : Graph α) (i : Nat) : Option (Cell α) := g.cells[i]?

/-- The node in a cell. -/
def content? (g : Graph α) (i : Nat) : Option (Content α) := (g.cell? i).map (·.content)

/-- The parent of a cell. -/
def parent? (g : Graph α) (i : Nat) : Option Nat := (g.cell? i).bind (·.parent)

/-- Whether a cell is marked as optimized. -/
def isSettled (g : Graph α) (i : Nat) : Bool := ((g.cell? i).map (·.settled)).getD false

/-- The size that a cell remembers. -/
def knownSize? (g : Graph α) (i : Nat) : Option Nat := (g.cell? i).bind (·.knownSize)

/-- The operands of a cell that are there. -/
def operands (g : Graph α) (i : Nat) : List Nat :=
  ((g.content? i).map Content.operands).getD []

/-- What a slot of a cell holds. -/
def slot? (g : Graph α) (i : Nat) (s : Slot) : Option Nat :=
  (g.content? i).bind (·.get? s)

/-- Whether a cell has a slot of the given name. -/
def hasSlot (g : Graph α) (i : Nat) (s : Slot) : Bool := (g.content? i).any (·.hasSlot s)

/-- Changes one cell. -/
def update (g : Graph α) (i : Nat) (f : Cell α → Cell α) : Graph α := ⟨g.cells.modify i f⟩

/-- Changes the node in a cell. -/
def updateContent (g : Graph α) (i : Nat) (f : Content α → Content α) : Graph α :=
  g.update i fun c => { c with content := f c.content }

/-- Adds a cell without parent. -/
def add (g : Graph α) (content : Content α) : Graph α × Nat :=
  (⟨g.cells.push { content }⟩, g.cells.size)

theorem cell?_update (g : Graph α) (i j : Nat) (f : Cell α → Cell α) :
    (g.update i f).cell? j = if i = j then (g.cell? j).map f else g.cell? j := by
  simp [cell?, update, Array.getElem?_modify]

@[simp] theorem cellCount_update (g : Graph α) (i : Nat) (f : Cell α → Cell α) :
    (g.update i f).cellCount = g.cellCount := by
  simp [cellCount, update]

theorem cell?_add (g : Graph α) (content : Content α) (j : Nat) :
    (g.add content).1.cell? j = if j = g.cellCount then some { content } else g.cell? j := by
  exact Array.getElem?_push

@[simp] theorem cellCount_add (g : Graph α) (content : Content α) :
    (g.add content).1.cellCount = g.cellCount + 1 := by
  simp [cellCount, add]

/-! ### Parent links -/

/-- A cell and those above it along parent links, at most as many as the number
says. -/
def lineageWithin (g : Graph α) : Nat → Nat → List Nat
  | 0, _ => []
  | fuel + 1, i =>
    match g.parent? i with
    | none => [i]
    | some p => i :: lineageWithin g fuel p

/-- A cell and all cells above it.  Without cycles no way up has more cells
than there are. -/
def lineage (g : Graph α) (i : Nat) : List Nat := g.lineageWithin g.cellCount i

/-- The topmost cell above a cell. -/
def root (g : Graph α) (i : Nat) : Nat := (g.lineage i).getLast?.getD i

/-- The slot in which an owner holds a cell. -/
def slotHolding? (g : Graph α) (owner i : Nat) : Option Slot :=
  (g.content? owner).bind fun c => (c.slots.find? (·.2 = some i)).map Prod.fst

/-- The slots that lead from a root down to a cell, found along parent links
from below. -/
def path? (g : Graph α) (root i : Nat) : Option (List Slot) :=
  let line := g.lineage i
  let below := line.takeWhile (· ≠ root)
  if line.contains root then
    some ((below.zip (below.tail ++ [root])).filterMap fun (child, owner) =>
      g.slotHolding? owner child).reverse
  else none

/-! ### Edits -/

/-- Forgets what a cell remembers. -/
def Cell.forget (c : Cell α) : Cell α := { c with settled := false, knownSize := none }

/-- Forgets what a cell and all cells above it remember. -/
def invalidate (g : Graph α) (i : Nat) : Graph α :=
  (g.lineage i).foldl (fun g j => g.update j Cell.forget) g

theorem cellCount_foldl_update (f : Cell α → Cell α) (is : List Nat) (g : Graph α) :
    (is.foldl (fun g j => g.update j f) g).cellCount = g.cellCount := by
  induction is generalizing g with
  | nil => rfl
  | cons i is ih => simp [ih]

@[simp] theorem cellCount_invalidate (g : Graph α) (i : Nat) :
    (g.invalidate i).cellCount = g.cellCount :=
  cellCount_foldl_update Cell.forget _ g

/-- Takes a cell from its parent. -/
def detach (g : Graph α) (i : Nat) : Graph α := g.update i ({ · with parent := none })

/-- Ends a parent link if it goes to the given owner. -/
def disown (g : Graph α) (owner i : Nat) : Graph α :=
  if g.parent? i = some owner then g.detach i else g

/-- Makes an owner the parent of a cell. -/
def adopt (g : Graph α) (owner i : Nat) : Graph α :=
  g.update i ({ · with parent := some owner })

/-- Puts something into a slot, or empties it, and sets the parent links: what
the slot held before loses its parent if that was the cell. -/
def relink (g : Graph α) (i : Nat) (s : Slot) (new : Option Nat) : Graph α :=
  let g' := g.updateContent i (.set s new)
  let g' := (g.slot? i s).toList.foldl (disown · i) g'
  new.toList.foldl (adopt · i) g'

/-- Fills a slot of a cell, or empties it. -/
def setSlot (g : Graph α) (i : Nat) (s : Slot) (new : Option Nat) : Graph α :=
  if g.hasSlot i s then (g.relink i s new).invalidate i else g

/-- Gives a constant another value. -/
def setValue (g : Graph α) (i : Nat) (v : α) : Graph α :=
  match g.content? i with
  | some (.const _) => (g.updateContent i fun _ => .const v).invalidate i
  | _ => g

/-- Marks a cell as optimized. -/
def mark (g : Graph α) (i : Nat) : Graph α := g.update i ({ · with settled := true })

/-- A new cell for a unary operator. -/
def newUnary (g : Graph α) (op : UnaryOp) (x : Option Nat) : Graph α × Nat :=
  let (g, i) := g.add (.unary op none)
  (x.toList.foldl (fun g x => g.setSlot i .operand (some x)) g, i)

/-- A new cell for a binary operator. -/
def newBinary (g : Graph α) (op : BinaryOp) (l r : Option Nat) : Graph α × Nat :=
  let (g, i) := g.add (.binary op none none)
  let g := l.toList.foldl (fun g x => g.setSlot i .left (some x)) g
  (r.toList.foldl (fun g x => g.setSlot i .right (some x)) g, i)

end Graph

end Formula
