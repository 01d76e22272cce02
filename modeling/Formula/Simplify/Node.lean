/-
Formula/Simplify/Node.lean

Trees under simplification.  A `Node` is a filled expression in which every
node carries a tag that says whether it is settled, that is, has been optimized
and not been edited since.  `expr` forgets the tags.

Two disciplines keep the tags right.  A node that a rule makes is fresh, that
is, not settled.  A node at or below which something is put is fresh again, and
so are all nodes above it: that is what `put` does.
-/
import Formula.Expr.Path

namespace Formula

universe u

/-- What a node carries besides its content. -/
structure Tag where
  settled : Bool
  deriving DecidableEq

namespace Tag

/-- The tag of a node that is new or has been edited. -/
def fresh : Tag := ⟨false⟩

/-- The tag of an optimized node. -/
def done : Tag := ⟨true⟩

@[simp] theorem settled_fresh : fresh.settled = false := rfl

@[simp] theorem settled_done : done.settled = true := rfl

end Tag

/-- A filled expression whose nodes are tagged. -/
inductive Node (α : Type u)
  | const (tag : Tag) (value : α)
  | var (tag : Tag) (name : String)
  | unary (tag : Tag) (op : UnaryOp) (operand : Node α)
  | binary (tag : Tag) (op : BinaryOp) (left right : Node α)

namespace Node

variable {α : Type u}

/-- The expression that a node stands for. -/
def expr : Node α → Expr α
  | const _ v => .const v
  | var _ x => .var x
  | unary _ op x => .unary op x.expr
  | binary _ op l r => .binary op l.expr r.expr

/-- A filled expression with fresh tags. -/
def ofExpr? : Expr α → Option (Node α)
  | .hole => none
  | .const v => some (const .fresh v)
  | .var x => some (var .fresh x)
  | .unary op x => (unary .fresh op ·) <$> ofExpr? x
  | .binary op l r => do return binary .fresh op (← ofExpr? l) (← ofExpr? r)

/-- The number of nodes. -/
def size : Node α → Nat
  | const .. | var .. => 1
  | unary _ _ x => 1 + x.size
  | binary _ _ l r => 1 + (l.size + r.size)

def tag : Node α → Tag
  | const t _ | var t _ | unary t _ _ | binary t _ _ _ => t

def withTag (t : Tag) : Node α → Node α
  | const _ v => const t v
  | var _ x => var t x
  | unary _ op x => unary t op x
  | binary _ op l r => binary t op l r

/-- Marks the topmost node as optimized. -/
def settle (n : Node α) : Node α := n.withTag .done

/-- The same tree without marks. -/
def clean : Node α → Node α
  | const _ v => const .fresh v
  | var _ x => var .fresh x
  | unary _ op x => unary .fresh op x.clean
  | binary _ op l r => binary .fresh op l.clean r.clean

/-- Whether a node is a constant. -/
def isConst : Node α → Bool
  | const .. => true
  | _ => false

/-- The direct operands. -/
def operands : Node α → List (Node α)
  | const .. | var .. => []
  | unary _ _ x => [x]
  | binary _ _ l r => [l, r]

/-! ### Making nodes -/

def newConst (v : α) : Node α := const .fresh v

def newUnary (op : UnaryOp) (x : Node α) : Node α := unary .fresh op x

def newBinary (op : BinaryOp) (l r : Node α) : Node α := binary .fresh op l r

/-! ### Parts -/

/-- The operand in a slot. -/
def operand? : Node α → Slot → Option (Node α)
  | unary _ _ x, .operand => some x
  | binary _ _ l _, .left => some l
  | binary _ _ _ r, .right => some r
  | _, _ => none

/-- The part at the end of a path. -/
def at? (n : Node α) : Path → Option (Node α)
  | [] => some n
  | s :: p => (n.operand? s).bind (·.at? p)

/-- Puts a tree in the place of the part at the end of a path.  All nodes on
the way are fresh afterwards. -/
def put (n : Node α) (p : Path) (m : Node α) : Node α :=
  match p, n with
  | [], _ => m
  | .operand :: p, unary _ op x => unary .fresh op (x.put p m)
  | .left :: p, binary _ op l r => binary .fresh op (l.put p m) r
  | .right :: p, binary _ op l r => binary .fresh op l (r.put p m)
  | _ :: _, n => n

@[simp] theorem at?_nil (n : Node α) : n.at? [] = some n := rfl

theorem at?_cons (n : Node α) (s : Slot) (p : Path) :
    n.at? (s :: p) = (n.operand? s).bind (·.at? p) := rfl

theorem at?_append (n : Node α) (p q : Path) : n.at? (p ++ q) = (n.at? p).bind (·.at? q) := by
  induction p generalizing n with
  | nil => rfl
  | cons s p ih => cases h : n.operand? s <;> simp [at?_cons, h, ih]

theorem expr_operand? (n : Node α) (s : Slot) :
    n.expr.operand? s = (n.operand? s).map expr := by
  cases n <;> cases s <;> rfl

/-- Looking for a part and forgetting the tags can be done in either order. -/
theorem expr_at? (n : Node α) (p : Path) : n.expr.at? p = (n.at? p).map expr := by
  induction p generalizing n with
  | nil => rfl
  | cons s p ih => cases h : n.operand? s <;> simp [at?_cons, Expr.at?_cons, expr_operand?, h, ih]

@[simp] theorem put_nil (n m : Node α) : n.put [] m = m := by cases n <;> rfl

/-! ### Forgetting the tags -/

@[simp] theorem expr_withTag (t : Tag) (n : Node α) : (n.withTag t).expr = n.expr := by
  cases n <;> rfl

@[simp] theorem expr_settle (n : Node α) : n.settle.expr = n.expr := expr_withTag _ n

@[simp] theorem expr_clean (n : Node α) : n.clean.expr = n.expr := by
  induction n with
  | const => rfl
  | var => rfl
  | unary _ _ _ ih => simp [clean, expr, ih]
  | binary _ _ _ _ ihl ihr => simp [clean, expr, ihl, ihr]

@[simp] theorem size_expr (n : Node α) : n.expr.size = n.size := by
  induction n with
  | const => rfl
  | var => rfl
  | unary _ _ _ ih => simp [expr, Expr.size, size, ih]
  | binary _ _ _ _ ihl ihr => simp [expr, Expr.size, size, ihl, ihr]

/-- Tagged trees have no empty slots. -/
@[simp] theorem isFilled_expr (n : Node α) : n.expr.isFilled = true := by
  induction n with
  | const => rfl
  | var => rfl
  | unary _ _ _ ih => simp [expr, Expr.isFilled, ih]
  | binary _ _ _ _ ihl ihr => simp [expr, Expr.isFilled, ihl, ihr]

/-- Tagging an expression and forgetting the tags gives the expression. -/
theorem expr_of_ofExpr? {e : Expr α} {n : Node α} (h : ofExpr? e = some n) : n.expr = e := by
  induction e generalizing n with
  | hole => simp [ofExpr?] at h
  | const v =>
    obtain rfl : const .fresh v = n := by simpa [ofExpr?] using h
    rfl
  | var x =>
    obtain rfl : var .fresh x = n := by simpa [ofExpr?] using h
    rfl
  | unary op x ih =>
    obtain ⟨y, hy, rfl⟩ : ∃ y, ofExpr? x = some y ∧ unary .fresh op y = n := by
      simpa [ofExpr?] using h
    simp [expr, ih hy]
  | binary op l r ihl ihr =>
    obtain ⟨y, hy, z, hz, rfl⟩ : ∃ y, ofExpr? l = some y ∧ ∃ z, ofExpr? r = some z ∧
        binary .fresh op y z = n := by
      simpa [ofExpr?, bind, Option.bind_eq_some_iff] using h
    simp [expr, ihl hy, ihr hz]

/-- Exactly the filled expressions can be tagged. -/
theorem isSome_ofExpr? (e : Expr α) : (ofExpr? e).isSome = e.isFilled := by
  induction e with
  | hole => rfl
  | const => rfl
  | var => rfl
  | unary _ x ih => cases h : ofExpr? x <;> simp_all [ofExpr?, Expr.isFilled]
  | binary _ l r ihl ihr =>
    cases hl : ofExpr? l <;> cases hr : ofExpr? r <;> simp_all [ofExpr?, Expr.isFilled]

end Node

/-! ### Steps -/

/-- Whether a tree has changed. -/
inductive Change
  | unchanged
  | changed
  deriving DecidableEq

/-- The change made by two steps in a row. -/
def Change.andThen : Change → Change → Change
  | unchanged, c => c
  | changed, _ => changed

@[simp] theorem Change.changed_andThen (c : Change) : changed.andThen c = changed := rfl

@[simp] theorem Change.unchanged_andThen (c : Change) : unchanged.andThen c = c := rfl

/-- A simplified tree and whether it differs from the one before. -/
structure Step (α : Type u) where
  node : Node α
  change : Change

end Formula
