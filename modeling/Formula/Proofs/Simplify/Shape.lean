/-
Formula/Proofs/Simplify/Shape.lean

Moves on expressions.  Moves are carried out on tagged trees; here they are
carried out on plain expressions, which is the same with the tags forgotten
(`Node.expr_perform`).  What does not concern tags is proved on expressions.
-/
import Formula.Proofs.Simplify.Chain
import Formula.Simplify.Move

namespace Formula

universe u

namespace Expr

variable {α : Type u}

/-- The part at the end of a path, or else the whole. -/
def part (e : Expr α) (p : Path) : Expr α := (e.at? p).getD e

/-- The expression that a sketch makes of parts of another one. -/
def build (e : Expr α) : Sketch α → Expr α
  | .part p => e.part p
  | .const v => .const v
  | .unary op x => .unary op (e.build x)
  | .binary op l r => .binary op (e.build l) (e.build r)

/-- Puts an expression in the place of the part at the end of a path. -/
def put (e : Expr α) (p : Path) (f : Expr α) : Expr α :=
  match p, e with
  | [], _ => f
  | .operand :: p, .unary op x => .unary op (x.put p f)
  | .left :: p, .binary op l r => .binary op (l.put p f) r
  | .right :: p, .binary op l r => .binary op l (r.put p f)
  | _ :: _, e => e

/-- Rebuilds the part at the end of a path where it stands. -/
def rebuildAt (e : Expr α) (p : Path) (sk : Sketch α) : Expr α := e.put p ((e.part p).build sk)

/-- Carries out a splice. -/
def splice (e : Expr α) (s : Splice α) : Expr α := e.rebuildAt s.place s.sketch

/-- Makes an operator of the part at a path and of another expression. -/
def graft (e : Expr α) (op : BinaryOp) (p : Path) (f : Expr α) : Expr α :=
  e.put p (.binary op (e.part p) f)

/-- Carries out a move. -/
def perform [Arithmetic α] (e : Expr α) : Move α → Expr α
  | .rebuild sketch => e.build sketch
  | .pushSign factor change => (e.rebuildAt factor change.sketch).part [.operand]
  | .collapse kind kept v removed =>
    match e.splice? kind removed with
    | some s => (e.put kept (.const v)).splice s
    | none => e
  | .joinLogarithms op kept slot argument removed =>
    match e.splice? .additive removed with
    | some s => (e.splice s).graft op (s.shift kept ++ [slot]) (e.part argument)
    | none => e
  | .joinPowers op kept fromRoot exponent removed =>
    match e.splice? .multiplicative removed with
    | some s =>
      let normalized := if fromRoot then e.rebuildAt kept rootAsPower else e
      (normalized.splice s).graft op (s.shift kept ++ [.right]) ((e.part removed).build exponent)
    | none => e

/-! ### What putting leaves alone -/

theorem part_of_at? {e a : Expr α} {p : Path} (h : e.at? p = some a) : e.part p = a := by
  simp [part, h]

@[simp] theorem put_nil (e f : Expr α) : e.put [] f = f := by cases e <;> rfl

/-- Operators on the way to another part are the same. -/
theorem chainPath_put {kind : ChainKind} {e f : Expr α} {p q : Path} (h : ChainPath kind e p)
    (hpq : Path.Apart q p) : ChainPath kind (e.put q f) p := by
  induction h generalizing q with
  | here => exact .here
  | operand hp ih =>
      cases q with
      | nil => exact absurd rfl hpq.ne_nil
      | cons s q =>
          cases s with
          | operand => exact .operand (ih (Path.Apart.cons_iff.mp hpq))
          | left | right => exact .operand hp
  | left hop hp ih =>
      cases q with
      | nil => exact absurd rfl hpq.ne_nil
      | cons s q =>
          cases s with
          | left => exact .left hop (ih (Path.Apart.cons_iff.mp hpq))
          | operand | right => exact .left hop hp
  | right hop hp ih =>
      cases q with
      | nil => exact absurd rfl hpq.ne_nil
      | cons s q =>
          cases s with
          | right => exact .right hop (ih (Path.Apart.cons_iff.mp hpq))
          | operand | left => exact .right hop hp

/-- Only the operators on the way to a part matter for taking it out. -/
theorem splice?_put [Arithmetic α] {kind : ChainKind} {e f : Expr α} {p q : Path}
    (hpq : Path.Apart q p) : (e.put q f).splice? kind p = e.splice? kind p := by
  induction p generalizing e q with
  | nil => rfl
  | cons t p ih =>
      cases q with
      | nil => exact absurd rfl hpq.ne_nil
      | cons s q =>
          have hhere : (e.put (s :: q) f).spliceHere? kind t = e.spliceHere? kind t := by
            cases e <;> cases s <;> cases t <;> rfl
          rw [splice?, splice?, hhere]
          by_cases hst : s = t
          · subst hst
            have hih := fun x : Expr α => ih (e := x) (Path.Apart.cons_iff.mp hpq)
            cases e <;> cases s <;> simp [put, operand?, hih]
          · cases e <;> cases s <;> cases t <;> first | rfl | exact absurd rfl hst

/-- A splice in an operand changes the operand. -/
theorem splice_below {e x : Expr α} {s : Slot} {sp : Splice α} (hx : e.operand? s = some x)
    (hplace : (x.at? sp.place).isSome) : e.splice (sp.below [s]) = e.put [s] (x.splice sp) := by
  obtain ⟨a, ha⟩ := Option.isSome_iff_exists.mp hplace
  have hput : ∀ (p : Path) (f : Expr α), e.put (s :: p) f = e.put [s] (x.put p f) := by
    intro p f
    cases e <;> cases s <;> simp only [operand?, Option.some.injEq, reduceCtorEq] at hx <;>
      subst hx <;> simp [put]
  have hpart : e.part (s :: sp.place) = x.part sp.place := by
    rw [part_of_at? ha, part_of_at? (by simpa [at?_cons, hx] using ha)]
  cases sp <;> simp only [Splice.below, splice, rebuildAt, Splice.place, Splice.sketch,
    List.singleton_append] at hpart ⊢ <;> rw [hput, hpart]

end Expr

namespace Node

variable {α : Type u}

/-! ### Forgetting the tags -/

@[simp] theorem expr_part (n : Node α) (p : Path) : (n.part p).expr = n.expr.part p := by
  rw [part, Expr.part, expr_at?]
  cases n.at? p <;> rfl

@[simp] theorem expr_build (n : Node α) (sk : Sketch α) : (n.build sk).expr = n.expr.build sk := by
  induction sk with
  | part p => exact expr_part n p
  | const v => rfl
  | unary op x ih => simp [build, newUnary, expr, Expr.build, ih]
  | binary op l r ihl ihr => simp [build, newBinary, expr, Expr.build, ihl, ihr]

@[simp] theorem expr_put (n m : Node α) (p : Path) : (n.put p m).expr = n.expr.put p m.expr := by
  induction p generalizing n with
  | nil => cases n <;> rfl
  | cons s p ih => cases n <;> cases s <;> simp [put, expr, Expr.put, ih]

@[simp] theorem expr_rebuildAt (n : Node α) (p : Path) (sk : Sketch α) :
    (n.rebuildAt p sk).expr = n.expr.rebuildAt p sk := by
  simp [rebuildAt, Expr.rebuildAt]

@[simp] theorem expr_splice (n : Node α) (s : Splice α) : (n.splice s).expr = n.expr.splice s := by
  simp [splice, Expr.splice]

@[simp] theorem expr_graft (n m : Node α) (op : BinaryOp) (p : Path) :
    (n.graft op p m).expr = n.expr.graft op p m.expr := by
  simp [graft, Expr.graft, newBinary, expr]

/-- Carrying out a move and forgetting the tags can be done in either order. -/
@[simp] theorem expr_perform [Arithmetic α] (n : Node α) (m : Move α) :
    (n.perform m).expr = n.expr.perform m := by
  cases m with
  | rebuild sketch => simp [perform, Expr.perform]
  | pushSign factor change => simp [perform, Expr.perform]
  | collapse kind kept v removed =>
      simp only [perform, Expr.perform]
      cases n.expr.splice? kind removed with
      | none => rfl
      | some s => simp [newConst, expr]
  | joinLogarithms op kept slot argument removed =>
      simp only [perform, Expr.perform]
      cases n.expr.splice? .additive removed with
      | none => rfl
      | some s => simp
  | joinPowers op kept fromRoot exponent removed =>
      simp only [perform, Expr.perform]
      cases n.expr.splice? .multiplicative removed with
      | none => rfl
      | some s => cases fromRoot <;> simp [normalized]

end Node

end Formula
