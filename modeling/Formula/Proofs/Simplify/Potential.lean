/-
Formula/Proofs/Simplify/Potential.lean

What the rules use up.  A rule may make a tree larger: two roots become a root
and a product, a negated factor that joins a power leaves minus one behind, and
an exponent gets another operator.  The *potential* of an expression counts each
node by what rules can make of it, so that all rules but one lower it.  The
operators that others are made of count most: roots before powers and
logarithms, these before quotients and products, and these before sums.

A constant counts for more in two places.  To the left in a difference it leaves
a negation when it is taken out, and an exponent it is may become a difference in
which it is to the left.  This is its `surplus`.

The one rule that keeps the potential moves a negation down.  `Lower f e` says
that `f` has less potential than `e` wherever the two may stand, or the same with
less weight below negations.  There is no infinite descent
(`wellFounded_lower`), and parts may be lowered (`Lower.put`).
-/
import Formula.Proofs.Simplify.Putting

namespace Formula

universe u

/-- What a unary operator adds to the potential. -/
@[simp] def UnaryOp.potential : UnaryOp → Nat
  | neg => 4
  | ln => 20
  | _ => 3

/-- What a binary operator adds to the potential. -/
@[simp] def BinaryOp.potential : BinaryOp → Nat
  | add | sub => 1
  | max | min => 3
  | mul => 4
  | div => 5
  | pow => 10
  | log => 20
  | root => 40

namespace Expr

variable {α : Type u} {e f g a x : Expr α} {p : Path}

/-- What a constant counts for besides, to the left in a difference or in an
exponent. -/
def surplus : Expr α → Nat
  | const _ => 2
  | _ => 0

/-- The potential for changes. -/
@[simp] def potential : Expr α → Nat
  | hole => 0
  | const _ => 2
  | var _ => 5
  | unary op x => op.potential + x.potential
  | binary op l r =>
    op.potential + (l.potential + if op = .sub then l.surplus else 0)
      + (r.potential + if op = .pow then r.surplus else 0)

/-- The potential where a constant counts for more. -/
@[simp] def fullPotential (e : Expr α) : Nat := e.potential + e.surplus

/-- The weight below negations. -/
def signHeight : Expr α → Nat
  | unary op x => (if op = .neg then x.weight else 0) + x.signHeight
  | binary _ l r => l.signHeight + r.signHeight
  | _ => 0

@[simp] theorem surplus_const (v : α) : (const v).surplus = 2 := rfl

@[simp] theorem surplus_unary (op : UnaryOp) (x : Expr α) : (unary op x).surplus = 0 := rfl

@[simp] theorem surplus_binary (op : BinaryOp) (l r : Expr α) : (binary op l r).surplus = 0 := rfl

theorem surplus_le (e : Expr α) : e.surplus ≤ 2 := by cases e <;> simp [surplus]

theorem two_le_potential (he : e.isFilled) : 2 ≤ e.potential := by
  induction e with
  | hole => cases he
  | const | var => simp [potential]
  | unary op x ih =>
      have hx := ih he
      rw [potential]
      omega
  | binary op l r ihl ihr =>
      have hl := ihl (Bool.and_eq_true_iff.mp he).1
      rw [potential]
      omega

/-- What is no constant has more potential than a constant. -/
theorem five_le_potential (he : e.isFilled) (hconst : ∀ v, e ≠ const v) : 5 ≤ e.potential := by
  cases e with
  | hole => cases he
  | const v => exact absurd rfl (hconst v)
  | var => exact Nat.le_refl 5
  | unary op x =>
      have hx := two_le_potential (e := x) he
      have hop : 3 ≤ op.potential := by cases op <;> decide
      rw [potential]
      omega
  | binary op l r =>
      obtain ⟨hl, hr⟩ := Bool.and_eq_true_iff.mp he
      have hl := two_le_potential hl
      have hr := two_le_potential hr
      have hop : 1 ≤ op.potential := by cases op <;> decide
      rw [potential]
      omega

/-- With a proper part an expression is no constant. -/
theorem surplus_eq_zero (h : (e.at? p).isSome) (hp : p ≠ []) : e.surplus = 0 := by
  cases p with
  | nil => exact absurd rfl hp
  | cons s p => cases e <;> first | rfl | (cases s <;> cases h)

/-- With a part that is no constant an expression is none. -/
theorem surplus_eq_zero_of_part (h : e.at? p = some a) (ha : a.surplus = 0) : e.surplus = 0 := by
  by_cases hp : p = []
  · subst hp
    rwa [Option.some.inj h]
  · exact surplus_eq_zero (Option.isSome_of_eq_some h) hp

/-! ### Lower expressions -/

/-- The potential is lower wherever the expressions may stand, or it is the same and
there is less weight below negations. -/
def Lower (f e : Expr α) : Prop :=
  (f.potential < e.potential ∧ f.fullPotential < e.fullPotential) ∨
    (f.potential = e.potential ∧ f.surplus = e.surplus ∧ f.weight = e.weight ∧
      f.signHeight < e.signHeight)

theorem Lower.trans (h : Lower f e) (h' : Lower g f) : Lower g e := by
  unfold Lower fullPotential at *
  omega

/-- The potential of an expression that is no constant does not depend on where it
stands. -/
theorem lower_of_lt (he : e.surplus = 0) (h : f.fullPotential < e.potential) : Lower f e := by
  unfold Lower fullPotential at *
  omega

/-- There is no infinite descent. -/
theorem wellFounded_lower : WellFounded (Lower (α := α)) := by
  refine Subrelation.wf (r := InvImage (Prod.Lex (· < ·) (· < ·)) fun e => (e.potential, e.signHeight))
    ?_ (InvImage.wf _ (Prod.lex ⟨_, Nat.lt_wfRel.wf⟩ ⟨_, Nat.lt_wfRel.wf⟩).wf)
  rintro f e (⟨h, -⟩ | ⟨h, -, -, h'⟩)
  · exact .left _ _ h
  · rw [InvImage, h]
    exact .right _ h'

theorem Lower.unary (op : UnaryOp) (h : Lower f e) : Lower (unary op f) (unary op e) := by
  rcases h with ⟨hlt, -⟩ | ⟨heq, -, hw, hlt⟩
  · refine lower_of_lt rfl ?_
    simp only [fullPotential, potential, surplus_unary]
    omega
  · refine .inr ⟨by rw [potential, potential, heq], rfl, by rw [weight, weight, hw], ?_⟩
    rw [signHeight, signHeight, hw]
    omega

theorem Lower.left (op : BinaryOp) (r : Expr α) (h : Lower f e) :
    Lower (binary op f r) (binary op e r) := by
  rcases h with ⟨hlt, hlt'⟩ | ⟨heq, hs, hw, hlt⟩
  · unfold fullPotential at hlt'
    refine lower_of_lt rfl ?_
    simp only [fullPotential, potential, surplus_binary]
    by_cases hop : op = .sub <;> simp only [hop, if_true, if_false] <;> omega
  · refine .inr ⟨by rw [potential, potential, heq, hs], rfl, by rw [weight, weight, hw], ?_⟩
    rw [signHeight, signHeight]
    omega

theorem Lower.right (op : BinaryOp) (l : Expr α) (h : Lower f e) :
    Lower (binary op l f) (binary op l e) := by
  rcases h with ⟨hlt, hlt'⟩ | ⟨heq, hs, hw, hlt⟩
  · unfold fullPotential at hlt'
    refine lower_of_lt rfl ?_
    simp only [fullPotential, potential, surplus_binary]
    by_cases hop : op = .pow <;> simp only [hop, if_true, if_false] <;> omega
  · refine .inr ⟨by rw [potential, potential, heq, hs], rfl, by rw [weight, weight, hw], ?_⟩
    rw [signHeight, signHeight]
    omega

/-! ### Potential and putting -/

/-- Putting changes the potential by the difference of the parts, where constants may
or may not count for more. -/
theorem potential_put (h : e.at? p = some a) (f : Expr α) :
    (e.put p f).potential + a.potential = e.potential + f.potential ∨
      (e.put p f).potential + a.fullPotential = e.potential + f.fullPotential := by
  induction p generalizing e with
  | nil =>
      obtain rfl := Option.some.inj h
      rw [put_nil]
      omega
  | cons s p ih =>
      obtain ⟨x, hx, hat⟩ := Option.bind_eq_some_iff.mp h
      cases p with
      | nil =>
          obtain rfl := Option.some.inj hat
          unfold fullPotential
          cases e <;> cases s <;> simp only [operand?, Option.some.injEq, reduceCtorEq] at hx <;>
            subst hx <;> simp only [put, put_nil, potential]
          case unary.operand => omega
          case binary.left op l r =>
            by_cases hop : op = .sub <;> simp only [hop, if_true, if_false] <;> omega
          case binary.right op l r =>
            by_cases hop : op = .pow <;> simp only [hop, if_true, if_false] <;> omega
      | cons t p =>
          -- neither the operand nor what it becomes is a constant
          have hx' := ih hat
          have hsurplus : (x.put (t :: p) f).surplus = x.surplus := by
            cases x <;> cases t <;> rfl
          cases e <;> cases s <;> simp only [operand?, Option.some.injEq, reduceCtorEq] at hx <;>
            subst hx <;> simp only [put, potential, hsurplus] <;> omega

end Expr

end Formula
