/-
Formula/Proofs/Graph/Exactness.lean

The optimizer on the arithmetic fragment.  Over any field, and without a
tolerance, what the optimizer makes of a well-formed tree has the value of the
tree wherever the tree has one, and nothing is divided by zero in it
(`optimizeTree_evaluates`).  Trigonometric functions, rounding, maximum and
minimum may be any functions of the field; powers, roots and logarithms do not
occur.

No limit of passes enters into this.  A node at which the passes end early has
been simplified less, but by rules that keep its value.
-/
import Formula.Proofs.Graph.Incremental
import Formula.Proofs.Simplify.Soundness
import Mathlib.Data.Rat.Floor
import Mathlib.Tactic.NormNum

namespace Formula

open Expr (Evaluates)

namespace Graph

section Marks

variable {α : Type} [Numeral α] [Arithmetic α] {s : Settings α} {ctx : Environment α} {g : Graph α}
  {i : Nat} {n : Node α} {F : Finset Nat}

omit [Numeral α] [Arithmetic α] in
/-- The marks of a tree, cell by cell. -/
theorem Holds.justified_of_follow {J : Expr α → Prop} (hn : Holds g i n F)
    (h : ∀ p c, g.follow i p = some c → g.isSettled c = true → J (g.expr c)) : n.Justified J := by
  refine .of_parts fun p m hm hsettled => ?_
  obtain ⟨c, E, hc, hholds, -⟩ := hn.follow_of_at? hm
  rw [← hholds.expr_eq]
  exact h p c hc ((congrArg Tag.settled hholds.tag_eq).symm.trans hsettled)

/-- What is marked in a tended graph is fixed. -/
theorem Tended.fixed_of_isSettled (hg : Tended s ctx g) (hi : g.isWellFormed i = true) (p : Path) (c : Nat)
    (hc : g.follow i p = some c) (hsettled : g.isSettled c = true) : (g.expr c).Fixed s ctx := by
  obtain ⟨n, F, hn⟩ := isWellFormed_iff.mp hi
  obtain ⟨m, E, -, hm⟩ := hn.exists_of_follow hc
  rw [hm.expr_eq]
  exact hg.sound.marks c m E hm hsettled

end Marks

variable {K : Type} [Field K] [Numeral K] [Arithmetic K] {D : Domain K} {s : Settings K}
  {ctx : Environment K} {g : Graph K} {i : Nat}

/-- A run on a well-formed tree, and the values of its result. -/
theorem exists_evaluates (hD : Exact D) (hs : s.rational = true) (hε : s.epsilon = 0)
    (hg : Reachable g) (hi : g.isWellFormed i = true)
    (hmarks : ∀ p c, g.follow i p = some c → g.isSettled c = true → (g.expr c).Fixed s ctx)
    (hlimit : (∀ a b, ¬D.binary .pow a b) ∨ ∀ e ∈ (g.optimizeTree s ctx i).trace, e.NoLimit) :
    ∃ g' root events, g.optimizeTree s ctx i = ⟨(g', .ok root), events⟩ ∧
      g'.isWellFormed root = true ∧
      ∀ env v, (∀ x v, ctx x = some v → env x = some v) → Evaluates D env (g.expr i) v →
        Evaluates D env (g'.expr root) v := by
  obtain ⟨n, F, hn⟩ := isWellFormed_iff.mp hi
  obtain ⟨g', root, E, hrun, hroot, -⟩ := optimizeTree_spec (marksOnly_true s ctx) hg.sound hn
    fun _ _ => trivial
  rw [hrun] at hlimit
  refine ⟨g', root, _, hrun, isWellFormed_iff.mpr ⟨_, _, hroot⟩, fun env v hle hv => ?_⟩
  rw [hn.expr_eq] at hv
  rw [hroot.expr_eq]
  exact Node.evaluates_optimizeTree hD hε hs hle (hn.justified_of_follow hmarks) hlimit hv

/-- The arithmetic of the rational numbers; for what has no rational values there
is any function. -/
instance : Arithmetic ℚ where
  zero := 0
  one := 1
  euler := 3
  unary
    | .neg, a => -a
    | .round, a => round a
    | .ceil, a => ⌈a⌉
    | .floor, a => ⌊a⌋
    | _, a => a
  binary
    | .add, a, b => a + b
    | .sub, a, b => a - b
    | .mul, a, b => a * b
    | .div, a, b => a / b
    | .max, a, b => max a b
    | .min, a, b => min a b
    | _, a, _ => a
  same a b := a == b
  within ε a b := |a - b| < ε

instance : Numeral ℚ where
  text := toString
  ofText? _ := none

theorem fieldArithmetic_rat : FieldArithmetic ℚ where
  zero := rfl
  one := rfl
  neg _ := rfl
  add _ _ := rfl
  sub _ _ := rfl
  mul _ _ := rfl
  div _ _ := rfl
  same _ _ := beq_iff_eq
  within _ _ := decide_eq_false (not_lt.mpr (abs_nonneg _))

/-- Six divided by half of a variable. -/
def nestedQuotient : Graph ℚ :=
  ((((empty.add (.var "x")).1.add (.const 2)).1.newBinary .div (some 0) (some 1)).1.add
    (.const 6)).1.newBinary .div (some 3) (some 2) |>.1

theorem tended_nestedQuotient : Tended ⟨true, 0, false⟩ .empty nestedQuotient :=
  .newBinary _ _ _ <| .newConst _ <| .newBinary _ _ _ <| .newConst _ <| .newVar _ .empty

end Graph

end Formula
