/-
Formula/Proofs/Graph/Growth.lean

The size of what the optimizer gives.  It may be larger than the tree was, and that
is how exponents are merged: roots are turned into powers first, and a factor under
a negation leaves the factor minus one (`optimizeTree_grows`).  It counts as simpler
because a leaf that is a variable has gone.

Nothing else adds to a tree (`optimizeTree_size_le`).  The size grows by no more than
the merges in the report of the run have added, at most three nodes each, and however
many merges there are, by no more than one node for each negation and natural
logarithm of the tree and two for each root.  The variable leaves never get more.
-/
import Formula.Proofs.Graph.Incremental
import Formula.Proofs.Simplify.Growth

namespace Formula

namespace Graph

section

variable {α : Type} [Arithmetic α] [Numeral α] {g : Graph α} {i : Nat}

/-- **What the optimizer may add to a tree.**  On a well-formed tree of a reachable
graph it succeeds, with all settings and environments.  The result is larger by no
more than what the reported merges of exponents add, at most three nodes each, and by
no more than the negations, the natural logarithms and twice the roots of the tree.
It has no more leaves that are variables, and without powers and roots it is not
larger at all. -/
theorem optimizeTree_size_le (hg : Reachable g) (hi : g.isWellFormed i = true) (s : Settings α)
    (env : Environment α) :
    ∃ g' root events, g.optimizeTree s env i = ⟨(g', .ok root), events⟩ ∧
      g'.isWellFormed root = true ∧
      (g'.size root).2 ≤ (g.size i).2 + growth events ∧ (∀ e ∈ events, e.growth ≤ 3) ∧
      (g'.size root).2 ≤ (g.size i).2 + ((g.expr i).countUnary .neg + (g.expr i).countUnary .ln
        + 2 * (g.expr i).countBinary .root) ∧
      (g'.expr root).tally (.freeLeaves α) ≤ (g.expr i).tally (.freeLeaves α) ∧
      ((g.expr i).In .powerless → (g'.size root).2 ≤ (g.size i).2) := by
  obtain ⟨n, F, hn⟩ := isWellFormed_iff.mp hi
  obtain ⟨g', root, E, hrun, hroot, -⟩ := optimizeTree_spec (marksOnly_true s env) hg.sound hn
    fun _ _ => trivial
  have hg' : Reachable g' := by
    have hreachable := Reachable.optimizeTree s env i hg
    rwa [hrun] at hreachable
  have hfilled := n.isFilled_expr
  have hsteps := Node.rewrites_optimizeTree s env n
  have haccounts : Accounts (n.optimizeTree s env).trace n.size (n.optimizeTree s env).value.size :=
    (Node.accounts_optimizeWithin s env n.expr.weight).wholeTree n
  refine ⟨g', root, _, hrun, isWellFormed_iff.mpr ⟨_, _, hroot⟩, ?_⟩
  rw [hn.size_eq hg.sound.sizes, hn.expr_eq, hroot.size_eq hg'.sound.sizes, hroot.expr_eq]
  obtain ⟨-, -, hleaves⟩ := Expr.tally_of_reflTransGen hsteps (Tally.steady_freeLeaves env) hfilled
    n.expr.over_all
  refine ⟨haccounts.size, haccounts.merge, ?_, hleaves, fun hin => ?_⟩
  · -- a run never adds to the weight, and the weight is at least the size
    have hweight : (n.optimizeTree s env).value.expr.weight ≤ n.expr.weight :=
      Node.weight_optimizeWithin s env n.expr.weight n
    rw [Expr.weight_eq, Expr.weight_eq, Node.size_expr, Node.size_expr] at hweight
    omega
  · obtain ⟨-, -, hsize⟩ := Expr.tally_of_reflTransGen hsteps (Tally.steady_nodes env) hfilled
      (Expr.in_iff_over.mp hin)
    rwa [Expr.tally_nodes, Expr.tally_nodes, Node.size_expr, Node.size_expr] at hsize

end

/-- The product of the `n`-th root of `x` and its negation. -/
def negatedRootProduct : Graph Float :=
  let g := (((empty.add (.var "n")).1.add (.var "x")).1.newBinary .root (some 0) (some 1)).1
  let g := (((g.add (.var "n")).1.add (.var "x")).1.newBinary .root (some 3) (some 4)).1
  ((g.newUnary .neg (some 5)).1.newBinary .mul (some 2) (some 6)).1

/-- One merge may add three nodes. -/
theorem optimizeTree_size_le_negatedRootProduct :
    (negatedRootProduct.size 7).2 = 8 ∧ ∃ g' root events,
      negatedRootProduct.optimizeTree .default .empty 7 = ⟨(g', .ok root), events⟩ ∧
      growth events = 3 ∧ (g'.size root).2 ≤ 8 + 3 := by
  have hreachable : Reachable negatedRootProduct :=
    .newBinary _ _ _ <| .newUnary _ _ <| .newBinary _ _ _ <| .newVar _ <| .newVar _ <|
      .newBinary _ _ _ <| .newVar _ <| .newVar _ .empty
  have hsize : (negatedRootProduct.size 7).2 = 8 := by decide +kernel
  have hgrowth : growth (negatedRootProduct.optimizeTree .default .empty 7).trace = 3 := by
    decide +kernel
  obtain ⟨g', root, events, hrun, -, hle, -⟩ :=
    optimizeTree_size_le hreachable (i := 7) (by decide +kernel) .default .empty
  rw [hrun] at hgrowth
  rw [hsize, hgrowth] at hle
  exact ⟨hsize, g', root, events, hrun, hgrowth, hle⟩

/-! ### Larger trees -/

/-- The optimizer makes a larger tree of the one below a cell. -/
def Enlarges (g : Graph Float) (i : Nat) : Prop :=
  ∃ g' root events, g.optimizeTree .default .empty i = ⟨(g', .ok root), events⟩ ∧
    g'.isWellFormed root = true ∧ (g.size i).2 < (g'.size root).2

theorem Enlarges.of_run {g : Graph Float} {i j a b : Nat}
    (hroot : (g.optimizeTree .default .empty i).value.2 = .ok j)
    (hwell : (g.optimizeTree .default .empty i).value.1.isWellFormed j = true)
    (hbefore : (g.size i).2 = a) (hafter : ((g.optimizeTree .default .empty i).value.1.size j).2 = b)
    (hlt : a < b) : g.Enlarges i := by
  unfold Enlarges
  generalize g.optimizeTree .default .empty i = run at hroot hwell hafter ⊢
  obtain ⟨⟨g', res⟩, events⟩ := run
  obtain rfl : res = .ok j := hroot
  exact ⟨g', j, events, rfl, hwell, by rw [hbefore]; exact hafter ▸ hlt⟩

/-- The product of the `n`-th root of `x` and itself. -/
def rootProduct : Graph Float :=
  let g := (((empty.add (.var "n")).1.add (.var "x")).1.newBinary .root (some 0) (some 1)).1
  let g := (((g.add (.var "n")).1.add (.var "x")).1.newBinary .root (some 3) (some 4)).1
  (g.newBinary .mul (some 2) (some 5)).1

/-- The product of `x ^ y` and `-x`. -/
def negatedPowerProduct : Graph Float :=
  let g := (((empty.add (.var "x")).1.add (.var "y")).1.newBinary .pow (some 0) (some 1)).1
  (((g.add (.var "x")).1.newUnary .neg (some 3)).1.newBinary .mul (some 2) (some 4)).1

/-- **The optimizer may make a tree larger.**  Two roots become one power, whose
exponent is a sum of two quotients; and a factor that joins a power from under a
negation leaves the factor minus one. -/
theorem optimizeTree_grows :
    (Reachable rootProduct ∧ rootProduct.isWellFormed 6 = true ∧ rootProduct.Enlarges 6) ∧
      Reachable negatedPowerProduct ∧ negatedPowerProduct.isWellFormed 5 = true ∧
        negatedPowerProduct.Enlarges 5 := by
  refine ⟨⟨?_, by decide +kernel, ?_⟩, ?_, by decide +kernel, ?_⟩
  · exact .newBinary _ _ _ <| .newBinary _ _ _ <| .newVar _ <| .newVar _ <| .newBinary _ _ _ <|
      .newVar _ <| .newVar _ .empty
  · refine .of_run (j := 9) (a := 7) (b := 9) ?_ ?_ ?_ ?_ (by decide) <;> decide +kernel
  · exact .newBinary _ _ _ <| .newUnary _ _ <| .newVar _ <| .newBinary _ _ _ <| .newVar _ <|
      .newVar _ .empty
  · refine .of_run (j := 5) (a := 6) (b := 7) ?_ ?_ ?_ ?_ (by decide) <;> decide +kernel

end Graph

end Formula
