/-
Formula/Proofs/Graph/Folding.lean

Optimizing against bindings.  If nothing in a tree is marked and all its variables
are bound, the optimizer makes a single constant of it, and this is the value that
evaluation gives: no rule is applied on the way (`optimizeTree_folds`).

If something is marked, the bindings need not take effect.  A mark says that a node
has been optimized, not against which bindings, so a marked node keeps variables
that have been bound since (`optimizeTree_keeps_bound`).  That is all that can go
wrong: where no marked node has a bound variable, none is left in the result
(`optimizeTree_binds`).
-/
import Formula.Bindings
import Formula.Proofs.Graph.Exactness
import Formula.Proofs.Graph.Idempotence
import Formula.Proofs.Simplify.Folding

namespace Formula

namespace Graph

variable {α : Type} [Numeral α] [Arithmetic α] {g : Graph α} {i : Nat} {names : List String}
  {values : List α} {b : Bindings α}

/-- **Folding is exact.**  If nothing in a well-formed tree is marked, then with
bindings for all its variables the optimizer makes a constant of it, which is the
value of the tree, and reports no rule.  Whatever the bindings, every rule that it
applies is applied to a node that has a variable without a binding. -/
theorem optimizeTree_folds (s : Settings α) (hg : Reachable g) (hi : g.isWellFormed i = true)
    (hmarks : ∀ p c, g.follow i p = some c → g.isSettled c = false)
    (hb : Bindings.make names (some values) = .ok b) :
    ∃ g' root events, g.optimizeTree s b.environment i = ⟨(g', .ok root), events⟩ ∧
      ((∀ x ∈ (g.expr i).vars, b.contains x) →
        ∃ v, (g.expr i).eval b.environment = .ok v ∧ g'.expr root = .const v ∧
          events = [.optimized (g.expr i).size 1]) ∧
      ∀ rule before after, .applied rule before after ∈ events → ∃ x ∈ before.vars, ¬b.contains x := by
  obtain ⟨n, F, hn⟩ := isWellFormed_iff.mp hi
  have hunmarked : n.IsUnmarked := hn.justified_of_follow fun p c hc hsettled => by
    rw [hmarks p c hc] at hsettled
    cases hsettled
  obtain ⟨g', root, E, hrun, hroot, -⟩ := optimizeTree_spec (marksOnly_true s b.environment) hg.sound hn
    fun _ _ => trivial
  refine ⟨g', root, _, hrun, fun hbound => ?_, fun rule before after happlied => ?_⟩
  · rw [hn.expr_eq] at hbound ⊢
    obtain ⟨v, hv⟩ := (Expr.exists_eval_iff n.isFilled_expr).mpr fun x hx =>
      (Bindings.exists_environment_iff hb).mpr (hbound x hx)
    obtain ⟨c, hfold⟩ := Node.optimizeWithin_of_eval (s := s) hunmarked hv (Nat.le_refl n.expr.weight)
    have htree : n.optimizeTree s b.environment = ⟨.const .done v, [.optimized n.size 1]⟩ := by
      simp [Node.optimizeTree, Node.wholeTree, Node.optimize, hfold, Traced.report, Bind.bind, Pure.pure,
        Node.size]
    rw [htree] at hroot ⊢
    exact ⟨v, hv, hroot.expr_eq, by rw [n.size_expr]⟩
  · have hspares : Node.SparesValues b.environment n.expr.weight
        (Node.optimizeWithin s b.environment n.expr.weight) := Node.sparesValues_optimizeWithin _
    obtain ⟨x, hx, hnone⟩ := hspares.wholeTree (hunmarked.imp fun _ => False.elim) (Nat.le_refl _) _ happlied
    exact ⟨x, hx, (Bindings.environment_eq_none_iff hb).mp hnone⟩

/-- The difference of a variable and itself. -/
def vanishingDifference : Graph Float :=
  ((empty.add (.var "x")).1.add (.var "x")).1.newBinary .sub (some 0) (some 1) |>.1

/-- At infinity the difference is NaN, and that is what it is folded to, though a rule
would make it zero. -/
theorem optimizeTree_folds_vanishingDifference :
    ∃ b g' root v, Bindings.make ["x"] (some [1 / 0]) = .ok b ∧
      vanishingDifference.optimizeTree .default b.environment 2 = ⟨(g', .ok root), [.optimized 3 1]⟩ ∧
      g'.expr root = .const v ∧ v.isNaN := by
  have hreachable : Reachable vanishingDifference := .newBinary _ _ _ <| .newVar _ <| .newVar _ .empty
  have hunmarked : ∀ c, vanishingDifference.isSettled c = false := fun c => by
    rcases Nat.lt_or_ge c 3 with hc | hc
    · exact (by decide +kernel : ∀ c < 3, vanishingDifference.isSettled c = false) c hc
    · exact isSettled_of_le hc
  have hexpr : vanishingDifference.expr 2 = .binary .sub (.var "x") (.var "x") := by decide +kernel
  have hbindings : Bindings.make ["x"] (some [(1 / 0 : Float)]) = .ok ⟨["x"], some [1 / 0]⟩ := rfl
  obtain ⟨g', root, events, hrun, hfold, -⟩ := optimizeTree_folds .default hreachable (i := 2)
    (by decide +kernel) (fun _ c _ => hunmarked c) hbindings
  rw [hexpr] at hfold
  obtain ⟨v, hv, hroot, rfl⟩ := hfold (by decide)
  refine ⟨_, g', root, v, hbindings, hrun, hroot, ?_⟩
  obtain rfl := Except.ok.inj hv
  decide +kernel

/-! ### Marks and bindings -/

/-- **Optimizing against bindings leaves no bound variable**, if no marked node of
the tree has one. -/
theorem optimizeTree_binds (s : Settings α) (hg : Reachable g) (hi : g.isWellFormed i = true)
    (hb : Bindings.make names (some values) = .ok b)
    (hmarks : ∀ p c, g.follow i p = some c → g.isSettled c = true → ∀ x ∈ (g.expr c).vars, ¬b.contains x) :
    ∃ g' root events, g.optimizeTree s b.environment i = ⟨(g', .ok root), events⟩ ∧
      g'.isWellFormed root = true ∧ ∀ x ∈ (g'.expr root).vars, ¬b.contains x := by
  obtain ⟨n, F, hn⟩ := isWellFormed_iff.mp hi
  simp only [← Bindings.environment_eq_none_iff hb] at hmarks ⊢
  obtain ⟨g', root, E, hrun, hroot, -⟩ := optimizeTree_spec (marksOnly_true s b.environment) hg.sound hn
    fun _ _ => trivial
  refine ⟨g', root, _, hrun, isWellFormed_iff.mpr ⟨_, _, hroot⟩, ?_⟩
  rw [hroot.expr_eq]
  exact (Node.unbound_optimizeWithin n.expr.weight n (hn.justified_of_follow hmarks) (Nat.le_refl _)
    fun _ _ => trivial).2

/-- The sum of `x` and the product of `y` and three. -/
def sumWithProduct : Graph Float :=
  ((((empty.add (.var "x")).1.add (.var "y")).1.add (.const 3)).1.newBinary .mul (some 1)
    (some 2)).1.newBinary .add (some 0) (some 3) |>.1

theorem reachable_sumWithProduct : Reachable sumWithProduct :=
  .newBinary _ _ _ <| .newBinary _ _ _ <| .newConst _ <| .newVar _ <| .newVar _ .empty

/-- The product is marked, and `x` is bound. -/
theorem optimizeTree_binds_sumWithProduct :
    ∃ b g' root events, Bindings.make ["x"] (some [2]) = .ok b ∧
      (sumWithProduct.mark 3).optimizeTree .default b.environment 4 = ⟨(g', .ok root), events⟩ ∧
      g'.isWellFormed root = true ∧ ∀ x ∈ (g'.expr root).vars, ¬b.contains x := by
  have hmarks : ∀ c, (sumWithProduct.mark 3).isSettled c = true →
      ∀ x ∈ ((sumWithProduct.mark 3).expr c).vars, ¬(["x"].contains x) := fun c => by
    rcases Nat.lt_or_ge c 5 with hc | hc
    · revert c
      decide +kernel
    · rw [isSettled_of_le hc]
      nofun
  have hbindings : Bindings.make ["x"] (some [(2 : Float)]) = .ok ⟨["x"], some [2]⟩ := rfl
  obtain ⟨g', root, events, hrun, hroot, hvars⟩ := optimizeTree_binds .default
    (.mark 3 reachable_sumWithProduct) (i := 4) (by decide +kernel) hbindings fun _ c _ => hmarks c
  exact ⟨_, g', root, events, hbindings, hrun, hroot, hvars⟩

/-- A tree whose root is marked stays as it is, whatever the bindings. -/
theorem optimizeTree_of_isSettled (s : Settings α) (env : Environment α) (hg : Reachable g)
    (hi : g.isWellFormed i = true) (hsettled : g.isSettled i = true) :
    ∃ g' root events, g.optimizeTree s env i = ⟨(g', .ok root), events⟩ ∧ g'.expr root = g.expr i := by
  obtain ⟨n, F, hn⟩ := isWellFormed_iff.mp hi
  obtain ⟨g', root, E, hrun, hroot, -⟩ := optimizeTree_spec (marksOnly_true s env) hg.sound hn
    fun _ _ => trivial
  have htag : n.tag.settled = true := (congrArg Tag.settled hn.tag_eq).trans hsettled
  have hsame : (n.optimizeTree s env).value = n := by
    rw [Node.optimizeTree, Node.wholeTree, Node.optimize_of_settled htag]
    rfl
  exact ⟨g', root, _, hrun, by rw [hroot.expr_eq, hsame, hn.expr_eq]⟩

/-- The sum after it has been optimized without bindings. -/
def optimizedSum : Graph Float := (sumWithProduct.optimizeTree .default .empty 4).value.1

/-- **A bound variable may stay.**  The sum has been optimized, and optimizing it
against a binding of `y` leaves it as it is. -/
theorem optimizeTree_keeps_bound :
    ∃ b g' root events, Reachable optimizedSum ∧ optimizedSum.isWellFormed 4 = true ∧
      Bindings.make ["y"] (some [2]) = .ok b ∧ b.contains "y" ∧
      optimizedSum.optimizeTree .default b.environment 4 = ⟨(g', .ok root), events⟩ ∧
      "y" ∈ (g'.expr root).vars := by
  have hreachable : Reachable optimizedSum := .optimizeTree .default .empty 4 reachable_sumWithProduct
  have hi : optimizedSum.isWellFormed 4 = true := by decide +kernel
  obtain ⟨g', root, events, hrun, hexpr⟩ := optimizeTree_of_isSettled .default
    (Bindings.environment ⟨["y"], some [2]⟩) hreachable hi (by decide +kernel)
  exact ⟨_, g', root, events, hreachable, hi, rfl, rfl, hrun, by rw [hexpr]; decide +kernel⟩

end Graph

end Formula
