/-
Formula/Proofs/Graph/Idempotence.lean

Optimizing what the optimizer has made.  The root of a result is marked, so
running the optimizer on it does nothing, in every graph.

A copy of the result has no marks.  Optimizing it gives the same expression
again, if no limit of passes has been reached and the marks of the tree came
from such runs of the same optimizer (`optimizeTree_settles`).  Both conditions
are needed (`optimizeTree_not_idempotent`).  A node that needs as many merges as
there are passes is left with parts that are not optimized.  And a mark that was
set by hand keeps the optimizer from what it would do to a copy.
-/
import Formula.Proofs.Graph.Incremental

namespace Formula

namespace Node

universe u

variable {α : Type u} [Arithmetic α] {s : Settings α} {env : Environment α} {n : Node α}

/-- What is settled is skipped. -/
theorem optimize_of_settled (h : n.tag.settled = true) : optimize s env n = ⟨⟨n, .unchanged⟩, []⟩ := by
  obtain ⟨w, hw⟩ : ∃ w, n.expr.weight = w + 1 := ⟨n.expr.weight - 1, by have := one_le_weight n; omega⟩
  rw [optimize, hw, optimizeWithin, if_pos h]
  rfl

/-- The optimizer settles the root of a tree. -/
theorem settled_optimizeTree (n : Node α) : (optimizeTree s env n).value.tag.settled = true :=
  settled_optimizeWithin (Nat.le_refl n.expr.weight)

/-- A run on a tree whose marked parts are fixed gives such a tree, if it reaches
no limit. -/
theorem justified_optimizeTree (hn : Justified (Expr.Fixed s env) n)
    (hclear : ∀ e ∈ (optimizeTree s env n).trace, e.NoLimit) :
    Justified (Expr.Fixed s env) (optimizeTree s env n).value :=
  (fixed_optimizeWithin n.expr.weight).wholeTree hn (Nat.le_refl _) hclear

/-- What such a run gives is a fixed point: without its marks it is optimized to
itself. -/
theorem expr_optimizeTree_twice (hn : Justified (Expr.Fixed s env) n)
    (hclear : ∀ e ∈ (optimizeTree s env n).trace, e.NoLimit) :
    (optimizeTree s env (optimizeTree s env n).value.clean).value.expr
      = (optimizeTree s env n).value.expr := by
  rw [expr_optimizeTree_clean (justified_optimizeTree hn hclear)]
  generalize hm : (optimizeTree s env n).value = m
  have hsettled : m.tag.settled = true := hm ▸ settled_optimizeTree n
  rw [optimizeTree, wholeTree, optimize_of_settled hsettled]
  rfl

end Node

namespace Graph

variable {α : Type} [Numeral α] [Arithmetic α] {s : Settings α} {env : Environment α}
  {g g' : Graph α} {i : Nat} {n : Node α} {F : Finset Nat}

/-- A run in a graph on a cell that is marked does nothing. -/
theorem optimize_of_isSettled (hn : Holds g i n F) (h : g.isSettled i = true) :
    Editing.optimize s env i g = ⟨(g, .ok none), []⟩ := by
  obtain ⟨w, hw⟩ : ∃ w, n.expr.weight = w + 1 :=
    ⟨n.expr.weight - 1, by have := Node.one_le_weight n; omega⟩
  have hrun : (Editing.optimizeWithin s env (w + 1) i).Runs g [] g none := by
    refine .silent .get ?_
    rw [if_pos h]
    exact .pure
  have hfuel : (Editing.optimize s env i).Runs g [] g none := by
    refine .silent .get ?_
    rw [hn.expr_eq, hw]
    exact hrun
  exact hfuel

/-- A run on a tree, and a run on a copy of the result: what the runs on trees
give. -/
theorem optimizeTree_then_copy (s : Settings α) (env : Environment α) (hg : Sound (fun _ => True) g) (hn : Holds g i n F) :
    ∃ g₁ root E g₂ c g₃ root' events', g.optimizeTree s env i
        = ⟨(g₁, .ok root), (n.optimizeTree s env).trace⟩ ∧
      Holds g₁ root (n.optimizeTree s env).value E ∧ g₁.copy root = (g₂, some c) ∧
      g₂.optimizeTree s env c = ⟨(g₃, .ok root'), events'⟩ ∧
      g₃.expr root' = ((n.optimizeTree s env).value.clean.optimizeTree s env).value.expr := by
  obtain ⟨g₁, root, E, hrun, hroot, -, hedits, -⟩ := optimizeTree_spec (marksOnly_true s env) hg hn
    fun _ _ => trivial
  have hg₁ := hg.edits hedits
  obtain ⟨g₂, c, D, hcopy, hc⟩ := copy_holds hroot
  have hg₂ : Sound (fun _ => True) g₂ := by
    have hcopied := hg₁.edits (edited_build g₁ (g₁.expr root))
    rwa [← copy, hcopy] at hcopied
  obtain ⟨g₃, root', E', hrun', hroot', -⟩ := optimizeTree_spec (marksOnly_true s env) hg₂ hc
    fun _ _ => trivial
  exact ⟨g₁, root, E, g₂, c, g₃, root', _, hrun, hroot, hcopy, hrun', hroot'.expr_eq⟩

/-- **Optimizing twice.**  In every reachable graph the optimizer succeeds on a
well-formed tree, and does nothing when it is run on the result.  If the graph
has been tended by the same optimizer and the run reaches no limit, it also makes
the same expression of a copy of the result. -/
theorem optimizeTree_settles (s : Settings α) (env : Environment α) (hg : Reachable g)
    (hi : g.isWellFormed i = true) :
    ∃ g₁ root events, g.optimizeTree s env i = ⟨(g₁, .ok root), events⟩ ∧
      Editing.optimize s env root g₁ = ⟨(g₁, .ok none), []⟩ ∧
      (Tended s env g → (∀ e ∈ events, e.NoLimit) →
        ∃ g₂ c g₃ root' events', g₁.copy root = (g₂, some c) ∧
          g₂.optimizeTree s env c = ⟨(g₃, .ok root'), events'⟩ ∧
          g₃.expr root' = g₁.expr root ∧ (g₃.expr root').text = (g₁.expr root).text) := by
  obtain ⟨n, F, hn⟩ := isWellFormed_iff.mp hi
  obtain ⟨g₁, root, E, g₂, c, g₃, root', events', hrun, hroot, hcopy, hrun', hexpr⟩ :=
    optimizeTree_then_copy s env hg.sound hn
  have hsettled : g₁.isSettled root = true := by
    have htag := hroot.tag_eq
    exact (congrArg Tag.settled htag).symm.trans (Node.settled_optimizeTree n)
  refine ⟨g₁, root, _, hrun, optimize_of_isSettled hroot hsettled, fun htended hlimit => ?_⟩
  have hsame : g₃.expr root' = g₁.expr root := by
    rw [hexpr, hroot.expr_eq]
    exact Node.expr_optimizeTree_twice (hn.justified htended.sound.marks) hlimit
  exact ⟨g₂, c, g₃, root', events', hcopy, hrun', hsame, by rw [hsame]⟩

/-- The product of `x + 0` and `3`. -/
def plainProduct : Graph Float :=
  ((((empty.add (.var "x")).1.add (.const 0)).1.newBinary .add (some 0) (some 1)).1.add
    (.const 3)).1.newBinary .mul (some 2) (some 3) |>.1

/-- A product, optimized twice. -/
theorem optimizeTree_settles_plainProduct :
    ∃ g₁ root events, plainProduct.optimizeTree .default .empty 4 = ⟨(g₁, .ok root), events⟩ ∧
      Editing.optimize .default .empty root g₁ = ⟨(g₁, .ok none), []⟩ ∧
      ∃ g₂ c g₃ root' events', g₁.copy root = (g₂, some c) ∧
        g₂.optimizeTree .default .empty c = ⟨(g₃, .ok root'), events'⟩ ∧
        g₃.expr root' = g₁.expr root ∧ (g₃.expr root').text = (g₁.expr root).text := by
  have hreachable : Reachable plainProduct :=
    .newBinary _ _ _ <| .newConst _ <| .newBinary _ _ _ <| .newConst _ <| .newVar _ .empty
  have htended : Tended .default .empty plainProduct :=
    .newBinary _ _ _ <| .newConst _ <| .newBinary _ _ _ <| .newConst _ <| .newVar _ .empty
  have hlimit : ∀ e ∈ (plainProduct.optimizeTree .default .empty 4).trace, e.NoLimit := by
    decide +kernel
  obtain ⟨g₁, root, events, hrun, hnone, hagain⟩ := optimizeTree_settles .default .empty
    hreachable (i := 4) (by decide +kernel)
  rw [hrun] at hlimit
  exact ⟨g₁, root, events, hrun, hnone, hagain htended hlimit⟩

/-! ### Where it fails -/

/-- Optimizing a copy of the result gives another text. -/
def ChangesAgain (s : Settings α) (env : Environment α) (g : Graph α) (i : Nat) : Prop :=
  ∃ g₁ root events g₂ c g₃ root' events', g.optimizeTree s env i = ⟨(g₁, .ok root), events⟩ ∧
    g₁.copy root = (g₂, some c) ∧ g₂.optimizeTree s env c = ⟨(g₃, .ok root'), events'⟩ ∧
    (g₃.expr root').text ≠ (g₁.expr root).text

theorem changesAgain_of_trees (hg : Sound (fun _ => True) g) (hn : Holds g i n F)
    (h : ((n.optimizeTree s env).value.clean.optimizeTree s env).value.expr.text
      ≠ (n.optimizeTree s env).value.expr.text) : ChangesAgain s env g i := by
  obtain ⟨g₁, root, E, g₂, c, g₃, root', events', hrun, hroot, hcopy, hrun', hexpr⟩ :=
    optimizeTree_then_copy s env hg hn
  refine ⟨g₁, root, _, g₂, c, g₃, root', events', hrun, hcopy, hrun', ?_⟩
  rwa [hexpr, hroot.expr_eq]

/-- The product of `2 ^ k` variables. -/
def doubled : Nat → Node Float
  | 0 => .var .fresh "x"
  | k + 1 => .binary .fresh .mul (doubled k) (doubled k)

/-- A square times the product of 64 variables: as many merges as there are
passes. -/
def longProduct : Node Float :=
  .binary .fresh .mul (.binary .fresh .pow (.var .fresh "x") (.const .fresh 2)) (doubled 6)

theorem changesAgain_longProduct :
    ∃ g i, empty.build longProduct.expr = (g, some i) ∧ g.isWellFormed i = true ∧
      ChangesAgain .default .empty g i := by
  obtain ⟨g, i, E, hbuild, hmakes⟩ := build_spec (K := fun _ _ => True) (R := fun _ => True) longProduct
    fun _ _ => trivial
  have hsound : Sound (fun _ => True) g := by
    have hbuilt := (sound_empty fun _ => True).edits (edited_build empty longProduct.expr)
    rwa [hbuild] at hbuilt
  refine ⟨g, i, hbuild, isWellFormed_iff.mpr ⟨_, _, hmakes.holds⟩, ?_⟩
  -- the limit is reached at `x ^ (65 + 1)`, which is `x ^ 66` in the end
  exact changesAgain_of_trees hsound hmakes.holds (by decide +kernel)

/-- A sum with zero that is marked by hand. -/
def markedSum : Graph Float :=
  (((empty.add (.var "x")).1.add (.const 0)).1.newBinary .add (some 0) (some 1)).1.mark 2

theorem changesAgain_markedSum : ChangesAgain .default .empty markedSum 2 := by
  have hreachable : Reachable markedSum :=
    .mark 2 <| .newBinary _ _ _ <| .newConst _ <| .newVar _ .empty
  have hx : Holds markedSum 0 (.var (markedSum.tag 0) "x") {0} := .var rfl
  have hzero : Holds markedSum 1 (.const (markedSum.tag 1) 0) {1} := .const rfl
  have hsum := Holds.binary (g := markedSum) (i := 2) rfl rfl rfl (by decide) (by decide) (by decide)
    hx hzero
  exact changesAgain_of_trees hreachable.sound hsum (by decide +kernel)

/-- **Optimizing twice is not optimizing once** for a tree with as many merges as
there are passes, though it has no marks, and for a tree that was marked before
it was optimized. -/
theorem optimizeTree_not_idempotent :
    (∃ g i, empty.build longProduct.expr = (g, some i) ∧ g.isWellFormed i = true ∧
      ChangesAgain .default .empty g i) ∧
    Reachable markedSum ∧ markedSum.isWellFormed 2 = true ∧ ChangesAgain .default .empty markedSum 2 :=
  ⟨changesAgain_longProduct, .mark 2 <| .newBinary _ _ _ <| .newConst _ <| .newVar _ .empty,
    by decide +kernel, changesAgain_markedSum⟩

end Graph

end Formula
