/-
Formula/Proofs/Graph/Validity.lean

What the optimizer makes of a well-formed tree is a well-formed tree, on every
graph that can be reached (`isWellFormed_optimizeTree`).  So the check that the
settings may ask for never fails.
-/
import Formula.Proofs.Graph.Reachable
import Formula.Proofs.Graph.Running

namespace Formula

namespace Graph

variable {α : Type} [Numeral α] [Arithmetic α] {g : Graph α} {i : Nat}

omit [Numeral α] [Arithmetic α] in
/-- In the empty graph there is nothing to be wrong. -/
theorem sound_empty (J : Expr α → Prop) : Sound J .empty where
  honest i p h := by simp [parent?, cell?, empty] at h
  sizes i n F k _ hk := by simp [knownSize?, cell?, empty] at hk
  marks i n F _ hm := by simp [isSettled, cell?, empty] at hm

/-- Nothing is asked of marked trees. -/
theorem Reachable.sound (h : Reachable g) : Sound (fun _ => True) g where
  honest := h.edited.honest (sound_empty fun _ => True).honest
  sizes := (sound_empty fun _ => True).sizes.edits h.edited
  marks _ _ _ _ _ := trivial

/-- On every reachable graph and for all settings and environments, the
optimizer succeeds on a well-formed tree and gives the root of a well-formed
tree.  This root has no parent, and the sizes of all cells of the tree are
right. -/
theorem isWellFormed_optimizeTree (hg : Reachable g) (hi : g.isWellFormed i = true)
    (s : Settings α) (env : Environment α) :
    ∃ g' root events, g.optimizeTree s env i = ⟨(g', .ok root), events⟩ ∧
      g'.isWellFormed root = true ∧ g'.parent? root = none ∧
      ∀ p c, g'.follow root p = some c → (g'.size c).2 = (g'.expr c).size := by
  obtain ⟨n, F, hn⟩ := isWellFormed_iff.mp hi
  have hmarks : MarksOnly (fun _ => True) (fun _ => True) s env := fun _ _ _ _ _ => trivial
  obtain ⟨g', root, E, hrun, hholds, -, hedits, hparent⟩ := optimizeTree_spec hmarks hg.sound hn
    fun _ _ => trivial
  refine ⟨g', root, _, hrun, isWellFormed_iff.mpr ⟨_, _, hholds⟩, hparent, fun p c hc => ?_⟩
  obtain ⟨m, D, -, hm⟩ := hholds.exists_of_follow hc
  rw [hm.size_eq (hg.sound.edits hedits).sizes, hm.expr_eq, Node.size_expr]

/-- A sum with zero. -/
theorem isWellFormed_optimizeTree_sum : ∃ (g' : Graph Float) (root : Nat) (events : List (Event Float)),
    ((((empty.add (.var "x")).1.add (.const 0)).1.newBinary .add (some 0) (some 1)).1.optimizeTree
      .default .empty 2) = ⟨(g', .ok root), events⟩ ∧
      g'.isWellFormed root = true ∧ g'.parent? root = none ∧
      ∀ p c, g'.follow root p = some c → (g'.size c).2 = (g'.expr c).size := by
  exact isWellFormed_optimizeTree (.newBinary _ _ _ (.newConst _ (.newVar _ .empty)))
    (by decide +kernel) _ _

end Graph

end Formula
