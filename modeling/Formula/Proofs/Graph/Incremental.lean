/-
Formula/Proofs/Graph/Incremental.lean

Optimizing again after edits.  A graph is tended by an optimizer if it comes
about by any work on cells that marks nothing, and by runs of this one optimizer
on well-formed trees, as long as no run reaches the limit of passes.

In such a graph the optimizer would change nothing in a marked tree
(`Tended.sound`).  So what it skips makes no difference: it makes the same of a
tree and of a copy of it, which has no marks (`optimizeTree_copy`).

Nothing is said about where slots are filled from.  An edit may take a cell from
one owner and give it to another, or leave a tree that is not well formed; the
optimizer is only run on those that are.
-/
import Formula.Proofs.Graph.Validity
import Formula.Proofs.Simplify.Fixed

namespace Formula

namespace Graph

variable {α : Type} [Numeral α] [Arithmetic α] {s : Settings α} {env : Environment α}
  {g g' : Graph α} {i : Nat} {n : Node α} {F : Finset Nat}

/-- The graphs that come about by work that marks nothing and by runs of one
optimizer on well-formed trees that reach no limit. -/
inductive Tended (s : Settings α) (env : Environment α) : Graph α → Prop
  | empty : Tended s env .empty
  | newConst {g : Graph α} (v : α) : Tended s env g → Tended s env (g.add (.const v)).1
  | newVar {g : Graph α} (x : String) : Tended s env g → Tended s env (g.add (.var x)).1
  | newUnary {g : Graph α} (op : UnaryOp) (x : Option Nat) : Tended s env g →
      Tended s env (g.newUnary op x).1
  | newBinary {g : Graph α} (op : BinaryOp) (l r : Option Nat) : Tended s env g →
      Tended s env (g.newBinary op l r).1
  | setSlot {g : Graph α} (i : Nat) (slot : Slot) (new : Option Nat) : Tended s env g →
      Tended s env (g.setSlot i slot new)
  | setValue {g : Graph α} (i : Nat) (v : α) : Tended s env g → Tended s env (g.setValue i v)
  | detach {g : Graph α} (i : Nat) : Tended s env g → Tended s env (g.detach i)
  | invalidate {g : Graph α} (i : Nat) : Tended s env g → Tended s env (g.invalidate i)
  | size {g : Graph α} (i : Nat) : Tended s env g → Tended s env (g.size i).1
  | copy {g : Graph α} (i : Nat) : Tended s env g → Tended s env (g.copy i).1
  | replaceChild {g g' : Graph α} {owner : Nat} {old new : Option Nat} : Tended s env g →
      g.replaceChild owner old new = .ok g' → Tended s env g'
  | replaceNode {g g' : Graph α} {root target new j : Nat} : Tended s env g →
      g.replaceNode root target new = .ok (g', j) → Tended s env g'
  | optimizeTree {g : Graph α} (i : Nat) : Tended s env g → g.isWellFormed i = true →
      (∀ e ∈ (g.optimizeTree s env i).trace, e.NoLimit) →
      Tended s env (g.optimizeTree s env i).value.1

/-! ### Marked trees are fixed -/

omit [Numeral α] [Arithmetic α] in
theorem Sound.weaken {J : Expr α → Prop} (hg : Sound J g) : Sound (fun _ => True) g :=
  ⟨hg.honest, hg.sizes, fun _ _ _ _ _ => trivial⟩

omit [Numeral α] in
/-- Nothing is asked of what is marked. -/
theorem marksOnly_true (s : Settings α) (env : Environment α) : MarksOnly (fun _ => True) (fun _ => True) s env :=
  fun _ _ _ _ _ => trivial

omit [Numeral α] in
/-- A run that reaches no limit marks only what is fixed. -/
theorem marksOnly_fixed : MarksOnly (Expr.Fixed s env) Event.NoLimit s env :=
  fun fuel n hn hw hclear => (Node.fixed_optimizeWithin fuel n hn hw hclear).2

/-- A run in a graph reports what the run on the tree reports. -/
theorem trace_optimizeTree {J : Expr α → Prop} (hg : Sound J g) (hn : Holds g i n F) :
    (g.optimizeTree s env i).trace = (n.optimizeTree s env).trace := by
  obtain ⟨g', j, E, hrun, -⟩ := optimizeTree_spec (marksOnly_true s env) hg.weaken hn
    fun _ _ => trivial
  rw [hrun]

/-- A run that reaches no limit keeps the graph sound. -/
theorem Sound.optimizeTree (hg : Sound (Expr.Fixed s env) g) (hn : Holds g i n F)
    (hlimit : ∀ e ∈ (g.optimizeTree s env i).trace, e.NoLimit) :
    Sound (Expr.Fixed s env) (g.optimizeTree s env i).value.1 := by
  rw [trace_optimizeTree hg hn] at hlimit
  obtain ⟨g', j, E, hrun, -, -, hedits, -⟩ := optimizeTree_spec marksOnly_fixed hg hn hlimit
  rw [hrun]
  exact hg.edits hedits

/-- In a tended graph the optimizer would change nothing in a marked tree. -/
theorem Tended.sound (h : Tended s env g) : Sound (Expr.Fixed s env) g := by
  induction h with
  | empty => exact sound_empty _
  | newConst v _ ih => exact ih.edits (.single (.add (R := fun _ => True) rfl))
  | newVar x _ ih => exact ih.edits (.single (.add (R := fun _ => True) rfl))
  | newUnary op x _ ih => exact ih.edits (edited_newUnary _ op x)
  | newBinary op l r _ ih => exact ih.edits (edited_newBinary _ op l r)
  | setSlot i slot new _ ih => exact ih.edits (edited_setSlot _ i slot new)
  | setValue i v _ ih => exact ih.edits (.single (.setValue (R := fun _ => True) trivial))
  | detach i _ ih => exact ih.edits (.single (.detach (R := fun _ => True) trivial))
  | invalidate i _ ih => exact ih.edits (.single (.invalidate (R := fun _ => True) trivial))
  | size i _ ih => exact ih.edits (.single (.size (R := fun _ => True)))
  | copy i _ ih => exact ih.edits (edited_build _ _)
  | replaceChild _ hreplace ih => exact ih.edits (edited_replaceChild hreplace)
  | replaceNode _ hreplace ih => exact ih.edits (edited_replaceNode hreplace)
  | optimizeTree i _ hi hlimit ih =>
      obtain ⟨n, F, hn⟩ := isWellFormed_iff.mp hi
      exact ih.optimizeTree hn hlimit

/-! ### Copies -/

omit [Numeral α] [Arithmetic α] in
/-- A tree is copied to new cells, without its marks. -/
theorem copy_holds (hn : Holds g i n F) :
    ∃ g' c E, g.copy i = (g', some c) ∧ Holds g' c n.clean E := by
  obtain ⟨g', c, E, hbuild, hmakes⟩ := build_spec (K := fun _ _ => True) (R := fun _ => True) n
    fun _ _ => trivial
  exact ⟨g', c, E, by rw [copy, hn.expr_eq, hbuild], hmakes.holds⟩

omit [Numeral α] [Arithmetic α] in
/-- A tree without marks has none in the graph. -/
theorem Holds.isSettled_clean (h : Holds g i n.clean F) {p : Path} {c : Nat}
    (hc : g.follow i p = some c) : g.isSettled c = false := by
  obtain ⟨m, E, hm, hholds⟩ := h.exists_of_follow hc
  rw [Node.at?_clean] at hm
  obtain ⟨m, -, rfl⟩ := Option.map_eq_some_iff.mp hm
  have htag := hholds.tag_eq
  rw [Node.tag_clean] at htag
  exact congrArg Tag.settled htag.symm

/-- **Optimizing again agrees with optimizing from scratch.**  In a graph that an
optimizer has tended, it succeeds on every well-formed tree and on a copy of it,
which has no marks, and gives the same expression. -/
theorem optimizeTree_copy (hg : Tended s env g) (hi : g.isWellFormed i = true) :
    ∃ g₁ root events g₂ c g₃ root' events', g.optimizeTree s env i = ⟨(g₁, .ok root), events⟩ ∧
      g.copy i = (g₂, some c) ∧ (∀ p x, g₂.follow c p = some x → g₂.isSettled x = false) ∧
      g₂.optimizeTree s env c = ⟨(g₃, .ok root'), events'⟩ ∧ g₁.expr root = g₃.expr root' := by
  obtain ⟨n, F, hn⟩ := isWellFormed_iff.mp hi
  have hsound := hg.sound
  obtain ⟨g₁, root, E₁, hrun₁, hroot, -⟩ := optimizeTree_spec (marksOnly_true s env)
    hsound.weaken hn fun _ _ => trivial
  obtain ⟨g₂, c, D, hcopy, hc⟩ := copy_holds hn
  have hsound₂ : Sound (Expr.Fixed s env) g₂ := by
    have hcopied := hsound.edits (edited_build g (g.expr i))
    rwa [← copy, hcopy] at hcopied
  obtain ⟨g₃, root', E₃, hrun₃, hroot', -⟩ := optimizeTree_spec (marksOnly_true s env)
    hsound₂.weaken hc fun _ _ => trivial
  refine ⟨g₁, root, _, g₂, c, g₃, root', _, hrun₁, hcopy, ?_, hrun₃, ?_⟩
  · exact fun p x hx => hc.isSettled_clean hx
  · rw [hroot.expr_eq, hroot'.expr_eq]
    exact (Node.expr_optimizeTree_clean (hn.justified hsound.marks)).symm

/-- The product of `x + 0` and `3`, optimized; then the factor is set to one. -/
def editedProduct : Graph Float :=
  ((((((empty.add (.var "x")).1.add (.const 0)).1.newBinary .add (some 0) (some 1)).1.add
    (.const 3)).1.newBinary .mul (some 2) (some 3)).1.optimizeTree .default .empty 4).value.1.setValue 3 1

theorem tended_editedProduct : Tended .default .empty editedProduct :=
  .setValue 3 1 <| .optimizeTree 4
    (.newBinary _ _ _ <| .newConst _ <| .newBinary _ _ _ <| .newConst _ <| .newVar _ .empty)
    (by decide +kernel) (by decide +kernel)

/-- The edited product, optimized again. -/
theorem optimizeTree_copy_editedProduct :
    ∃ g₁ root events g₂ c g₃ root' events',
      editedProduct.optimizeTree .default .empty 4 = ⟨(g₁, .ok root), events⟩ ∧
        editedProduct.copy 4 = (g₂, some c) ∧
        (∀ p x, g₂.follow c p = some x → g₂.isSettled x = false) ∧
        g₂.optimizeTree .default .empty c = ⟨(g₃, .ok root'), events'⟩ ∧
        g₁.expr root = g₃.expr root' := by
  exact optimizeTree_copy tended_editedProduct (by decide +kernel)

end Graph

end Formula
