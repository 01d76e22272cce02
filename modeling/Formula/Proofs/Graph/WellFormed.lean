/-
Formula/Proofs/Graph/WellFormed.lean

The check for well-formed trees decides whether a cell holds a tree
(`isWellFormed_iff`).
-/
import Formula.Graph.WellFormed
import Formula.Proofs.Graph.Tree

namespace Formula

universe u

namespace Graph

variable {α : Type u} {g : Graph α} {i : Nat} {is : List Nat} {E : Finset Nat}

/-- Cells hold trees that have no cell in common. -/
inductive AllHold (g : Graph α) : List Nat → Finset Nat → Prop
  | nil : AllHold g [] ∅
  | cons {i : Nat} {is : List Nat} {n : Node α} {F E : Finset Nat} : Holds g i n F →
      AllHold g is E → Disjoint F E → AllHold g (i :: is) (F ∪ E)

theorem exists_content_of_cell? {c : Cell α} (h : g.cell? i = some c) :
    g.content? i = some c.content := by
  rw [content?, h, Option.map_some]

/-- A cell that is filled holds a tree if its operands link back to it and hold
trees themselves. -/
theorem AllHold.of_operands {c : Cell α} (hc : g.cell? i = some c)
    (hfilled : c.content.isFilled = true)
    (hparents : c.content.operands.all (fun x => g.parent? x = some i) = true) (hi : i ∉ E)
    (h : AllHold g (c.content.operands ++ is) E) : ∃ E', AllHold g (i :: is) E' ∧ E' = insert i E := by
  have hcontent := exists_content_of_cell? hc
  cases hcc : c.content with
  | const v =>
      rw [hcc] at hcontent h
      exact ⟨_, .cons (.const hcontent) h (by simpa using hi), by simp⟩
  | var x =>
      rw [hcc] at hcontent h
      exact ⟨_, .cons (.var hcontent) h (by simpa using hi), by simp⟩
  | unary op x =>
      rw [hcc] at hcontent h hparents hfilled
      cases x with
      | none => simp [Content.isFilled, Content.slots] at hfilled
      | some x =>
          simp only [Content.operands, Content.slots, List.filterMap_cons, List.filterMap_nil,
            List.cons_append, List.nil_append, List.all_cons, List.all_nil, Bool.and_true,
            decide_eq_true_eq] at h hparents
          cases h with
          | @cons _ _ n F E hx hrest hdisj =>
              simp only [Finset.mem_union, not_or] at hi
              exact ⟨_, .cons (.unary hcontent hparents hi.1 hx) hrest
                (by simp [hi.2, hdisj]), by simp⟩
  | binary op l r =>
      rw [hcc] at hcontent h hparents hfilled
      cases l with
      | none => simp [Content.isFilled, Content.slots] at hfilled
      | some l =>
          cases r with
          | none => simp [Content.isFilled, Content.slots] at hfilled
          | some r =>
              simp only [Content.operands, Content.slots, List.filterMap_cons, List.filterMap_nil,
                List.cons_append, List.nil_append, List.all_cons, List.all_nil, Bool.and_true,
                Bool.and_eq_true, decide_eq_true_eq] at h hparents
              cases h with
              | @cons _ _ m A _ hl hrest hdisj =>
                  cases hrest with
                  | @cons _ _ n B E hr hrest hdisj' =>
                      simp only [Finset.mem_union, not_or] at hi
                      rw [Finset.disjoint_union_right] at hdisj
                      refine ⟨_, .cons (.binary hcontent hparents.1 hparents.2 hi.1 hi.2.1 hdisj.1 hl hr)
                        hrest ?_, by simp [Finset.union_assoc]⟩
                      simp [hi.2.2, hdisj.2, hdisj']

theorem AllHold.operands {c : Cell α} (hc : g.cell? i = some c) (h : AllHold g (i :: is) E) :
    c.content.isFilled = true ∧
      c.content.operands.all (fun x => g.parent? x = some i) = true ∧
      ∃ E', AllHold g (c.content.operands ++ is) E' ∧ i ∉ E' ∧ E = insert i E' := by
  have hcontent := exists_content_of_cell? hc
  cases h with
  | @cons _ _ n F E hn hrest hdisj =>
      cases hn with
      | const hv =>
          rw [hv] at hcontent
          rw [← Option.some.inj hcontent]
          exact ⟨rfl, rfl, E, hrest, by simpa using hdisj, by simp⟩
      | var hx =>
          rw [hx] at hcontent
          rw [← Option.some.inj hcontent]
          exact ⟨rfl, rfl, E, hrest, by simpa using hdisj, by simp⟩
      | unary hx hparent hi hx' =>
          rw [hx] at hcontent
          rw [← Option.some.inj hcontent]
          rw [Finset.disjoint_insert_left] at hdisj
          exact ⟨rfl, by simp [Content.operands, Content.slots, hparent], _,
            .cons hx' hrest hdisj.2, by simp [hi, hdisj.1], by simp⟩
      | binary hlr hl hr hiA hiB hAB hl' hr' =>
          rw [hlr] at hcontent
          rw [← Option.some.inj hcontent]
          rw [Finset.disjoint_insert_left, Finset.disjoint_union_left] at hdisj
          refine ⟨rfl, by simp [Content.operands, Content.slots, hl, hr], _,
            .cons hl' (.cons hr' hrest hdisj.2.2) (by simp [hAB, hdisj.2.1]), ?_, ?_⟩
          · simp [hiA, hiB, hdisj.1]
          · simp [Finset.union_assoc]

theorem AllHold.exists_tree (h : AllHold g [i] E) : ∃ n, Holds g i n E := by
  cases h with
  | cons hn hrest _ =>
      cases hrest with
      | nil => exact ⟨_, by simpa using hn⟩

/-- The walk succeeds exactly if the pending cells hold trees of unseen cells
that have no cell in common. -/
theorem areWellFormed_iff (g : Graph α) {unseen pending : List Nat} (hunseen : unseen.Nodup) :
    g.areWellFormed unseen pending = true ↔ ∃ E, AllHold g pending E ∧ ∀ c ∈ E, c ∈ unseen := by
  induction unseen, pending using areWellFormed.induct g with
  | case1 unseen => exact ⟨fun _ => ⟨∅, .nil, by simp⟩, fun _ => by rw [areWellFormed]⟩
  | case2 unseen i rest hi c hc xs ih =>
      have hrest : g.areWellFormed (unseen.erase i) (c.content.operands ++ rest) = true ↔ _ :=
        ih (hunseen.erase i)
      rw [areWellFormed, dif_pos hi, hc]
      simp only [Bool.and_eq_true, hrest]
      constructor
      · rintro ⟨⟨hfilled, hparents⟩, E, hE, hsub⟩
        have hiE : i ∉ E := fun hmem => hunseen.not_mem_erase (hsub i hmem)
        obtain ⟨_, hE', rfl⟩ := hE.of_operands hc hfilled hparents hiE
        refine ⟨_, hE', fun x hx => ?_⟩
        rcases Finset.mem_insert.mp hx with rfl | hx
        · exact hi
        · exact List.mem_of_mem_erase (hsub x hx)
      · rintro ⟨_, hE, hsub⟩
        obtain ⟨hfilled, hparents, E, hE', hiE, rfl⟩ := hE.operands hc
        refine ⟨⟨hfilled, hparents⟩, E, hE', fun x hx => ?_⟩
        have hne : x ≠ i := by
          rintro rfl
          exact hiE hx
        exact (List.mem_erase_of_ne hne).mpr (hsub x (Finset.mem_insert_of_mem hx))
  | case3 unseen i rest hi hc =>
      rw [areWellFormed, dif_pos hi, hc]
      refine ⟨nofun, fun ⟨E, hE, _⟩ => ?_⟩
      cases hE with
      | cons hn _ _ =>
          have hlt := hn.lt i hn.root_mem
          rw [← isSome_cell?_iff, hc] at hlt
          cases hlt
  | case4 unseen i rest hi =>
      rw [areWellFormed, dif_neg hi]
      refine ⟨nofun, fun ⟨E, hE, hsub⟩ => ?_⟩
      cases hE with
      | cons hn _ _ => exact absurd (hsub i (Finset.mem_union_left _ hn.root_mem)) hi

/-- The check decides whether a cell holds a tree. -/
theorem isWellFormed_iff : g.isWellFormed i = true ↔ ∃ n F, Holds g i n F := by
  rw [isWellFormed, areWellFormed_iff g List.nodup_range]
  constructor
  · rintro ⟨E, hE, -⟩
    obtain ⟨n, hn⟩ := hE.exists_tree
    exact ⟨n, E, hn⟩
  · rintro ⟨n, F, hn⟩
    refine ⟨F ∪ ∅, .cons hn .nil (by simp), fun c hc => ?_⟩
    rw [Finset.union_empty] at hc
    exact List.mem_range.mpr (hn.lt c hc)

end Graph

end Formula
