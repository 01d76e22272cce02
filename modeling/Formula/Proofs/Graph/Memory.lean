/-
Formula/Proofs/Graph/Memory.lean

What cells remember about the trees below them is right.  A remembered size is
the size of the tree (`SizesRight`), and a marked tree has the property `J` for
which trees are marked (`MarksRight`).  Only well-formed trees count: below a
cell with a shared or missing operand anything may be remembered.

Every edit keeps both.  An edit at a cell of a tree makes the root forget, and
then there is nothing to be right; any other edit leaves the tree as it was but
for tags below the root.  So a tree at whose root something is remembered was
there before the edit (`Edit.before`).
-/
import Formula.Proofs.Graph.Edits

namespace Formula

universe u

namespace Graph

variable {α : Type u} {J : Expr α → Prop} {K : Graph α → Nat → Prop} {R : Nat → Prop}
  {g g' : Graph α} {i : Nat} {n : Node α} {F : Finset Nat}

/-- Remembered sizes of well-formed trees are right. -/
def SizesRight (g : Graph α) : Prop :=
  ∀ i n F k, Holds g i n F → g.knownSize? i = some k → k = n.size

/-- Marked well-formed trees have the property. -/
def MarksRight (J : Expr α → Prop) (g : Graph α) : Prop :=
  ∀ i n F, Holds g i n F → g.isSettled i = true → J n.expr

/-- A cell holds a tree with the property. -/
def Justified (J : Expr α → Prop) (g : Graph α) (i : Nat) : Prop :=
  ∃ n F, Holds g i n F ∧ J n.expr

theorem knownSize?_of_le (h : g.cellCount ≤ i) : g.knownSize? i = none := by
  have hnone : g.cell? i = none := by
    rw [← Option.not_isSome_iff_eq_none, isSome_cell?_iff]
    exact Nat.not_lt_of_le h
  simp [knownSize?, hnone]

/-! ### Trees before an edit -/

namespace Holds

theorem size_eq_of_expr {m : Node α} (h : m.expr = n.expr) : m.size = n.size := by
  rw [← Node.size_expr, h, Node.size_expr]

/-- A tree whose root does not forget was there before. -/
theorem before_setSlot {o : Nat} {s : Slot} {new : Option Nat} (hslot : g.hasSlot o s)
    (h : Holds (g.setSlot o s new) i n F) (hup : ¬(g.setSlot o s new).Up o i) :
    ∃ m, m.expr = n.expr ∧ Holds g i m F := by
  have ho : o ∉ F := fun hmem => hup (h.up_root o hmem)
  refine h.retag (fun c hc => ?_) (fun c hc hne => ?_)
  · exact (content?_setSlot_of_ne (by rintro rfl; exact ho hc)).symm
  · obtain ⟨p, hp, hparent⟩ := h.exists_parent c hc hne
    have hpo : p ≠ o := by
      rintro rfl
      exact ho hp
    rw [hparent]
    rw [parent?_setSlot hslot] at hparent
    split at hparent
    · exact absurd (Option.some.inj hparent).symm hpo
    · split at hparent
      · cases hparent
      · exact hparent

theorem before_setValue {o : Nat} {v w : α} (hw : g.content? o = some (.const w))
    (h : Holds (g.setValue o v) i n F) (hup : ¬g.Up o i) : ∃ m, m.expr = n.expr ∧ Holds g i m F := by
  have ho : o ∉ F := by
    intro hmem
    exact hup ((up_congr (parent?_setValue v) o i).mp (h.up_root o hmem))
  refine h.retag (fun c hc => ?_) (fun c _ _ => (parent?_setValue v c).symm)
  rw [content?_setValue hw, if_neg (by rintro rfl; exact ho hc)]

theorem before_add {content : Content α} (h : Holds (g.add content).1 i n F)
    (hi : i ≠ g.cellCount) : ∃ m, m.expr = n.expr ∧ Holds g i m F := by
  refine h.retag (fun c hc => ?_) (fun c _ _ => (parent?_add g c content).symm)
  have hne : c ≠ g.cellCount := by
    rintro rfl
    -- the new cell has no parent, so it can only be a root
    obtain ⟨p, -, hp⟩ := h.exists_parent _ hc hi.symm
    rw [parent?_add, parent?_of_le (Nat.le_refl _)] at hp
    cases hp
  rw [content?_add, if_neg hne]

theorem before_detach {o : Nat} (h : Holds (g.detach o) i n F) :
    ∃ m, m.expr = n.expr ∧ Holds g i m F := by
  refine h.retag (fun c _ => (content?_detach g o c).symm) (fun c hc hne => ?_)
  obtain ⟨p, -, hp⟩ := h.exists_parent c hc hne
  rw [hp]
  rw [parent?_detach] at hp
  split at hp
  · cases hp
  · exact hp

theorem before_mark {o : Nat} (h : Holds (g.mark o) i n F) : ∃ m, m.expr = n.expr ∧ Holds g i m F :=
  h.retag (fun c _ => (content?_mark g o c).symm) (fun c _ _ => (parent?_mark g o c).symm)

theorem before_invalidate {o : Nat} (h : Holds (g.invalidate o) i n F) :
    ∃ m, m.expr = n.expr ∧ Holds g i m F :=
  h.retag (fun c _ => (content?_invalidate g o c).symm) fun c _ _ => (parent?_invalidate g o c).symm

end Holds

theorem SameTrees.symm (h : g.SameTrees g') : g'.SameTrees g where
  cellCount := h.cellCount.symm
  content? j := (h.content? j).symm
  parent? j := (h.parent? j).symm
  isSettled j := (h.isSettled j).symm

/-- A tree at whose root something is remembered after an edit was there before. -/
theorem Edit.before (h : Edit K R g g') (hn : Holds g' i n F)
    (hmem : (g'.knownSize? i).isSome ∨ g'.isSettled i = true) :
    ∃ m, m.expr = n.expr ∧ Holds g i m F := by
  cases h with
  | add =>
      refine hn.before_add ?_
      rintro rfl
      rw [knownSize?_add, isSettled_add, knownSize?_of_le (Nat.le_refl _),
        isSettled_of_le (Nat.le_refl _)] at hmem
      simp at hmem
  | @setSlot o s new _ _ _ =>
      by_cases hslot : g.hasSlot o s
      · refine hn.before_setSlot hslot ?_
        rcases hmem with hk | hm
        · obtain ⟨k, hk⟩ := Option.isSome_iff_exists.mp hk
          exact ((knownSize?_setSlot hslot new i k).mp hk).2
        · exact ((isSettled_setSlot hslot new i).mp hm).2
      · exact ⟨n, rfl, by rwa [setSlot_of_not_hasSlot hslot] at hn⟩
  | @setValue o v _ =>
      by_cases hconst : ∃ w, g.content? o = some (.const w)
      · obtain ⟨w, hw⟩ := hconst
        refine hn.before_setValue hw ?_
        rcases hmem with hk | hm
        · obtain ⟨k, hk⟩ := Option.isSome_iff_exists.mp hk
          exact ((knownSize?_setValue hw v i k).mp hk).2
        · exact ((isSettled_setValue hw v i).mp hm).2
      · exact ⟨n, rfl, by rwa [setValue_of_not_const fun w hw => hconst ⟨w, hw⟩] at hn⟩
  | detach => exact hn.before_detach
  | mark => exact hn.before_mark
  | invalidate => exact hn.before_invalidate
  | size => exact ⟨n, rfl, hn.sameTrees (sameTrees_size _ _).symm⟩

/-- Only asking for a size remembers sizes. -/
theorem Edit.knownSize?_before {k : Nat} (h : Edit K R g g') (hk : g'.knownSize? i = some k) :
    g.knownSize? i = some k ∨ ∃ o, g' = (g.size o).1 := by
  cases h with
  | add => exact .inl (by rwa [knownSize?_add] at hk)
  | @setSlot o s new _ _ _ =>
      by_cases hslot : g.hasSlot o s
      · exact .inl ((knownSize?_setSlot hslot new i k).mp hk).1
      · exact .inl (by rwa [setSlot_of_not_hasSlot hslot] at hk)
  | @setValue o v _ =>
      by_cases hconst : ∃ w, g.content? o = some (.const w)
      · obtain ⟨w, hw⟩ := hconst
        exact .inl ((knownSize?_setValue hw v i k).mp hk).1
      · exact .inl (by rwa [setValue_of_not_const fun w hw => hconst ⟨w, hw⟩] at hk)
  | detach => exact .inl (by rwa [knownSize?_detach] at hk)
  | mark => exact .inl (by rwa [knownSize?_mark] at hk)
  | invalidate => exact .inl ((knownSize?_invalidate _ _ i k).mp hk).1
  | @size o => exact .inr ⟨o, rfl⟩

/-- A mark that is set after an edit was set before, or the edit may set it. -/
theorem Edit.isSettled_before (h : Edit K R g g') (hm : g'.isSettled i = true) :
    g.isSettled i = true ∨ K g i := by
  cases h with
  | add => exact .inl (by rwa [isSettled_add] at hm)
  | @setSlot o s new _ _ _ =>
      by_cases hslot : g.hasSlot o s
      · exact .inl ((isSettled_setSlot hslot new i).mp hm).1
      · exact .inl (by rwa [setSlot_of_not_hasSlot hslot] at hm)
  | @setValue o v _ =>
      by_cases hconst : ∃ w, g.content? o = some (.const w)
      · obtain ⟨w, hw⟩ := hconst
        exact .inl ((isSettled_setValue hw v i).mp hm).1
      · exact .inl (by rwa [setValue_of_not_const fun w hw => hconst ⟨w, hw⟩] at hm)
  | detach => exact .inl (by rwa [isSettled_detach] at hm)
  | @mark o _ hK =>
      rcases (isSettled_mark g o i).mp hm with ⟨rfl, -⟩ | hm
      exacts [.inr hK, .inl hm]
  | invalidate => exact .inl ((isSettled_invalidate _ _ i).mp hm).1
  | @size o => exact .inl (by rwa [(sameTrees_size g o).isSettled] at hm)

/-! ### Sizes -/

theorem knownSize?_remember (g : Graph α) (i j : Nat) (k : Option Nat) :
    (g.update i ({ · with knownSize := k })).knownSize? j
      = if i = j then (g.cell? j).bind (fun _ => k) else g.knownSize? j :=
  knownSize?_update g i j _

theorem sizesRight_sumOver {count : Graph α → Nat → Graph α × Option Nat}
    (hcount : ∀ g i, SizesRight g → SizesRight (count g i).1) (is : List Nat) (hg : SizesRight g) :
    SizesRight (sumOver count is g).1 := by
  induction is generalizing g with
  | nil => exact hg
  | cons i is ih => exact ih (hcount g i hg)

/-- The sizes of the operands add up, or one of the operands is too deep. -/
theorem sumOver_operands_spec {fuel : Nat} (hcount : ∀ (g : Graph α) i, SizesRight g →
      SizesRight (sizeWithin fuel g i).1 ∧ ∀ n F, Holds g i n F →
        (sizeWithin fuel g i).2 = some n.size ∨
          (sizeWithin fuel g i).2 = none ∧ fuel < n.expr.depth)
    (hg : SizesRight g) (hn : Holds g i n F) :
    (sumOver (sizeWithin fuel) (g.operands i) g).2.map (1 + ·) = some n.size ∨
      (sumOver (sizeWithin fuel) (g.operands i) g).2 = none ∧ fuel + 1 < n.expr.depth := by
  cases hn with
  | const hc => exact .inl (by simp [operands, hc, Content.operands, Content.slots, sumOver, Node.size])
  | var hc => exact .inl (by simp [operands, hc, Content.operands, Content.slots, sumOver, Node.size])
  | @unary _ x _ n _ hc _ _ hx =>
      have hops : g.operands i = [x] := by simp [operands, hc, Content.operands, Content.slots]
      rcases (hcount g x hg).2 n _ hx with hk | ⟨hk, hdepth⟩
      · exact .inl (by simp [hops, sumOver, hk, Node.size])
      · exact .inr ⟨by simp [hops, sumOver, hk], by simp only [Node.expr, Expr.depth]; omega⟩
  | @binary _ l r _ a b _ _ hc _ _ _ _ _ ha hb =>
      have hops : g.operands i = [l, r] := by simp [operands, hc, Content.operands, Content.slots]
      -- the right operand is counted where the size of the left one is remembered
      have hb' := hb.sameTrees (sameTrees_sizeWithin fuel g l)
      rcases (hcount g l hg).2 a _ ha with hk | ⟨hk, hdepth⟩
      · rcases (hcount _ r (hcount g l hg).1).2 b _ hb' with hk' | ⟨hk', hdepth⟩
        · exact .inl (by simp [hops, sumOver, hk, hk', Node.size])
        · refine .inr ⟨by simp [hops, sumOver, hk'], ?_⟩
          simp only [Node.expr, Expr.depth]
          omega
      · refine .inr ⟨by simp [hops, sumOver, hk], ?_⟩
        simp only [Node.expr, Expr.depth]
        omega

/-- Counting finds the right size, or runs out of depth; what it remembers is
right. -/
theorem sizeWithin_spec (fuel : Nat) (hg : SizesRight g) (i : Nat) :
    SizesRight (sizeWithin fuel g i).1 ∧ ∀ n F, Holds g i n F →
      (sizeWithin fuel g i).2 = some n.size ∨
        (sizeWithin fuel g i).2 = none ∧ fuel < n.expr.depth := by
  induction fuel generalizing g i with
  | zero =>
      refine ⟨hg, fun n F _ => .inr ⟨rfl, ?_⟩⟩
      cases n <;> simp only [Node.expr, Expr.depth] <;> omega
  | succ fuel ih =>
      rw [sizeWithin]
      split
      · next k hk => exact ⟨hg, fun n F hn => .inl (by rw [hg i n F k hn hk])⟩
      have hg' := sizesRight_sumOver (fun g i hg => (ih hg i).1) (g.operands i) hg
      have hsame := sameTrees_sumOver (sameTrees_sizeWithin fuel) (g.operands i) g
      have htree := fun n F => sumOver_operands_spec (n := n) (F := F) (i := i) (fun g i hg => ih hg i) hg
      split
      · next g₁ k hsum =>
        simp only [hsum] at hg' hsame htree
        refine ⟨fun j m E k' hm hk' => ?_, fun n F hn => .inl ?_⟩
        · rw [knownSize?_remember] at hk'
          have hm₁ := hm.sameTrees (sameTrees_remember g₁ i _).symm
          split at hk'
          · next hij =>
            subst hij
            obtain ⟨c, -, hc⟩ := Option.bind_eq_some_iff.mp hk'
            cases hc
            rcases htree m E (hm₁.sameTrees hsame.symm) with hsize | ⟨hnone, -⟩
            · simpa using hsize
            · cases hnone
          · exact hg' j m E k' hm₁ hk'
        · rcases htree n F hn with hsize | ⟨hnone, -⟩
          · simpa using hsize
          · cases hnone
      · next g₁ hsum =>
        simp only [hsum] at hg' htree
        refine ⟨hg', fun n F hn => .inr ⟨rfl, ?_⟩⟩
        rcases htree n F hn with hsize | ⟨-, hdepth⟩
        · cases hsize
        · exact hdepth

theorem sizesRight_size (hg : SizesRight g) (i : Nat) : SizesRight (g.size i).1 :=
  (sizeWithin_spec g.cellCount hg i).1

/-- The size of a well-formed tree is found. -/
theorem Holds.size_eq (h : Holds g i n F) (hg : SizesRight g) : (g.size i).2 = n.size := by
  rcases (sizeWithin_spec g.cellCount hg i).2 n F h with hsize | ⟨-, hdepth⟩
  · simp [size, hsize]
  · exact absurd (h.depth_le.trans h.card_le) (Nat.not_le_of_lt hdepth)

theorem SizesRight.edit (hg : SizesRight g) (h : Edit K R g g') : SizesRight g' := by
  intro i n F k hn hk
  rcases h.knownSize?_before hk with hk' | ⟨o, rfl⟩
  · obtain ⟨m, hexpr, hm⟩ := h.before hn (.inl (Option.isSome_of_eq_some hk))
    rw [hg i m F k hm hk', Holds.size_eq_of_expr hexpr]
  · exact sizesRight_size hg o i n F k hn hk

theorem SizesRight.edits (hg : SizesRight g) (h : Edits K R g g') : SizesRight g' := by
  induction h with
  | refl => exact hg
  | tail _ hedit ih => exact ih.edit hedit

/-! ### Marks -/

theorem MarksRight.edit (hg : MarksRight J g) (h : Edit (Justified J) R g g') : MarksRight J g' := by
  intro i n F hn hm
  obtain ⟨m, hexpr, hbefore⟩ := h.before hn (.inr hm)
  rw [← hexpr]
  rcases h.isSettled_before hm with hm' | ⟨m', F', hm', hJ⟩
  · exact hg i m F hbefore hm'
  · rw [(hbefore.unique hm').1]
    exact hJ

theorem MarksRight.edits (hg : MarksRight J g) (h : Edits (Justified J) R g g') :
    MarksRight J g' := by
  induction h with
  | refl => exact hg
  | tail _ hedit ih => exact ih.edit hedit

/-! ### Sound graphs -/

/-- Parents do not lie, and what is remembered is right. -/
structure Sound (J : Expr α → Prop) (g : Graph α) : Prop where
  honest : Honest g
  sizes : SizesRight g
  marks : MarksRight J g

theorem Sound.edits (hg : Sound J g) (h : Edits (Justified J) R g g') : Sound J g' :=
  ⟨h.honest hg.honest, hg.sizes.edits h, hg.marks.edits h⟩

end Graph

end Formula
