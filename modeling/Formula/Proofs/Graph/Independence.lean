/-
Formula/Proofs/Graph/Independence.lean

Copies are independent of what they are copies of.

A copy is a tree of new cells (`Copied`).  Nothing leads from new cells to old ones,
neither a slot nor a parent link, so they are a closed region, and whatever is done
to the copy stays in it.  The region grows when a tree from elsewhere is put into a
slot of the copy: then that tree is part of it (`Work`).  As long as nothing of the
original gets into the region in this way, the original stays as it is
(`copy_independent`).

Fractions are combined among copies.  So the product is left alone however that ends.
-/
import Formula.Proofs.Graph.Building

namespace Formula

namespace Graph

/-! ### Copies -/

section

variable {α : Type} {g g' : Graph α} {R : Nat → Prop} {i y : Nat}

/-- In `g'` a copy of what hangs from `i` in `g` hangs from `y`: a tree of new cells,
of which none is marked and the root has no parent.  All old cells are as they were. -/
structure Copied (g : Graph α) (i : Nat) (g' : Graph α) (y : Nat) : Prop extends Added g g' y where
  expr : g'.expr y = g.expr i
  unmarked : ∀ c ∈ g'.below y, g'.isSettled c = false
  wellFormed : (g.expr i).isFilled = true → g'.isWellFormed y = true
  /-- No slot and no parent link leads from a new cell to an old one. -/
  closed : Closed (g.cellCount ≤ ·) g'
  old : ∀ c < g.cellCount, Untouched g g' c

/-- Where no edit marks anything, what is marked was marked before. -/
theorem Edits.isSettled_of_unmarking (h : Edits (fun _ _ => False) R g g') {c : Nat}
    (hc : g'.isSettled c = true) : g.isSettled c = true := by
  induction h with
  | refl => exact hc
  | @tail g₁ _ _ hedit ih =>
      refine ih ?_
      cases hedit with
      | add => rwa [isSettled_add] at hc
      | @setSlot o s new =>
          by_cases hslot : g₁.hasSlot o s
          · exact ((isSettled_setSlot hslot new c).mp hc).1
          · rwa [setSlot_of_not_hasSlot hslot] at hc
      | @setValue o v =>
          by_cases hconst : ∃ w, g₁.content? o = some (.const w)
          · obtain ⟨w, hw⟩ := hconst
            exact ((isSettled_setValue hw v c).mp hc).1
          · rwa [setValue_of_not_const fun w hw => hconst ⟨w, hw⟩] at hc
      | detach => rwa [isSettled_detach] at hc
      | mark _ hmarked => exact hmarked.elim
      | @invalidate o => exact ((isSettled_invalidate g₁ o c).mp hc).1
      | @size o => rwa [(sameTrees_size g₁ o).isSettled] at hc

/-- Below a cell that is there something is read. -/
theorem expr_ne_hole (hi : i < g.cellCount) : g.expr i ≠ .hole := by
  obtain ⟨fuel, hfuel⟩ := Nat.exists_eq_succ_of_ne_zero (Nat.ne_of_gt (Nat.zero_lt_of_lt hi))
  obtain ⟨content, hcontent⟩ : ∃ content, g.content? i = some content :=
    Option.isSome_iff_exists.mp (by simpa [content?] using isSome_cell?_iff.mpr hi)
  rw [expr, hfuel, exprWithin, hcontent]
  cases content <;> simp

/-- A copy is made of each cell that is there. -/
theorem copied_copy (hi : i < g.cellCount) : ∃ g' y, g.copy i = (g', some y) ∧ Copied g i g' y := by
  have hedits : Edits (fun _ _ => False) (g.cellCount ≤ ·) g (g.build (g.expr i)).1 :=
    ((Closed.new g).edits_build _).1
  obtain ⟨hread, hadded⟩ := added_build g (g.expr i)
  change ∃ g' y, g.build (g.expr i) = (g', some y) ∧ _
  rcases hbuild : g.build (g.expr i) with ⟨g', y⟩
  rw [hbuild] at hedits hread hadded
  cases y with
  | none => exact absurd hread.eq_hole (expr_ne_hole hi)
  | some y =>
      have hadded := hadded y rfl
      refine ⟨g', y, rfl, {
        toAdded := hadded
        expr := ?_
        unmarked := ?_
        wellFormed := ?_
        closed := (Closed.new g).edits hedits
        old := fun c hc => hedits.old hc }⟩
      · exact hread.exprWithin_eq _ ((depth_exprWithin_le g _ _).trans hedits.cellCount_le)
      · intro c hc
        rw [Bool.eq_false_iff]
        intro hmarked
        have hold := hedits.isSettled_of_unmarking hmarked
        rw [isSettled_of_le (hadded.new c hc).1] at hold
        cases hold
      · intro hfilled
        have htree : TreeBelow g' y := {
          toBranches := hadded.branches
          filled := fun path c s => hread.exists_slot? hfilled }
        exact isWellFormed_iff.mpr (htree.exists_holds hadded.lt)

end

/-! ### Work in growing regions -/

section

variable {α : Type} {g : Graph α} {R : Nat → Prop} {i q : Nat}

/-- A tree can be taken into a closed region, from wherever it hangs. -/
theorem Closed.take (h : Closed R g) (hq : Branches g q) :
    Closed (fun c => R c ∨ c ∈ g.below q) (g.detach q) where
  fresh c hc := .inl (h.fresh c (by simpa [detach] using hc))
  operand c hc x hx := by
    rw [operands, content?_detach] at hx
    rcases hc with hc | ⟨path, hpath⟩
    · exact .inl (h.operand c hc x hx)
    · obtain ⟨s, -, hs⟩ := exists_slotHolding hx
      exact .inr ⟨path ++ [s], by rw [follow_append, hpath, Option.bind_some, follow_cons hs]; rfl⟩
  parent c p hc hp := by
    rw [parent?_detach] at hp
    split at hp
    · cases hp
    · next hqc =>
      rcases hc with hc | ⟨path, hpath⟩
      · exact .inl (h.parent c p hc hp)
      · -- the cell is in a slot of another one of the tree, which is its parent
        rcases List.eq_nil_or_concat path with rfl | ⟨path, s, rfl⟩
        · exact absurd (Option.some.inj hpath) hqc
        · rw [List.concat_eq_append, follow_append] at hpath
          obtain ⟨o, ho, hs⟩ := Option.bind_eq_some_iff.mp hpath
          obtain ⟨x, hx, hxc⟩ := Option.bind_eq_some_iff.mp hs
          obtain rfl := Option.some.inj hxc
          rw [hq.linked path o s x ho hx] at hp
          exact .inr ⟨path, Option.some.inj hp ▸ ho⟩

/-- What is put into a slot may just as well be detached before: it loses its old
parent in any case. -/
theorem setSlot_detach {s : Slot} (hslot : g.hasSlot i s) (hq : q < g.cellCount) :
    (g.detach q).setSlot i s (some q) = g.setSlot i s (some q) := by
  have hslot' : (g.detach q).hasSlot i s := by rwa [hasSlot, content?_detach]
  have hsame : (g.detach q).slot? i s = g.slot? i s := by rw [slot?, slot?, content?_detach]
  have hrelink : (g.detach q).relink i s (some q) = g.relink i s (some q) := by
    refine ext_cell? fun c => cell?_eq_of_fields ?_ ?_ ?_ ?_
    · rw [content?_relink, content?_relink, content?_detach]
    · rw [parent?_relink, parent?_relink]
      by_cases hqc : q = c
      · subst hqc
        simp [hq, detach]
      · have hne : ∀ n, ¬(some q = some c ∧ c < n) := fun n h => hqc (Option.some.inj h.1)
        rw [if_neg (hne _), if_neg (hne _), parent?_detach, if_neg hqc, hsame]
    · rw [isSettled_relink, isSettled_relink, isSettled_detach]
    · rw [knownSize?_relink, knownSize?_relink, knownSize?_detach]
  rw [setSlot_of_hasSlot hslot', setSlot_of_hasSlot hslot, hrelink]

end

section

variable {α : Type} [Numeral α] [Arithmetic α] {g g' g₀ : Graph α} {R R₀ : Nat → Prop} {i : Nat}

/-- An operation on nodes of a region: those that are edited, and those that are put
into slots, are in it.  Sizes may be asked for, and copies made, of any node. -/
inductive Operation (R : Nat → Prop) : Graph α → Graph α → Prop
  | newConst {g : Graph α} (v : α) : Operation R g (g.add (.const v)).1
  | newVar {g : Graph α} (x : String) : Operation R g (g.add (.var x)).1
  | newUnary {g : Graph α} (op : UnaryOp) {x : Option Nat} : Within R x →
      Operation R g (g.newUnary op x).1
  | newBinary {g : Graph α} (op : BinaryOp) {l r : Option Nat} : Within R l → Within R r →
      Operation R g (g.newBinary op l r).1
  | setSlot {g : Graph α} {i : Nat} (s : Slot) {new : Option Nat} : R i → Within R new →
      Operation R g (g.setSlot i s new)
  | setValue {g : Graph α} {i : Nat} (v : α) : R i → Operation R g (g.setValue i v)
  | detach {g : Graph α} {i : Nat} : R i → Operation R g (g.detach i)
  | mark {g : Graph α} {i : Nat} : R i → Operation R g (g.mark i)
  | invalidate {g : Graph α} {i : Nat} : R i → Operation R g (g.invalidate i)
  | size {g : Graph α} (i : Nat) : Operation R g (g.size i).1
  | copy {g : Graph α} (i : Nat) : Operation R g (g.copy i).1
  | replaceChild {g g' : Graph α} {owner : Nat} {old new : Option Nat} : R owner → Within R new →
      g.replaceChild owner old new = .ok g' → Operation R g g'
  | replaceNode {g g' : Graph α} {root target new j : Nat} : R root → R target → R new →
      g.replaceNode root target new = .ok (g', j) → Operation R g g'
  | optimizeHere {g : Graph α} (s : Settings α) (env : Environment α) {i : Nat} : R i →
      Operation R g (g.optimizeHere s env i).value.1
  | optimizeTree {g : Graph α} (s : Settings α) (env : Environment α) {i : Nat} : R i →
      Operation R g (g.optimizeTree s env i).value.1

/-- In a closed region an operation is a run of edits there, also if it fails. -/
theorem Operation.edits (h : Closed R g) (hop : Operation R g g') :
    Edits (fun _ _ => True) R g g' := by
  cases hop with
  | newConst | newVar => exact .single (.add rfl)
  | newUnary op hx => exact edits_newUnary op h.next hx
  | newBinary op hl hr => exact edits_newBinary op h.next hl hr
  | setSlot s hi hnew => exact h.edits_setSlot hi hnew
  | setValue v hi => exact .single (.setValue hi)
  | detach hi => exact .single (.detach hi)
  | mark hi => exact .single (.mark hi trivial)
  | invalidate hi => exact .single (.invalidate hi)
  | size => exact .single .size
  | copy i => exact (h.edits_build (g.expr i)).1
  | replaceChild howner hnew hok => exact h.edits_replaceChild howner hnew hok
  | replaceNode hroot htarget hnew hok => exact (h.edits_replaceNode hroot htarget hnew hok).1
  | optimizeHere s env hi => exact (Editing.Confined.optimizeHere hi g h).1
  | optimizeTree s env hi =>
      exact (Editing.Confined.wholeTree (fun _ hj => Editing.Confined.optimize hj) hi g h).1

/-- Work that began in the region `R₀` of `g₀` and has come to the region `R` of `g`.
On the way the region has grown by what was taken from elsewhere. -/
inductive Work (R₀ : Nat → Prop) (g₀ : Graph α) : (Nat → Prop) → Graph α → Prop
  | start : Work R₀ g₀ R₀ g₀
  | operation {R : Nat → Prop} {g g' : Graph α} : Work R₀ g₀ R g → Operation R g g' → Work R₀ g₀ R g'
  | take {R R' : Nat → Prop} {g : Graph α} {q : Nat} : Work R₀ g₀ R g → (∀ c, R c → R' c) → R' q →
      Closed R' (g.detach q) → Work R₀ g₀ R' (g.detach q)

/-- A tree from elsewhere is put into a slot. -/
theorem Work.fill (hwork : Work R₀ g₀ R g) (h : Closed R g) {q : Nat} {s : Slot} (hi : R i)
    (hslot : g.hasSlot i s) (hq : Branches g q) (hlt : q < g.cellCount) :
    Work R₀ g₀ (fun c => R c ∨ c ∈ g.below q) (g.setSlot i s (some q)) := by
  have hroot : R q ∨ q ∈ g.below q := .inr (mem_below_self g q)
  rw [← setSlot_detach hslot hlt]
  exact (hwork.take (fun _ => .inl) hroot (h.take hq)).operation
    (.setSlot s (.inl hi) (within_some hroot))

/-- What has not got into the region is untouched. -/
theorem Work.untouched (h₀ : Closed R₀ g₀) (hwork : Work R₀ g₀ R g) :
    Closed R g ∧ ∀ c, ¬R c → Untouched g₀ g c := by
  induction hwork with
  | start => exact ⟨h₀, fun _ _ => ⟨rfl, rfl, rfl⟩⟩
  | operation _ hop ih =>
      obtain ⟨hclosed, huntouched⟩ := ih
      have hedits := hop.edits hclosed
      exact ⟨hclosed.edits hedits, fun c hc => (huntouched c hc).trans (hedits.outside hclosed hc)⟩
  | @take R R' g q _ hgrow hq hclosed ih =>
      refine ⟨hclosed, fun c hc => (ih.2 c fun hR => hc (hgrow c hR)).trans ?_⟩
      have hqc : q ≠ c := by
        rintro rfl
        exact hc hq
      exact ⟨content?_detach g q c, by rw [parent?_detach, if_neg hqc], isSettled_detach g q c⟩

/-- **Copies are independent.**  Of every node a copy is made: a tree of new nodes
without marks and without parent, of the same shape, operators, names and constants,
and well-formed if no slot is empty.  Let then anything be done to new nodes: slots
edited, constants changed, trees optimized with any settings, also with nodes that are
taken from elsewhere, together with all that is linked with them.  Every other old node
keeps its slots, its parent, its mark and its constant.

And however an attempt to combine fractions ends, no node that was there before has
changed. -/
theorem copy_independent (hi : i < g.cellCount) :
    ∃ g₁ y, g.copy i = (g₁, some y) ∧ Copied g i g₁ y ∧
      (∀ R g₂, Work (g.cellCount ≤ ·) g₁ R g₂ → ∀ c < g.cellCount, ¬R c → Untouched g g₂ c) ∧
      ∀ s env fuel j, ∀ c < g.cellCount, Untouched g
        (Editing.combineFractions s (Editing.optimizeWithin s env fuel) j g).value.1 c := by
  obtain ⟨g₁, y, hcopy, hcopied⟩ := copied_copy hi
  refine ⟨g₁, y, hcopy, hcopied, fun R g₂ hwork c hc hR => ?_, fun s env fuel j c hc => ?_⟩
  · exact (hcopied.old c hc).trans ((hwork.untouched hcopied.closed).2 c hR)
  · have hrun : ∀ j, g.cellCount ≤ j →
        (Editing.optimizeWithin s env fuel j).Confined (g.cellCount ≤ ·) (Within (g.cellCount ≤ ·)) :=
      fun _ hj => .optimizeWithin fuel hj
    exact (Editing.Confined.combineFractions hrun j g (.new g)).1.old hc

end

/-- A marked sum, which a variable is taken from. -/
def markedSumInDifference : Graph Float :=
  let g := (((empty.add (.var "x")).1.add (.const 2)).1.newBinary .add (some 0) (some 1)).1
  ((g.add (.var "z")).1.newBinary .sub (some 2) (some 3)).1.mark 2

/-- The copy of the sum takes the other operand of the difference, loses its constant
and is optimized; the sum itself and its mark are left alone. -/
theorem copy_independent_markedSumInDifference : ∃ g₁ : Graph Float,
    markedSumInDifference.copy 2 = (g₁, some 7) ∧ Copied markedSumInDifference 2 g₁ 7 ∧
      ∀ c < 3, Untouched markedSumInDifference
        (((g₁.setSlot 7 .left (some 3)).setValue 6 0).optimizeTree .default .empty 7).value.1 c := by
  have hcount : markedSumInDifference.cellCount = 5 := by decide +kernel
  obtain ⟨g₁, y, hcopy, hcopied, hwork, -⟩ := copy_independent (g := markedSumInDifference) (i := 2)
    (by rw [hcount]; decide)
  have hfacts : (markedSumInDifference.copy 2).2 = some 7 ∧
      (markedSumInDifference.copy 2).1.hasSlot 7 .left = true ∧
      (markedSumInDifference.copy 2).1.isWellFormed 3 = true ∧
      (markedSumInDifference.copy 2).1.operands 3 = [] := by decide +kernel
  rw [hcopy] at hfacts
  obtain ⟨hy, hslot, hwell, hleaf⟩ := hfacts
  obtain rfl := Option.some.inj hy
  obtain ⟨n, F, hn⟩ := isWellFormed_iff.mp hwell
  -- the variable is all that is taken
  have hbelow : ∀ c ∈ g₁.below 3, c = 3 := fun c hc =>
    mem_of_mem_below (S := (· = 3)) (fun c hc x hx => by rw [hc, hleaf] at hx; cases hx) rfl hc
  have hstart : Work (markedSumInDifference.cellCount ≤ ·) g₁ (markedSumInDifference.cellCount ≤ ·) g₁ :=
    .start
  have hfilled := hstart.fill hcopied.closed (i := 7) (by rw [hcount]; decide) hslot
    hn.treeBelow.toBranches (hn.lt 3 hn.root_mem)
  have hvalue := hfilled.operation (.setValue 0 (i := 6) (.inl (by rw [hcount]; decide)))
  have hrun := hvalue.operation (.optimizeTree .default .empty (i := 7) (.inl (by rw [hcount]; decide)))
  refine ⟨g₁, hcopy, hcopied, fun c hc => hwork _ _ hrun c (by omega) ?_⟩
  rintro (hle | hmem)
  · omega
  · have := hbelow c hmem
    omega

/-- A sum without marks. -/
def plainSum : Graph Float :=
  (((empty.add (.var "x")).1.add (.var "y")).1.newBinary .add (some 0) (some 1)).1

/-- A copy of the sum takes an operand of the sum itself, which has another parent
then. -/
theorem copy_takes_operand : Reachable plainSum ∧ plainSum.isWellFormed 2 = true ∧
    (plainSum.copy 2).2 = some 5 ∧ plainSum.slot? 2 .left = some 0 ∧ plainSum.parent? 0 = some 2 ∧
      ((plainSum.copy 2).1.setSlot 5 .left (some 0)).parent? 0 = some 5 :=
  ⟨.newBinary _ _ _ (.newVar _ (.newVar _ .empty)), by decide +kernel⟩

end Graph

end Formula
