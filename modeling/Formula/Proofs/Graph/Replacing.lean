/-
Formula/Proofs/Graph/Replacing.lean

What it changes to replace a node in a tree, and what it leaves alone.

The replacement is one assignment to the slot that holds the node.  It sets two
parent links, and it forgets marks and sizes on the way up from the owner of the
slot.  This way meets neither the node that is replaced nor the new one, as no way
up enters a tree from outside (`Holds.not_up`); so it is the same way after the
assignment as before it (`up_exchange`), and what is forgotten is exactly what the
cells above the node remembered.

A path is led elsewhere only where it goes through the slot.  Only one path leads
to the owner, so these are the paths that go on behind the path to the node.
-/
import Formula.Proofs.Graph.Checking
import Formula.Proofs.Graph.Placing

namespace Formula

namespace Graph

/-! ### Another operand in a slot -/

section

variable {α : Type} {g : Graph α} {o target new c : Nat} {s : Slot}

/-- If the way up from the owner meets neither operand, it is the way up from the old
one. -/
theorem up_exchange (hslot : g.slot? o s = some target) (hparent : g.parent? target = some o)
    (htarget : ¬g.Up o target) (hnew : ¬g.Up o new) :
    (g.setSlot o s (some new)).Up o c ↔ Above g target c := by
  have hup : (g.setSlot o s (some new)).Up o c ↔ g.Up o c := by
    refine up_iff_of_parent? fun x hx => parent?_setSlot_of_ne hslot ?_ ?_
    · rintro rfl
      exact htarget hx
    · rintro rfl
      exact hnew hx
  rw [hup]
  constructor
  · exact fun h => ⟨o, hparent, h⟩
  · rintro ⟨p, hp, h⟩
    exact Option.some.inj (hparent.symm.trans hp) ▸ h

end

/-! ### Replacing a node -/

section

variable {α : Type} [Numeral α] [Arithmetic α] {g g' : Graph α} {root target new : Nat} {path : Path}

/-- In `g'` the cell `new` stands below `root` where in `g` the cell `target` stands,
at the end of a path, and all else is as it was. -/
structure Replaced (g : Graph α) (root target new : Nat) (path : Path) (g' : Graph α) : Prop where
  wellFormed : g'.isWellFormed root = true
  expr : g'.expr root = (g.expr root).put path (g.expr new)
  /-- Behind the path to the node paths lead into the new tree. -/
  inside : ∀ q, g'.follow root (path ++ q) = g.follow new q
  /-- Other paths lead where they did. -/
  beside : ∀ q, ¬path <+: q → g'.follow root q = g.follow root q
  size : (g'.size root).2 + (g.size target).2 = (g.size root).2 + (g.size new).2
  free : g'.parent? target = none
  adopted : g'.parent? new = g.parent? target
  parents : ∀ c, c ≠ target → c ≠ new → g'.parent? c = g.parent? c
  /-- Only the owner has another operand. -/
  contents : ∀ c, g.parent? target ≠ some c → g'.content? c = g.content? c
  /-- Marks are lost above the node, and nowhere else. -/
  marks : ∀ c, g'.isSettled c = true ↔ g.isSettled c = true ∧ ¬Above g target c
  /-- So are remembered sizes. -/
  sizes : ∀ c k, g'.knownSize? c = some k ↔ g.knownSize? c = some k ∧ ¬Above g target c
  /-- No other cell has changed at all. -/
  others : ∀ c, ¬Above g target c → c ≠ target → c ≠ new → g'.cell? c = g.cell? c

omit [Numeral α] [Arithmetic α] in
/-- A node of a tree other than the root is in one slot of the tree, and what is left
of the tree is around it. -/
theorem Holds.exists_site {n : Node α} {F : Finset Nat} (hn : Holds g root n F)
    (hpath : g.follow root path = some target) (hne : target ≠ root) :
    ∃ p s o m C E, path = p ++ [s] ∧ Leads g root p o ∧ g.slot? o s = some target ∧
      g.parent? target = some o ∧ (s = .right → g.slot? o .left ≠ some target) ∧
      Context g root n (p ++ [s]) target C ∧ Holds g target m E ∧ Disjoint C E ∧ F = C ∪ E := by
  rcases List.eq_nil_or_concat path with rfl | ⟨p, s, rfl⟩
  · exact absurd (Option.some.inj hpath).symm hne
  rw [List.concat_eq_append] at hpath
  obtain ⟨m, -, hm, -⟩ := hn.exists_of_follow hpath
  obtain ⟨k, C, E, hctx, hlead, hE, hCE, hF⟩ := hn.exists_context hm
  obtain rfl : target = k := Option.some.inj (hpath.symm.trans hlead.follow)
  obtain ⟨o, hleado, hslot, hparent⟩ := leads_concat.mp hlead
  refine ⟨p, s, o, m, C, E, List.concat_eq_append, hleado, hslot, hparent, ?_, hctx, hE, hCE, hF⟩
  -- another slot of the owner would be the end of another path to the node
  rintro rfl hleft
  have hother : g.follow root (p ++ [.left]) = some target := by
    rw [follow_append, hleado.follow]
    simp [follow, hleft]
  cases List.append_cancel_left (hn.path_unique hother hpath)

/-- **Replacing a node changes nothing else.**  In a reachable graph let a node be
below the root of a well-formed tree, and let a well-formed tree, whatever it hangs
from, share no cell with that one.  Then the node can be replaced with this tree: the result is
well-formed, it is the old tree with the new one at the path to the node, and the
node has no parent any more.  Marks and remembered sizes are lost above the node
only, the owner of the node has another operand, the node and the new tree have
other parents, and every other cell is as it was. -/
theorem replaceNode_replaces (hg : Reachable g) (hroot : g.isWellFormed root = true)
    (hpath : g.follow root path = some target) (hne : target ≠ root)
    (hnew : g.isWellFormed new = true) (hdisj : Disjoint (g.below root) (g.below new)) :
    ∃ g', g.replaceNode root target new = .ok (g', root) ∧ Replaced g root target new path g' := by
  have hhonest : Honest g := hg.sound.honest
  obtain ⟨n, F, hn⟩ := isWellFormed_iff.mp hroot
  obtain ⟨b, B, hb⟩ := isWellFormed_iff.mp hnew
  rw [hn.below_eq, hb.below_eq, Finset.disjoint_coe] at hdisj
  obtain ⟨p, s, o, m, C, E, rfl, hlead, hslot, hparent, hleft, hctx, hE, hCE, rfl⟩ :=
    hn.exists_site hpath hne
  obtain ⟨hCB, hEB⟩ := Finset.disjoint_union_left.mp hdisj
  have htarget : target ∉ C := Finset.disjoint_right.mp hCE hE.root_mem
  have hnewC : new ∉ C := Finset.disjoint_right.mp hCB hb.root_mem
  have hnewlt := hb.lt new hb.root_mem
  have hnt : new ≠ target := by
    rintro rfl
    exact Finset.disjoint_left.mp hEB hE.root_mem hb.root_mem
  have hhas := hasSlot_of_slot? hslot
  -- the owner is outside both trees, so the way up from it does not meet them
  have hoC : o ∈ C := hctx.follow_mem hlead.follow
  have hoB : o ∉ B := Finset.disjoint_left.mp hCB hoC
  have hup : ∀ c, (g.setSlot o s (some new)).Up o c ↔ Above g target c := fun c =>
    up_exchange hslot hparent (hE.not_up hhonest (Finset.disjoint_left.mp hCE hoC) hE.root_mem)
      (hb.not_up hhonest hoB hb.root_mem)
  have hput := hctx.put hlead hslot hhonest htarget hb hCB
  have hlead' := (hctx.setSlot hlead hslot (hhonest.setSlot o s (some new)) htarget hnewC hnewlt).2
  have hg' : Reachable (g.setSlot o s (some new)) := .setSlot o s (some new) hg
  have hcontents : ∀ c, o ≠ c → (g.setSlot o s (some new)).content? c = g.content? c := by
    intro c hoc
    rw [content?_setSlot, if_neg hoc]
  have hmarks : ∀ c, (g.setSlot o s (some new)).isSettled c = true ↔
      g.isSettled c = true ∧ ¬Above g target c := by
    intro c
    rw [isSettled_setSlot hhas, hup]
  have hsizes : ∀ c k, (g.setSlot o s (some new)).knownSize? c = some k ↔
      g.knownSize? c = some k ∧ ¬Above g target c := by
    intro c k
    rw [knownSize?_setSlot hhas, hup]
  refine ⟨g.setSlot o s (some new), ?_, ?_⟩
  · rw [replaceNode, if_neg hne, hparent]
    simp only [replaceChild_of_slot? hslot hleft]
    rfl
  exact {
    wellFormed := isWellFormed_iff.mpr ⟨_, _, hput⟩
    expr := by rw [hput.expr_eq, hn.expr_eq, hb.expr_eq, Node.expr_put]
    inside := fun q => by
      rw [follow_append, hlead'.follow, Option.bind_some]
      refine follow_eq_of_slots fun r t c _ hc => slot?_setSlot_of_ne ?_
      rintro ⟨rfl, -⟩
      exact hoB (hb.mem_of_follow hc)
    beside := fun q hq => by
      refine follow_eq_of_slots fun r t c hr hc => slot?_setSlot_of_ne ?_
      rintro ⟨rfl, rfl⟩
      obtain rfl := hn.path_unique hc hlead.follow
      exact hq hr
    size := by
      rw [hput.size_eq hg'.sound.sizes, hn.size_eq hg.sound.sizes, hE.size_eq hg.sound.sizes,
        hb.size_eq hg.sound.sizes, hput.size_eq_card, hn.size_eq_card, hE.size_eq_card,
        hb.size_eq_card, Finset.card_union_of_disjoint hCB, Finset.card_union_of_disjoint hCE]
      omega
    free := by
      rw [parent?_setSlot hhas, if_neg (fun h => hnt (Option.some.inj h.1)), if_pos ⟨hslot, hparent⟩]
    adopted := by rw [parent?_setSlot hhas, if_pos ⟨rfl, hnewlt⟩, hparent]
    parents := fun c => parent?_setSlot_of_ne hslot
    contents := fun c hc => hcontents c fun hoc => hc (hoc ▸ hparent)
    marks := hmarks
    sizes := hsizes
    others := fun c hc hct hcn => by
      have hoc : o ≠ c := fun hoc => hc ⟨o, hparent, hoc ▸ .refl⟩
      refine cell?_eq_of_fields (hcontents c hoc) (parent?_setSlot_of_ne hslot hct hcn) ?_
        (Option.ext fun k => ?_)
      · rw [Bool.eq_iff_iff, hmarks]
        exact and_iff_left hc
      · exact (hsizes c k).trans (and_iff_left hc) }

end

/-- A marked negation of a product plus three, with its size remembered, and the sine of
a variable beside it. -/
def markedSumAndSine : Graph Float :=
  let g := ((((empty.add (.var "x")).1.add (.const 2)).1.newBinary .mul (some 0) (some 1)).1.add (.const 3)).1
  let g := ((g.newBinary .add (some 2) (some 3)).1.newUnary .neg (some 4)).1
  ((((g.size 5).1.mark 5).mark 3).add (.var "y")).1.newUnary .sin (some 6) |>.1

/-- The sine takes the place of the product: the sum and the negation forget, and the
constant beside the product does not. -/
theorem replaceNode_replaces_markedProduct :
    Reachable markedSumAndSine ∧ markedSumAndSine.parent? 7 = none ∧
      markedSumAndSine.isSettled 5 = true ∧ (markedSumAndSine.size 5).2 = 6 ∧
      ∃ g', markedSumAndSine.replaceNode 5 2 7 = .ok (g', 5) ∧
        Replaced markedSumAndSine 5 2 7 [.operand, .left] g' ∧
        g'.isSettled 5 = false ∧ (g'.size 5).2 = 5 := by
  have hreachable : Reachable markedSumAndSine :=
    .newUnary _ _ <| .newVar _ <| .mark _ <| .mark _ <| .size _ <| .newUnary _ _ <| .newBinary _ _ _ <|
      .newConst _ <| .newBinary _ _ _ <| .newConst _ <| .newVar _ .empty
  have hpath : markedSumAndSine.follow 5 [.operand, .left] = some 2 := by decide +kernel
  have hdisj : Disjoint (markedSumAndSine.below 5) (markedSumAndSine.below 7) := by
    refine Set.disjoint_left.mpr fun c hleft hright => ?_
    have hlow : c < 6 := mem_of_mem_below (S := (· < 6)) (by decide +kernel) (by decide) hleft
    have hhigh : c ∈ [6, 7] := mem_of_mem_below (S := (· ∈ [6, 7])) (by decide +kernel) (by decide) hright
    have hapart : ∀ c ∈ [6, 7], ¬c < 6 := by decide
    exact hapart c hhigh hlow
  obtain ⟨g', hok, h⟩ := replaceNode_replaces hreachable (by decide +kernel) hpath (by decide)
    (by decide +kernel) hdisj
  have hwhole : (markedSumAndSine.size 5).2 = 6 := by decide +kernel
  have htarget : (markedSumAndSine.size 2).2 = 3 := by decide +kernel
  have hnew : (markedSumAndSine.size 7).2 = 2 := by decide +kernel
  have habove : Above markedSumAndSine 2 5 := ⟨4, by decide +kernel, .single (by decide +kernel)⟩
  have hsize := h.size
  refine ⟨hreachable, by decide +kernel, by decide +kernel, hwhole, g', hok, h, ?_, by omega⟩
  rw [Bool.eq_false_iff]
  exact fun hmark => ((h.marks 5).mp hmark).2 habove

end Graph

end Formula
