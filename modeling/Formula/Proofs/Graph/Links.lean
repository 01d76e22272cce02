/-
Formula/Proofs/Graph/Links.lean

Parent links lead down again.

In a reachable graph a cell is always in a slot of its parent, whatever has been
shared, taken away or replaced: every edit keeps that (`Honest`).  So each step up
from a cell finds the slot that leads back, and the path that is put together on
the way up to a root leads from the root to the cell (`follow_path`).  In a
well-formed tree every cell has the root above it, so none is missed.

A parent link to a cell out of use is lost.  That is no more than taking cells from
their parents (`release_eq_foldl_detach`), so what holds of reachable graphs holds
throughout a session.
-/
import Formula.Graph.Workspace
import Formula.Proofs.Graph.Validity

namespace Formula

namespace Graph

section

variable {α : Type} {g : Graph α} {root fuel i j p : Nat}

/-! ### Slots that hold a cell -/

/-- An operand is found in the slot that holds it. -/
theorem exists_slotHolding (h : i ∈ g.operands p) :
    ∃ s, g.slotHolding? p i = some s ∧ g.slot? p s = some i := by
  cases hc : g.content? p with
  | none => simp [operands, hc] at h
  | some c =>
      rw [operands, hc] at h
      cases c with
      | const | var => simp [Content.operands, Content.slots] at h
      | unary op x =>
          obtain rfl : x = some i := by simpa [Content.operands, Content.slots] using h
          exact ⟨.operand, by simp [slotHolding?, hc, Content.slots], by simp [slot?, hc]⟩
      | binary op l r =>
          by_cases hl : l = some i
          · exact ⟨.left, by simp [slotHolding?, hc, Content.slots, hl], by simp [slot?, hc, hl]⟩
          · have hr : r = some i := by simpa [Content.operands, Content.slots, hl] using h
            exact ⟨.right, by simp [slotHolding?, hc, Content.slots, hl, hr], by simp [slot?, hc, hr]⟩

/-! ### Paths found from below -/

/-- The path from a root down to a cell that is at most some steps below it. -/
def pathWithin (g : Graph α) (root : Nat) : Nat → Nat → Option Path
  | 0, _ => none
  | fuel + 1, i =>
    if i = root then some []
    else (g.parent? i).bind fun p =>
      (g.pathWithin root fuel p).map (· ++ (g.slotHolding? p i).toList)

/-- The way up from a cell to a root, the root left out. -/
def wayBelow (g : Graph α) (root fuel i : Nat) : List Nat :=
  (g.lineageWithin fuel i).takeWhile (· ≠ root)

theorem lineageWithin_eq_cons (h : j ∈ g.lineageWithin fuel i) :
    ∃ above, g.lineageWithin fuel i = i :: above := by
  cases fuel with
  | zero => cases h
  | succ fuel => cases hp : g.parent? i <;> simp [lineageWithin, hp]

/-- The first step up is from the cell to its parent. -/
theorem zip_wayBelow (hroot : root ∈ g.lineageWithin fuel p) :
    (i :: g.wayBelow root fuel p).zip (g.wayBelow root fuel p ++ [root]) =
      (i, p) :: (g.wayBelow root fuel p).zip ((g.wayBelow root fuel p).tail ++ [root]) := by
  obtain ⟨above, habove⟩ := lineageWithin_eq_cons hroot
  rw [wayBelow, habove]
  by_cases hp : p = root
  · simp [hp]
  · simp [hp]

/-- The path that is put together on the way up is the one found step by step. -/
theorem pathWithin_eq (g : Graph α) (root fuel i : Nat) :
    g.pathWithin root fuel i =
      if (g.lineageWithin fuel i).contains root then
        some (((g.wayBelow root fuel i).zip ((g.wayBelow root fuel i).tail ++ [root])).filterMap
          fun (child, owner) => g.slotHolding? owner child).reverse
      else none := by
  induction fuel generalizing i with
  | zero => rfl
  | succ fuel ih =>
      rw [pathWithin]
      by_cases hi : i = root
      · subst hi
        cases hp : g.parent? i <;> simp [lineageWithin, wayBelow, hp]
      · cases hp : g.parent? i with
        | none => simp [lineageWithin, hp, hi, Ne.symm hi]
        | some p =>
            -- the way up is the cell and the way up from its parent
            have hline : g.lineageWithin (fuel + 1) i = i :: g.lineageWithin fuel p := by
              simp [lineageWithin, hp]
            have hbelow : g.wayBelow root (fuel + 1) i = i :: g.wayBelow root fuel p := by
              simp [wayBelow, hline, hi]
            rw [if_neg hi, Option.bind_some, ih, hline, hbelow, List.tail_cons]
            by_cases hroot : root ∈ g.lineageWithin fuel p
            · have hcontains : (i :: g.lineageWithin fuel p).contains root := by simp [hroot]
              rw [if_pos (by simpa using hroot), if_pos hcontains, zip_wayBelow hroot, Option.map_some]
              cases hslot : g.slotHolding? p i <;> simp [hslot]
            · simp [hroot, Ne.symm hi]

theorem path?_eq (g : Graph α) (root i : Nat) : g.path? root i = g.pathWithin root g.cellCount i :=
  (pathWithin_eq g root g.cellCount i).symm

/-- A path that is found leads down to the cell. -/
theorem follow_of_pathWithin (hg : Honest g) {path : Path} (h : g.pathWithin root fuel i = some path) :
    g.follow root path = some i := by
  induction fuel generalizing i path with
  | zero => cases h
  | succ fuel ih =>
      rw [pathWithin] at h
      split at h
      · next heq =>
        obtain rfl := Option.some.inj h
        rw [heq]
        rfl
      · obtain ⟨p, hp, h⟩ := Option.bind_eq_some_iff.mp h
        obtain ⟨above, habove, rfl⟩ := Option.map_eq_some_iff.mp h
        obtain ⟨s, hs, hslot⟩ := exists_slotHolding (hg i p hp)
        rw [follow_append, ih habove, hs]
        simp [follow, hslot]

/-- Below a root, a path is found. -/
theorem exists_path?_of_up (hroot : root < g.cellCount) (h : g.Up i root) :
    ∃ path, g.path? root i = some path := by
  have hmem : root ∈ g.lineage i := (mem_lineage_iff hroot).mpr h
  unfold path?
  simp [hmem]

/-- Whatever can be reached from the root of a tree is a cell of the tree. -/
theorem Holds.mem_of_follow {n : Node α} {F : Finset Nat} (h : Holds g root n F) {path : Path}
    (hpath : g.follow root path = some i) : i ∈ F := by
  obtain ⟨m, _, hat, -⟩ := h.exists_of_follow hpath
  obtain ⟨x, E, hx, hE, hsub⟩ := h.follow_of_at? hat
  obtain rfl : x = i := Option.some.inj (hx.symm.trans hpath)
  exact hsub hE.root_mem

end

/-! ### Links of reachable graphs -/

section

variable {α : Type} [Numeral α] [Arithmetic α] {g : Graph α}

/-- **Parent links do not lie.**  In a reachable graph a cell is in a slot of its
parent.  A path that is found from a cell up to a root leads from the root to the
cell; and below the root of a well-formed tree a path is found for exactly the
cells that some path leads to. -/
theorem follow_path (hg : Reachable g) :
    (∀ i p, g.parent? i = some p → ∃ s, g.slot? p s = some i) ∧
      (∀ root i path, g.path? root i = some path → g.follow root path = some i) ∧
      ∀ root, g.isWellFormed root = true → ∀ i,
        (∃ path, g.path? root i = some path) ↔ ∃ path, g.follow root path = some i := by
  have hhonest : Honest g := hg.sound.honest
  have hfollow : ∀ root i path, g.path? root i = some path → g.follow root path = some i := by
    intro root i path h
    rw [path?_eq] at h
    exact follow_of_pathWithin hhonest h
  refine ⟨fun i p hp => ?_, hfollow, fun root hroot i => ⟨?_, ?_⟩⟩
  · obtain ⟨s, -, hs⟩ := exists_slotHolding (hhonest i p hp)
    exact ⟨s, hs⟩
  · rintro ⟨path, h⟩
    exact ⟨path, hfollow root i path h⟩
  · rintro ⟨path, h⟩
    obtain ⟨n, F, hn⟩ := isWellFormed_iff.mp hroot
    exact exists_path?_of_up (hn.lt root hn.root_mem) (hn.up_root i (hn.mem_of_follow h))

end

/-- A variable in both slots of a sum has been taken by a negation, and then the
right slot has been emptied; the left one still holds it. -/
def takenOperand : Graph Float :=
  ((((empty.add (.var "x")).1.newBinary .add (some 0) (some 0)).1.newUnary .neg (some 0)).1.setSlot
    1 .right none)

theorem follow_path_takenOperand :
    Reachable takenOperand ∧ takenOperand.slot? 1 .left = some 0 ∧
      takenOperand.parent? 0 = some 2 ∧ (∃ s, takenOperand.slot? 2 s = some 0) ∧
      takenOperand.path? 2 0 = some [.operand] ∧ takenOperand.follow 2 [.operand] = some 0 ∧
      takenOperand.isWellFormed 2 = true ∧ ∃ path, takenOperand.path? 2 0 = some path := by
  have hreachable : Reachable takenOperand :=
    .setSlot _ _ _ <| .newUnary _ _ <| .newBinary _ _ _ <| .newVar _ .empty
  have hpath : takenOperand.path? 2 0 = some [.operand] := by decide +kernel
  have hwell : takenOperand.isWellFormed 2 = true := by decide +kernel
  have hparent : takenOperand.parent? 0 = some 2 := by decide +kernel
  obtain ⟨hslot, hfollow, hall⟩ := follow_path hreachable
  have hlead := hfollow 2 0 _ hpath
  exact ⟨hreachable, by decide +kernel, hparent, hslot 0 2 hparent, hpath, hlead, hwell,
    (hall 2 hwell 0).mpr ⟨_, hlead⟩⟩

/-! ### Links to cells out of use -/

section

variable {α : Type} {g : Graph α}

/-- Graphs with the same cells are the same. -/
theorem ext_cell? {g' : Graph α} (h : ∀ i, g.cell? i = g'.cell? i) : g = g' := by
  obtain ⟨cells⟩ := g
  obtain ⟨cells'⟩ := g'
  exact congrArg Graph.mk (Array.ext_getElem? h)

theorem cell?_foldl_detach (is : List Nat) (j : Nat) :
    (is.foldl detach g).cell? j =
      if j ∈ is then (g.cell? j).map ({ · with parent := none }) else g.cell? j := by
  induction is generalizing g with
  | nil => rfl
  | cons i is ih =>
      rw [List.foldl_cons, ih, detach, cell?_update]
      by_cases hij : i = j
      · subst hij
        cases g.cell? i <;> simp
      · simp [hij, Ne.symm hij]

theorem reachable_foldl_detach [Numeral α] [Arithmetic α] (hg : Reachable g) (is : List Nat) :
    Reachable (is.foldl detach g) := by
  induction is generalizing g with
  | nil => exact hg
  | cons i is ih => exact ih (.detach i hg)

end

end Graph

/-- Parent links are dropped by taking cells from their parents. -/
theorem Workspace.release_eq_foldl_detach (w : Workspace) :
    ∃ is : List Nat, w.release.graph = is.foldl Graph.detach w.graph := by
  let used := w.graph.reachable (w.handles.map Prod.snd)
  let lost := (List.range w.graph.cellCount).filter fun i =>
    (w.graph.parent? i).any fun p => !used.contains p
  refine ⟨lost, Graph.ext_cell? fun i => ?_⟩
  have hcell : w.release.graph.cell? i =
      (w.graph.cell? i).map fun c => { c with parent := c.parent.filter used.contains } :=
    Array.getElem?_map
  rw [hcell, Graph.cell?_foldl_detach]
  cases hc : w.graph.cell? i with
  | none => simp
  | some c =>
      have hi : i < w.graph.cellCount := Graph.isSome_cell?_iff.mp (by simp [hc])
      obtain ⟨content, parent, settled, knownSize⟩ := c
      have hmem : i ∈ lost ↔ parent.any (fun p => !used.contains p) = true := by
        simp only [lost, List.mem_filter, List.mem_range, hi, true_and, Graph.parent?, hc,
          Option.bind_some]
      rw [Option.map_some, Option.map_some]
      cases parent with
      | none => simp [hmem]
      | some p =>
          have hkeep : (some p).filter used.contains = if p ∈ used then some p else none := by
            simp [Option.filter]
          rw [hkeep]
          by_cases hused : p ∈ used
          · simp [hmem, hused]
          · simp [hmem, hused]

/-- A session stays within the reachable graphs when parent links are dropped. -/
theorem Workspace.reachable_release {w : Workspace} (h : w.graph.Reachable) :
    w.release.graph.Reachable := by
  obtain ⟨is, his⟩ := w.release_eq_foldl_detach
  rw [his]
  exact Graph.reachable_foldl_detach h is

end Formula
