/-
Formula/Proofs/Graph/NewCells.lean

What it changes to make one cell.

An operator is made with empty slots, which are filled one after the other.  The new
cell has no parent, so no other cell forgets anything: the operands get another
parent, and all else is as it was (`NewCell`).
-/
import Formula.Proofs.Graph.Edits

namespace Formula

universe u

/-- To empty an empty slot is nothing. -/
theorem Content.set_none {α : Type u} {c : Content α} {s : Slot} (h : c.get? s = none) :
    c.set s none = c := by
  cases c <;> cases s <;> simp_all [Content.set]

/-- Filling an empty slot adds an operand. -/
theorem Content.mem_operands_fill {α : Type u} {c : Content α} {s : Slot} (hslot : c.hasSlot s = true)
    (hempty : c.get? s = none) (x y : Nat) :
    y ∈ (c.set s (some x)).operands ↔ x = y ∨ y ∈ c.operands := by
  cases c <;> cases s <;>
    simp_all [Content.operands, Content.slots, Content.set, Content.hasSlot, eq_comm, or_comm]

namespace Graph

variable {α : Type} {K : Graph α → Nat → Prop} {R : Nat → Prop} {g g' : Graph α} {new : Content α}
  {s : Slot} {i : Nat} {x l r : Option Nat}

/-- A cell has been made and has become the parent of its operands.  If it is none of
them itself, it is all that differs besides. -/
structure NewCell (g : Graph α) (new : Content α) (g' : Graph α) : Prop where
  count : g'.cellCount = g.cellCount + 1
  content : ∀ c, g'.content? c = if c = g.cellCount then some new else g.content? c
  parent : ∀ c, g'.parent? c
    = if c ∈ new.operands ∧ c ≤ g.cellCount then some g.cellCount else g.parent? c
  mark : g.cellCount ∉ new.operands → ∀ c, g'.isSettled c = g.isSettled c

theorem newCell_add (hempty : new.operands = []) : NewCell g new (g.add new).1 where
  count := cellCount_add g new
  content c := content?_add g c new
  parent c := by rw [parent?_add, if_neg (by simp [hempty])]
  mark _ c := isSettled_add g c new

namespace NewCell

theorem content_self (h : NewCell g new g') : g'.content? g.cellCount = some new := by
  rw [h.content, if_pos rfl]

/-- Old cells hold the nodes they held. -/
theorem content_old (h : NewCell g new g') {c : Nat} (hc : c < g.cellCount) :
    g'.content? c = g.content? c := by
  rw [h.content, if_neg (Nat.ne_of_lt hc)]

theorem slot? (h : NewCell g new g') (s : Slot) : g'.slot? g.cellCount s = new.get? s := by
  rw [Graph.slot?, h.content_self, Option.bind_some]

theorem fill (h : NewCell g new g') (hslot : new.hasSlot s = true) (hempty : new.get? s = none)
    (x : Option Nat) :
    NewCell g (new.set s x) (x.toList.foldl (fun g' x => g'.setSlot g.cellCount s (some x)) g') := by
  cases x with
  | none =>
      rw [Content.set_none hempty]
      exact h
  | some x =>
      have hmem := Content.mem_operands_fill hslot hempty x
      have hslot' : g'.hasSlot g.cellCount s := hasSlot_iff.mpr ⟨new, h.content_self, hslot⟩
      have hempty' : g'.slot? g.cellCount s = none := (h.slot? s).trans hempty
      have hparent : ∀ c, (g'.setSlot g.cellCount s (some x)).parent? c
          = if c ∈ (new.set s (some x)).operands ∧ c ≤ g.cellCount then some g.cellCount
            else g.parent? c := by
        intro c
        rw [parent?_setSlot hslot', hempty', h.count, h.parent]
        simp only [hmem, Option.some.injEq, Nat.lt_succ_iff, reduceCtorEq, false_and, if_false]
        by_cases hxc : x = c <;> by_cases hc : c ≤ g.cellCount <;> simp [hxc, hc]
      refine ⟨(cellCount_setSlot _).trans h.count, fun c => ?_, hparent, fun hself c => ?_⟩
      · refine (content?_setSlot _ c).trans ?_
        by_cases hc : c = g.cellCount
        · rw [if_pos hc.symm, if_pos hc, hc, h.content_self, Option.map_some]
        · rw [if_neg (Ne.symm hc), if_neg hc, h.content, if_neg hc]
      · -- the way up from the new cell ends at once
        have htop : (g'.setSlot g.cellCount s (some x)).parent? g.cellCount = none := by
          rw [hparent, if_neg fun hmem => hself hmem.1, parent?_of_le (Nat.le_refl _)]
        have hold := h.mark fun hmem' => hself ((hmem _).mpr (.inr hmem'))
        refine (Bool.eq_iff_iff.mpr ?_).trans (hold c)
        refine (isSettled_setSlot hslot' _ c).trans (and_iff_left_of_imp fun hc hup => ?_)
        rw [eq_of_up htop hup, hold, isSettled_of_le (Nat.le_refl _)] at hc
        cases hc

end NewCell

theorem newCell_newUnary (g : Graph α) (op : UnaryOp) (x : Option Nat) :
    NewCell g (.unary op x) (g.newUnary op x).1 := by
  have hadd : NewCell g (.unary op none) (g.add (.unary op none)).1 := newCell_add rfl
  exact hadd.fill (s := .operand) rfl rfl x

theorem newCell_newBinary (g : Graph α) (op : BinaryOp) (l r : Option Nat) :
    NewCell g (.binary op l r) (g.newBinary op l r).1 := by
  have hadd : NewCell g (.binary op none none) (g.add (.binary op none none)).1 := newCell_add rfl
  have hleft := hadd.fill (s := .left) rfl rfl l
  exact hleft.fill (s := .right) rfl (Content.get?_right l none op) r

/-! ### The edits -/

/-- An empty slot is filled, or stays empty. -/
theorem edits_fill (hi : R i) (hx : ∀ y, x = some y → R y) (hempty : g.slot? i s = none) :
    Edits K R g (x.toList.foldl (fun g x => g.setSlot i s (some x)) g) := by
  cases x with
  | none => exact .refl
  | some x => exact .single (.setSlot hi hx (by simp [hempty]))

theorem edits_newUnary (op : UnaryOp) (hi : R g.cellCount) (hx : ∀ y, x = some y → R y) :
    Edits K R g (g.newUnary op x).1 := by
  have hadd : NewCell g (.unary op none) (g.add (.unary op none)).1 := newCell_add rfl
  exact Edits.trans (.single (.add rfl)) (edits_fill hi hx (hadd.slot? .operand))

theorem edits_newBinary (op : BinaryOp) (hi : R g.cellCount) (hl : ∀ y, l = some y → R y)
    (hr : ∀ y, r = some y → R y) : Edits K R g (g.newBinary op l r).1 := by
  have hadd : NewCell g (.binary op none none) (g.add (.binary op none none)).1 := newCell_add rfl
  have hleft := hadd.fill (s := .left) rfl rfl l
  have hempty := (hleft.slot? .right).trans (Content.get?_right l none op)
  exact (Edits.single (.add rfl)).trans
    ((edits_fill hi hl (hadd.slot? .left)).trans (edits_fill hi hr hempty))

end Graph

end Formula
