/-
Formula/Proofs/Graph/Sizes.lean

Remembered sizes are never out of date where it matters.  While a cell is held by
two owners, only the one its parent link names forgets when the cell changes, so
the other may remember a size that is wrong.  It is not well-formed then, and it
becomes well-formed again only by an assignment that makes everything above the
slot forget.

`SizesRight` says this of the tree a cell holds.  Here the tree is read as what
the nodes themselves show: the cells that paths through the slots lead to
(`below`).
-/
import Formula.Proofs.Graph.Links
import Mathlib.Data.Set.Card

namespace Formula

namespace Graph

section

variable {α : Type} {g : Graph α} {i c : Nat} {n : Node α} {F : Finset Nat}

/-- The cells that can be reached from a cell through slots, itself included. -/
def below (g : Graph α) (i : Nat) : Set Nat := {c | ∃ path, g.follow i path = some c}

theorem mem_below_self (g : Graph α) (i : Nat) : i ∈ g.below i := ⟨[], rfl⟩

/-- Below an operand is below its owner. -/
theorem mem_below_of_slot? {s : Slot} {x : Nat} (hx : g.slot? i s = some x) (hc : c ∈ g.below x) :
    c ∈ g.below i := by
  obtain ⟨path, hpath⟩ := hc
  exact ⟨s :: path, by rw [follow, hx, Option.bind_some, hpath]⟩

/-- What is closed under operands holds all that is below its cells. -/
theorem mem_of_mem_below {S : Nat → Prop} (hclosed : ∀ c, S c → ∀ x ∈ g.operands c, S x) (hi : S i)
    (hc : c ∈ g.below i) : S c := by
  obtain ⟨path, hpath⟩ := hc
  exact of_follow (fun o s x ho hx => hclosed o ho x (mem_operands_of_slot? hx)) hi hpath

/-- Some path leads to each cell of a tree. -/
theorem Holds.mem_below (h : Holds g i n F) : ∀ c ∈ F, c ∈ g.below i := by
  induction h with
  | const | var =>
      intro c hc
      rw [Finset.mem_singleton.mp hc]
      exact mem_below_self g _
  | @unary i x op n F hcontent _ _ _ ih =>
      have hslot : g.slot? i .operand = some x := by simp [slot?, hcontent]
      intro c hc
      rcases Finset.mem_insert.mp hc with rfl | hc
      · exact mem_below_self g c
      · exact mem_below_of_slot? hslot (ih c hc)
  | @binary i l r op m n E F hcontent _ _ _ _ _ _ _ ihl ihr =>
      have hleft : g.slot? i .left = some l := by simp [slot?, hcontent]
      have hright : g.slot? i .right = some r := by simp [slot?, hcontent]
      intro c hc
      rcases Finset.mem_insert.mp hc with rfl | hc
      · exact mem_below_self g c
      rcases Finset.mem_union.mp hc with hc | hc
      · exact mem_below_of_slot? hleft (ihl c hc)
      · exact mem_below_of_slot? hright (ihr c hc)

/-- The cells of a tree are those below its root. -/
theorem Holds.below_eq (h : Holds g i n F) : g.below i = F := by
  ext c
  constructor
  · rintro ⟨path, hpath⟩
    exact h.mem_of_follow hpath
  · exact h.mem_below c

/-- The size of a tree is the number of cells below its root. -/
theorem Holds.ncard_below (h : Holds g i n F) : (g.below i).ncard = n.size := by
  rw [h.below_eq, Set.ncard_coe_finset, h.size_eq_card]

end

section

variable {α : Type} [Numeral α] [Arithmetic α] {g : Graph α}

/-- **Sizes are never out of date.**  In a reachable graph the size of a
well-formed tree is the number of cells that can be reached from its root, and
whatever its cells remember is the number of cells that can be reached from
them. -/
theorem size_eq_ncard_below (hg : Reachable g) (i : Nat) (hi : g.isWellFormed i = true) :
    (g.below i).Finite ∧ (g.size i).2 = (g.below i).ncard ∧
      ∀ c ∈ g.below i, ∀ k, g.knownSize? c = some k → k = (g.below c).ncard := by
  have hsizes : SizesRight g := hg.sound.sizes
  obtain ⟨n, F, hn⟩ := isWellFormed_iff.mp hi
  refine ⟨hn.below_eq ▸ F.finite_toSet, ?_, ?_⟩
  · rw [hn.size_eq hsizes, hn.ncard_below]
  · rintro c ⟨path, hpath⟩ k hk
    obtain ⟨m, E, -, hm⟩ := hn.exists_of_follow hpath
    rw [hsizes c m E k hm hk, hm.ncard_below]

end

/-- The negation in a sum is also the operand of a ceiling, and takes a
longer operand after the sum has been measured. -/
def sharedNegation : Graph Float :=
  let g := (((empty.add (.const 5)).1.newUnary .neg (some 0)).1.add (.const 2)).1
  let g := ((g.newBinary .add (some 1) (some 2)).1.newUnary .ceil (some 1)).1
  (((g.size 3).1.add (.var "x")).1.newUnary .sin (some 5)).1.setSlot 1 .operand (some 6)

/-- The sum remembers a size that is too small until it takes its operand back. -/
theorem size_eq_ncard_below_sharedNegation :
    sharedNegation.knownSize? 3 = some 4 ∧ sharedNegation.isWellFormed 3 = false ∧
      Reachable (sharedNegation.setSlot 3 .left (some 1)) ∧
      (sharedNegation.setSlot 3 .left (some 1)).isWellFormed 3 = true ∧
      ((sharedNegation.setSlot 3 .left (some 1)).below 3).ncard = 5 := by
  have hreachable : Reachable (sharedNegation.setSlot 3 .left (some 1)) :=
    .setSlot _ _ _ <| .setSlot _ _ _ <| .newUnary _ _ <| .newVar _ <| .size _ <| .newUnary _ _ <|
      .newBinary _ _ _ <| .newConst _ <| .newUnary _ _ <| .newConst _ .empty
  have hwell : (sharedNegation.setSlot 3 .left (some 1)).isWellFormed 3 = true := by decide +kernel
  have hsize : ((sharedNegation.setSlot 3 .left (some 1)).size 3).2 = 5 := by decide +kernel
  obtain ⟨-, heq, -⟩ := size_eq_ncard_below hreachable 3 hwell
  exact ⟨by decide +kernel, by decide +kernel, hreachable, hwell, heq.symm.trans hsize⟩

end Graph

end Formula
