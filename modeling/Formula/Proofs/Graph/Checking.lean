/-
Formula/Proofs/Graph/Checking.lean

What the check for well-formed trees decides, in terms of slots and links alone.

A graph may share cells, name a parent that no longer holds a cell, leave slots
empty and have cycles.  `TreeBelow g i` says of the paths through the slots of such
a graph what makes the cells below `i` a tree: every operand links back to its
owner, no two paths lead to one cell (`Branches`), and no slot is empty.  A tree is
built from this by induction on the number of cells below (`TreeBelow.exists_holds`):
the owner is not below its operands, as the path to it is the empty one, and its
operands share no cell, as paths in different slots are different.

The check itself is a loop that keeps the cells it has seen and a stack of cells it
still has to see.  Its invariant is that the answer is yes exactly if the stack
holds trees apart from each other and from what has been seen (`turn_spec`).  Each
turn that gives no answer sees one more cell, so there are at most as many of them
as there are cells.
-/
import Formula.Proofs.Graph.Sizes
import Mathlib.Order.CompletePartialOrder

namespace Formula

universe u

namespace Graph

/-! ### Trees by their paths -/

section

variable {α : Type} {g : Graph α} {i c : Nat} {n : Node α} {F : Finset Nat}

/-- Of the cells that paths from a cell lead to, every operand has the cell that holds
it as its parent, and none is at the end of two paths. -/
structure Branches (g : Graph α) (i : Nat) : Prop where
  linked : ∀ path c s x, g.follow i path = some c → g.slot? c s = some x → g.parent? x = some c
  once : ∀ p q c, g.follow i p = some c → g.follow i q = some c → p = q

/-- Moreover, every slot of these cells is filled. -/
structure TreeBelow (g : Graph α) (i : Nat) : Prop extends Branches g i where
  filled : ∀ path c s, g.follow i path = some c → g.hasSlot c s = true → ∃ x, g.slot? c s = some x

/-- No path leads back to the root of a tree. -/
theorem Holds.follow_cons_ne (h : Holds g i n F) (s : Slot) (path : Path) :
    g.follow i (s :: path) ≠ some i := by
  intro hback
  obtain ⟨m, E, hm, hE⟩ := h.exists_of_follow hback
  exact h.not_mem_part hm hback hE hE.root_mem

/-- In a tree only one path leads to a cell. -/
theorem Holds.path_unique (h : Holds g i n F) {p q : Path} (hp : g.follow i p = some c)
    (hq : g.follow i q = some c) : p = q := by
  obtain ⟨m, A, hm, hA⟩ := h.exists_of_follow hp
  obtain ⟨k, B, hk, hB⟩ := h.exists_of_follow hq
  -- behind the shorter one of two paths that go on together, the rest leads back to its end
  have hshorter : ∀ {r t : Path}, g.follow i r = some c → g.follow i t = some c → r <+: t → r = t := by
    rintro r _ hr ht ⟨rest, rfl⟩
    rw [follow_append, hr, Option.bind_some] at ht
    cases rest with
    | nil => rw [List.append_nil]
    | cons s rest => exact absurd ht (hA.follow_cons_ne s rest)
  by_cases hpq : p <+: q
  · exact hshorter hp hq hpq
  by_cases hqp : q <+: p
  · exact (hshorter hq hp hqp).symm
  have hdisj := h.disjoint_of_apart hpq hqp hm hk hp hq hA hB
  exact absurd hB.root_mem (Finset.disjoint_left.mp hdisj hA.root_mem)

theorem Holds.exists_slot? (h : Holds g i n F) {s : Slot} (hs : g.hasSlot i s = true) :
    ∃ x, g.slot? i s = some x := by
  cases h with
  | const hc | var hc => cases s <;> simp [hasSlot, hc, Content.hasSlot, Content.slots] at hs
  | unary hc | binary hc => cases s <;> simp_all [hasSlot, slot?, Content.hasSlot, Content.slots]

theorem Holds.parent?_of_slot? (h : Holds g i n F) {s : Slot} {x : Nat} (hx : g.slot? i s = some x) :
    g.parent? x = some i := by
  obtain ⟨m, -, hm, -⟩ := h.exists_of_follow (p := [s]) (c := x) (by simp [follow, hx])
  obtain ⟨y, -, hy, -, -, -, hparent⟩ := h.slot?_of_operand? (m := m) (by simpa [Node.at?] using hm)
  obtain rfl : x = y := Option.some.inj (hx.symm.trans hy)
  exact hparent

/-- The paths of a tree are as they should be. -/
theorem Holds.treeBelow (h : Holds g i n F) : TreeBelow g i where
  linked path c s x hc hx := by
    obtain ⟨m, E, -, hE⟩ := h.exists_of_follow hc
    exact hE.parent?_of_slot? hx
  once p q c hp hq := h.path_unique hp hq
  filled path c s hc hs := by
    obtain ⟨m, E, -, hE⟩ := h.exists_of_follow hc
    exact hE.exists_slot? hs

/-- A path from an operand is a path from its owner, behind the slot. -/
theorem follow_cons {s : Slot} {x : Nat} (hx : g.slot? i s = some x) (path : Path) :
    g.follow i (s :: path) = g.follow x path := by
  rw [follow, hx, Option.bind_some]

theorem Branches.operand (h : Branches g i) {s : Slot} {x : Nat} (hx : g.slot? i s = some x) :
    Branches g x where
  linked path c t y hc := h.linked (s :: path) c t y ((follow_cons hx path).trans hc)
  once p q c hp hq :=
    (List.cons.inj (h.once _ _ c ((follow_cons hx p).trans hp) ((follow_cons hx q).trans hq))).2

theorem TreeBelow.operand (h : TreeBelow g i) {s : Slot} {x : Nat} (hx : g.slot? i s = some x) :
    TreeBelow g x where
  toBranches := h.toBranches.operand hx
  filled path c t hc := h.filled (s :: path) c t ((follow_cons hx path).trans hc)

/-- Every path ends at a cell that is there. -/
theorem Branches.lt (h : Branches g i) (hi : i < g.cellCount) : ∀ c ∈ g.below i, c < g.cellCount := by
  rintro c ⟨path, hpath⟩
  refine (of_follow (S := fun c => Branches g c ∧ c < g.cellCount) ?_ ⟨h, hi⟩ hpath).2
  rintro o s x ⟨ho, -⟩ hx
  exact ⟨ho.operand hx, lt_of_parent? (ho.linked [] o s x rfl hx)⟩

theorem Branches.finite_below (h : Branches g i) (hi : i < g.cellCount) : (g.below i).Finite :=
  (Finset.range g.cellCount).finite_toSet.subset fun c hc =>
    Finset.mem_coe.mpr (Finset.mem_range.mpr (h.lt hi c hc))

/-- The owner is not below its operands. -/
theorem Branches.not_mem_operand (h : Branches g i) {s : Slot} {x : Nat}
    (hx : g.slot? i s = some x) : i ∉ g.below x := by
  rintro ⟨path, hback⟩
  exact List.cons_ne_nil s path (h.once _ _ i ((follow_cons hx path).trans hback) rfl)

/-- No cell is below two operands. -/
theorem Branches.not_mem_both (h : Branches g i) {s t : Slot} (hst : s ≠ t) {x y : Nat}
    (hx : g.slot? i s = some x) (hy : g.slot? i t = some y) : ∀ c ∈ g.below x, c ∉ g.below y := by
  rintro c ⟨p, hp⟩ ⟨q, hq⟩
  exact hst (List.cons.inj (h.once _ _ c ((follow_cons hx p).trans hp) ((follow_cons hy q).trans hq))).1

/-- Fewer cells are below an operand than below its owner. -/
theorem Branches.ncard_operand_lt (h : Branches g i) (hi : i < g.cellCount) {s : Slot} {x : Nat}
    (hx : g.slot? i s = some x) : (g.below x).ncard < (g.below i).ncard := by
  have hsub : g.below x ⊆ g.below i := fun c hc => mem_below_of_slot? hx hc
  refine Set.ncard_lt_ncard ⟨hsub, fun hback => ?_⟩ (h.finite_below hi)
  exact h.not_mem_operand hx (hback (mem_below_self g i))

/-- Where the paths are as they should be, there is a tree. -/
theorem TreeBelow.exists_holds (h : TreeBelow g i) (hi : i < g.cellCount) : ∃ n F, Holds g i n F := by
  induction hk : (g.below i).ncard using Nat.strong_induction_on generalizing i with
  | _ k ih =>
      subst hk
      -- the operand in a slot has a tree, and its cells are those below it
      have hoperand : ∀ {s x}, g.slot? i s = some x →
          g.parent? x = some i ∧ ∃ n F, Holds g x n F ∧ ∀ c ∈ F, c ∈ g.below x := by
        intro s x hx
        have hparent := h.linked [] i s x rfl hx
        obtain ⟨n, F, hn⟩ :=
          ih _ (h.ncard_operand_lt hi hx) (h.operand hx) (lt_of_parent? hparent) rfl
        exact ⟨hparent, n, F, hn, hn.mem_below⟩
      obtain ⟨content, hcontent⟩ : ∃ content, g.content? i = some content :=
        Option.isSome_iff_exists.mp (by simpa [content?] using isSome_cell?_iff.mpr hi)
      cases content with
      | const v => exact ⟨_, _, .const hcontent⟩
      | var x => exact ⟨_, _, .var hcontent⟩
      | unary op x =>
          obtain ⟨x, hx⟩ := h.filled [] i .operand rfl
            (by simp [hasSlot, hcontent, Content.hasSlot, Content.slots])
          obtain ⟨hparent, n, F, hn, hF⟩ := hoperand hx
          have hi' : i ∉ F := fun hmem => h.not_mem_operand hx (hF i hmem)
          simp only [slot?, hcontent, Option.bind_some, Content.get?_operand] at hx
          subst hx
          exact ⟨_, _, .unary hcontent hparent hi' hn⟩
      | binary op l r =>
          obtain ⟨l, hl⟩ := h.filled [] i .left rfl
            (by simp [hasSlot, hcontent, Content.hasSlot, Content.slots])
          obtain ⟨r, hr⟩ := h.filled [] i .right rfl
            (by simp [hasSlot, hcontent, Content.hasSlot, Content.slots])
          obtain ⟨hparentl, m, E, hm, hE⟩ := hoperand hl
          obtain ⟨hparentr, n, F, hn, hF⟩ := hoperand hr
          have hiE : i ∉ E := fun hmem => h.not_mem_operand hl (hE i hmem)
          have hiF : i ∉ F := fun hmem => h.not_mem_operand hr (hF i hmem)
          have hEF : Disjoint E F := Finset.disjoint_left.mpr fun c hc hc' =>
            h.not_mem_both (by decide) hl hr c (hE c hc) (hF c hc')
          simp only [slot?, hcontent, Option.bind_some, Content.get?_left, Content.get?_right] at hl hr
          subst hl hr
          exact ⟨_, _, .binary hcontent hparentl hparentr hiE hiF hEF hm hn⟩

/-- A cell holds a tree exactly if its paths are as they should be. -/
theorem exists_holds_iff : (∃ n F, Holds g i n F) ↔ i < g.cellCount ∧ TreeBelow g i :=
  ⟨fun ⟨_, _, h⟩ => ⟨h.lt i h.root_mem, h.treeBelow⟩, fun ⟨hi, h⟩ => h.exists_holds hi⟩

end

/-! ### The check turn by turn -/

section

variable {α : Type} {g : Graph α}

/-- Where the check stands: the cells it has seen, and those it has still to see, the
next one first. -/
structure Walk where
  seen : Finset Nat
  stack : List Nat

/-- One turn of the check, to the next stage or to an answer.  The operands of the
cell come onto the stack from left to right. -/
def turn (g : Graph α) (w : Walk) : Walk ⊕ Bool :=
  match w.stack with
  | [] => .inr true
  | i :: rest =>
    if i ∈ w.seen then .inr false
    else
      match g.cell? i with
      | none => .inr false
      | some c =>
        if c.content.isFilled && c.content.operands.all (fun x => g.parent? x = some i) then
          .inl ⟨insert i w.seen, c.content.operands.reverse ++ rest⟩
        else .inr false

/-- The answer of the check, if there is one after so many turns. -/
def walk (g : Graph α) : Nat → Walk → Option Bool
  | 0, _ => none
  | turns + 1, w =>
    match g.turn w with
    | .inl w' => walk g turns w'
    | .inr answer => some answer

/-- The cells still to see hold trees, apart from each other and from what has been
seen. -/
def Walk.Clear (g : Graph α) (w : Walk) : Prop := ∃ E, AllHold g w.stack E ∧ Disjoint w.seen E

/-- The order of the cells makes no difference. -/
theorem AllHold.perm {is js : List Nat} (hperm : is.Perm js) {E : Finset Nat} (h : AllHold g is E) :
    AllHold g js E := by
  induction hperm generalizing E with
  | nil => exact h
  | cons i _ ih =>
      cases h with
      | cons hn hrest hdisj => exact .cons hn (ih hrest) hdisj
  | swap i j is =>
      cases h with
      | @cons _ _ m A _ hm hrest hdisj =>
          cases hrest with
          | @cons _ _ n B C hn hrest hdisj' =>
              obtain ⟨hAB, hAC⟩ := Finset.disjoint_union_right.mp hdisj
              rw [Finset.union_left_comm]
              exact .cons hn (.cons hm hrest hAC) (Finset.disjoint_union_right.mpr ⟨hAB.symm, hdisj'⟩)
  | trans _ _ ih ih' => exact ih' (ih h)

/-- A turn that answers does so as the cells still to see are clear or not; one that
does not answer leaves that as it is, and sees one more cell. -/
theorem turn_spec (g : Graph α) (w : Walk) :
    match g.turn w with
    | .inr answer => answer = true ↔ w.Clear g
    | .inl w' => (w'.Clear g ↔ w.Clear g) ∧
        ∃ i < g.cellCount, i ∉ w.seen ∧ w'.seen = insert i w.seen := by
  obtain ⟨seen, stack⟩ := w
  cases stack with
  | nil =>
      have hclear : Walk.Clear g ⟨seen, []⟩ := ⟨∅, .nil, Finset.disjoint_empty_right _⟩
      simp [turn, hclear]
  | cons i rest =>
      simp only [turn]
      by_cases hi : i ∈ seen
      case pos =>
        -- the cell would be met twice
        have hclear : ¬Walk.Clear g ⟨seen, i :: rest⟩ := by
          rintro ⟨E, hE, hdisj⟩
          cases hE with
          | cons hn _ _ =>
              exact Finset.disjoint_left.mp hdisj hi (Finset.mem_union_left _ hn.root_mem)
        simp [hi, hclear]
      cases hc : g.cell? i with
      | none =>
          have hclear : ¬Walk.Clear g ⟨seen, i :: rest⟩ := by
            rintro ⟨E, hE, -⟩
            cases hE with
            | cons hn _ _ =>
                have hlt := isSome_cell?_iff.mpr (hn.lt i hn.root_mem)
                simp [hc] at hlt
          simp [hi, hclear]
      | some c =>
          have hlt : i < g.cellCount := isSome_cell?_iff.mp (by simp [hc])
          by_cases hcell : (c.content.isFilled && c.content.operands.all
              (fun x => g.parent? x = some i)) = true
          case neg =>
            have hclear : ¬Walk.Clear g ⟨seen, i :: rest⟩ := by
              rintro ⟨E, hE, -⟩
              obtain ⟨hfilled, hparents, -⟩ := hE.operands hc
              exact hcell (Bool.and_eq_true_iff.mpr ⟨hfilled, hparents⟩)
            simp [hi, hcell, hclear]
          simp only [hi, if_false, hcell, if_true]
          refine ⟨⟨?_, ?_⟩, i, hlt, hi, rfl⟩
          · rintro ⟨E, hE, hdisj⟩
            obtain ⟨hiE, hdisj⟩ := Finset.disjoint_insert_left.mp hdisj
            obtain ⟨hfilled, hparents⟩ := Bool.and_eq_true_iff.mp hcell
            have hE' := hE.perm ((List.reverse_perm _).append_right rest)
            obtain ⟨_, hE', rfl⟩ := hE'.of_operands hc hfilled hparents hiE
            exact ⟨_, hE', Finset.disjoint_insert_right.mpr ⟨hi, hdisj⟩⟩
          · rintro ⟨_, hE, hdisj⟩
            obtain ⟨-, -, E, hE', hiE, rfl⟩ := hE.operands hc
            have hE' := hE'.perm ((List.reverse_perm _).symm.append_right rest)
            exact ⟨E, hE', Finset.disjoint_insert_left.mpr
              ⟨hiE, (Finset.disjoint_insert_right.mp hdisj).2⟩⟩

/-- With a turn for every cell that has not been seen, and one more, there is an
answer. -/
theorem walk_spec {w : Walk} {turns : Nat} (hseen : w.seen ⊆ Finset.range g.cellCount)
    (hturns : g.cellCount < turns + w.seen.card) :
    ∃ answer, g.walk turns w = some answer ∧ (answer = true ↔ w.Clear g) := by
  induction turns generalizing w with
  | zero =>
      have hcard := Finset.card_le_card hseen
      rw [Finset.card_range] at hcard
      omega
  | succ turns ih =>
      have hspec := turn_spec g w
      rw [walk]
      cases hturn : g.turn w with
      | inr answer =>
          rw [hturn] at hspec
          exact ⟨answer, rfl, hspec⟩
      | inl w' =>
          rw [hturn] at hspec
          obtain ⟨hclear, i, hlt, hi, hinsert⟩ := hspec
          have hcard : w'.seen.card = w.seen.card + 1 := by
            rw [hinsert, Finset.card_insert_of_notMem hi]
          have hseen' : w'.seen ⊆ Finset.range g.cellCount := by
            rw [hinsert]
            exact Finset.insert_subset (Finset.mem_range.mpr hlt) hseen
          obtain ⟨answer, hanswer, hiff⟩ := ih hseen' (by omega)
          exact ⟨answer, hanswer, hiff.trans hclear⟩

/-- **The check decides what a well-formed tree is.**  On every graph, whatever is
shared, empty or linked in a circle, the loop gives its answer within one turn more
than there are cells.  The answer is yes exactly if every slot that can be reached is
filled, every operand that can be reached has the cell that holds it as its parent,
and no cell is reached by two paths. -/
theorem isWellFormed_iff_treeBelow (g : Graph α) (i : Nat) :
    g.walk (g.cellCount + 1) ⟨∅, [i]⟩ = some (g.isWellFormed i) ∧
      (g.isWellFormed i = true ↔ i < g.cellCount ∧ TreeBelow g i) := by
  refine ⟨?_, isWellFormed_iff.trans exists_holds_iff⟩
  have hturns : g.cellCount < g.cellCount + 1 + (∅ : Finset Nat).card := by simp
  obtain ⟨answer, hanswer, hiff⟩ :=
    g.walk_spec (w := ⟨∅, [i]⟩) (Finset.empty_subset _) hturns
  have hclear : Walk.Clear g ⟨∅, [i]⟩ ↔ ∃ n F, Holds g i n F := by
    constructor
    · rintro ⟨E, hE, -⟩
      obtain ⟨n, hn⟩ := hE.exists_tree
      exact ⟨n, E, hn⟩
    · rintro ⟨n, F, hn⟩
      exact ⟨_, .cons hn .nil (Finset.disjoint_empty_right _), Finset.disjoint_empty_left _⟩
  rw [hanswer, Option.some.injEq, Bool.eq_iff_iff, hiff, hclear, isWellFormed_iff]

end

/-- A negation that is its own operand links back to itself, and is no tree. -/
example : (((empty : Graph Float).add (.unary .neg none)).1.setSlot 0 .operand (some 0)).isWellFormed 0
    = false := by decide +kernel

end Graph

end Formula
