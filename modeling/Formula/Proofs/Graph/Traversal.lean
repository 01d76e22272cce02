/-
Formula/Proofs/Graph/Traversal.lean

The two loops that list the cells of a tree.

Breadth first, the cells are in a queue that is read by position and grows at its
end; depth first, they are on a stack, onto which operands come from right to left,
so that the left one is taken next.  Each loop goes through the pending cells as
`Visits` says: of the queue these are the ones from its position on
(`Queue.loop_of_visits`), of the stack all, from its end (`Stack.loop_of_visits`).

In a well-formed tree there is one cell for each place of the expression, and its
operands are the cells of the places of the operands (`Holds.operands_cell`).  So the
loops list the cells of the places that a traversal of the expression lists
(`Holds.visits_cells`), and what is shown of these places holds of the cells
(`Holds.lists`).
-/
import Formula.Proofs.Graph.Terms
import Formula.Proofs.Traversal.Places

namespace Formula

open TraversalOrder (Visits Precedes)

namespace Graph

variable {α : Type} {g : Graph α} {i : Nat} {n : Node α} {F : Finset Nat} {order : TraversalOrder}

/-! ### The loops -/

/-- The answer of a loop, if there is one after so many turns. -/
def loop {σ β : Type} (turn : σ → σ ⊕ β) : Nat → σ → Option β
  | 0, _ => none
  | turns + 1, w =>
    match turn w with
    | .inl w' => loop turn turns w'
    | .inr answer => some answer

/-- Where the breadth-first loop stands: all cells that have been pending, the position
of the next one, and what has been listed. -/
structure Queue where
  cells : List Nat
  position : Nat
  listed : List Nat

/-- A turn of the breadth-first loop.  The operands of the next cell come to the end. -/
def Queue.turn (g : Graph α) (w : Queue) : Queue ⊕ List Nat :=
  match w.cells[w.position]? with
  | none => .inr w.listed
  | some c => .inl ⟨w.cells ++ g.operands c, w.position + 1, w.listed ++ [c]⟩

/-- Where the depth-first loop stands: the pending cells, the next one last, and what
has been listed. -/
structure Stack where
  cells : List Nat
  listed : List Nat

/-- A turn of the depth-first loop.  The operands of the next cell come in its place,
the left one last. -/
def Stack.turn (g : Graph α) (w : Stack) : Stack ⊕ List Nat :=
  match w.cells.getLast? with
  | none => .inr w.listed
  | some c => .inl ⟨w.cells.dropLast ++ (g.operands c).reverse, w.listed ++ [c]⟩

/-- The cells that are listed from a cell on, if the loop has ended after so many turns. -/
def traverse (g : Graph α) (order : TraversalOrder) (turns i : Nat) : Option (List Nat) :=
  match order with
  | .breadthFirst => loop (Queue.turn g) turns ⟨[i], 0, []⟩
  | .depthFirst => loop (Stack.turn g) turns ⟨[i], []⟩

/-- The loop over a queue lists what the cells from the position on have to. -/
theorem Queue.loop_of_visits {pending visited : List Nat}
    (h : Visits .breadthFirst g.operands pending visited) {w : Queue}
    (hw : w.cells.drop w.position = pending) {turns : Nat} (hturns : visited.length < turns) :
    loop (Queue.turn g) turns w = some (w.listed ++ visited) := by
  induction h generalizing w turns with
  | nil =>
      obtain ⟨turns, rfl⟩ := Nat.exists_eq_add_one.mpr hturns
      have hend : w.cells[w.position]? = none :=
        List.getElem?_eq_none (List.drop_eq_nil_iff.mp hw)
      simp [loop, turn, hend]
  | @cons c rest visited _ ih =>
      obtain ⟨turns, rfl⟩ := Nat.exists_eq_add_one.mpr (Nat.zero_lt_of_lt hturns)
      have hnext : w.cells[w.position]? = some c := by
        rw [← Nat.add_zero w.position, ← List.getElem?_drop, hw]
        rfl
      have hlt : w.position < w.cells.length := (List.getElem?_eq_some_iff.mp hnext).1
      have hrest : (w.cells ++ g.operands c).drop (w.position + 1) = rest ++ g.operands c := by
        rw [List.drop_append_of_le_length hlt, ← List.tail_drop, hw, List.tail_cons]
      simp only [loop, turn, hnext]
      rw [ih hrest (Nat.lt_of_succ_lt_succ hturns), List.append_assoc, List.singleton_append]

/-- The loop over a stack lists what its cells have to, from its end on. -/
theorem Stack.loop_of_visits {pending visited : List Nat}
    (h : Visits .depthFirst g.operands pending visited) {w : Stack} (hw : w.cells = pending.reverse)
    {turns : Nat} (hturns : visited.length < turns) :
    loop (Stack.turn g) turns w = some (w.listed ++ visited) := by
  induction h generalizing w turns with
  | nil =>
      obtain ⟨turns, rfl⟩ := Nat.exists_eq_add_one.mpr hturns
      simp [loop, turn, hw]
  | @cons c rest visited _ ih =>
      obtain ⟨turns, rfl⟩ := Nat.exists_eq_add_one.mpr (Nat.zero_lt_of_lt hturns)
      rw [List.reverse_cons] at hw
      have hrest : rest.reverse ++ (g.operands c).reverse = (g.operands c ++ rest).reverse :=
        List.reverse_append.symm
      simp only [loop, turn, hw, List.getLast?_concat, List.dropLast_concat]
      rw [ih hrest (Nat.lt_of_succ_lt_succ hturns), List.append_assoc, List.singleton_append]

/-- A loop ends with what there is to list, one turn after it has listed it. -/
theorem traverse_of_visits {listed : List Nat} (h : order.Visits g.operands [i] listed) {turns : Nat}
    (hturns : listed.length < turns) : g.traverse order turns i = some listed := by
  cases order with
  | breadthFirst => exact Queue.loop_of_visits h rfl hturns
  | depthFirst => exact Stack.loop_of_visits h rfl hturns

/-! ### The cells of a tree -/

/-- A list of all that is below a cell, each cell once, in the order of their places. -/
structure Lists (g : Graph α) (i : Nat) (order : TraversalOrder) (cells : List Nat) : Prop where
  mem_iff : ∀ c, c ∈ cells ↔ c ∈ g.below i
  nodup : cells.Nodup
  ordered : cells.Pairwise fun c d =>
    ∃ p q, g.follow i p = some c ∧ g.follow i q = some d ∧ order.Precedes p q

/-- Some places of a tree, and the nodes there. -/
theorem Locates.map_expr {e : Expr α} {cell : Path → Nat} (h : Locates g i e cell) {places : List Path}
    {nodes : List (Expr α)} (hnodes : places.map e.at? = nodes.map some) :
    (places.map cell).map g.expr = nodes := by
  induction places generalizing nodes with
  | nil => exact (List.map_eq_nil_iff.mp hnodes.symm).symm
  | cons p places ih =>
      obtain ⟨f, nodes, rfl, hf, hrest⟩ := List.map_eq_cons_iff.mp hnodes.symm
      rw [List.map_cons, List.map_cons, h.expr p f hf.symm, ih hrest.symm]

theorem Locates.follow_place {e : Expr α} {cell : Path → Nat} (h : Locates g i e cell) {p : Path}
    (hp : (e.at? p).isSome) : g.follow i p = some (cell p) := by
  obtain ⟨f, hf⟩ := Option.isSome_iff_exists.mp hp
  exact h.follow p f hf

namespace Holds

variable {cell : Path → Nat} {p : Path} {places : List Path}

/-- The operands of a cell are the cells of the places of the operands. -/
theorem operands_cell (hn : Holds g i n F) (h : Locates g i n.expr cell) (hp : (n.expr.at? p).isSome) :
    g.operands (cell p) = (n.expr.operandPlaces p).map cell := by
  obtain ⟨m, E, hm, hE⟩ := hn.exists_of_follow (h.follow_place hp)
  have hplaces : n.expr.operandPlaces p = m.expr.slots.map fun s => p ++ [s] := by
    rw [Expr.operandPlaces, Node.expr_at?, hm]
    rfl
  have hslot : ∀ s ∈ m.expr.slots, g.slot? (cell p) s = some (cell (p ++ [s])) := by
    intro s hs
    have hfollow := h.follow_place (Expr.isSome_of_mem_operandPlaces hp
      (hplaces ▸ List.mem_map_of_mem hs))
    rw [follow_append, h.follow_place hp, Option.bind_some] at hfollow
    simpa [follow] using hfollow
  rw [hplaces, List.map_map]
  cases hE with
  | const hc | var hc => simp [operands, hc, Content.operands, Content.slots, Node.expr, Expr.slots]
  | unary hc =>
      have hx := hslot .operand (by simp [Node.expr, Expr.slots])
      simp only [slot?, hc, Option.bind_some, Content.get?_operand, Option.some.injEq] at hx
      simp [operands, hc, Content.operands, Content.slots, Node.expr, Expr.slots, ← hx]
  | binary hc =>
      have hl := hslot .left (by simp [Node.expr, Expr.slots])
      have hr := hslot .right (by simp [Node.expr, Expr.slots])
      simp only [slot?, hc, Option.bind_some, Content.get?_left, Content.get?_right,
        Option.some.injEq] at hl hr
      simp [operands, hc, Content.operands, Content.slots, Node.expr, Expr.slots, ← hl, ← hr]

/-- What visits the places of a tree visits its cells. -/
theorem visits_cells (hn : Holds g i n F) (h : Locates g i n.expr cell)
    (hmem : ∀ p ∈ places, (n.expr.at? p).isSome)
    (hvisits : order.Visits n.expr.operandPlaces [[]] places) :
    order.Visits g.operands [i] (places.map cell) := by
  have hroot : cell [] = i := (Option.some.inj (h.follow [] _ rfl)).symm
  have hcells : order.Visits g.operands ([[]].map cell) (places.map cell) :=
    hvisits.map fun p hp => hn.operands_cell h (hmem p hp)
  rwa [List.map_singleton, hroot] at hcells

/-- Where some places in order are all places of a tree, their cells list the tree. -/
theorem lists (hn : Holds g i n F) (h : Locates g i n.expr cell)
    (hmem : ∀ p, p ∈ places ↔ (n.expr.at? p).isSome) (hordered : places.Pairwise order.Precedes) :
    g.Lists i order (places.map cell) := by
  have hfollow : ∀ p ∈ places, g.follow i p = some (cell p) := fun p hp =>
    h.follow_place ((hmem p).mp hp)
  constructor
  case mem_iff =>
    intro c
    constructor
    · intro hc
      obtain ⟨p, hp, rfl⟩ := List.mem_map.mp hc
      exact ⟨p, hfollow p hp⟩
    · rintro ⟨p, hp⟩
      obtain ⟨m, -, hm, -⟩ := hn.exists_of_follow hp
      have hplace : p ∈ places := by
        rw [hmem, Node.isSome_at?_expr, hm]
        rfl
      exact List.mem_map.mpr ⟨p, hplace, Option.some.inj ((hfollow p hplace).symm.trans hp)⟩
  case nodup =>
    refine List.pairwise_map.mpr (hordered.imp_of_mem ?_)
    intro p q hp hq hpq heq
    exact hpq.ne (hn.path_unique (hfollow p hp) (heq ▸ hfollow q hq))
  case ordered =>
    refine List.pairwise_map.mpr (hordered.imp_of_mem ?_)
    intro p q hp hq hpq
    exact ⟨p, q, hfollow p hp, hfollow q hq, hpq⟩

end Holds

variable [Numeral α] [Arithmetic α]

/-- **Both traversals list the tree.**  For the root of a well-formed tree the loop of
each order ends, one turn after it has listed all cells of the tree, each of them once.
They are the cells of the nodes that are listed of the expression, and as many as the
size says.  So one list is a permutation of the other.

Depth first, they are in preorder: an owner comes first, then what is below it on the
left, then what is below it on the right.  Breadth first, they are in the order of
levels, and on a level from left to right; the last one is on the lowest level. -/
theorem traverse_lists_below (hi : g.isWellFormed i = true) :
    ∃ listing : TraversalOrder → List Nat,
      (∀ order,
        (∀ turns > (listing order).length, g.traverse order turns i = some (listing order)) ∧
        (listing order).map g.expr = (g.expr i).nodes order ∧
        g.Lists i order (listing order) ∧
        (listing order).length = (g.expr i).size ∧
        (Reachable g → (listing order).length = (g.size i).2)) ∧
      (listing .breadthFirst).Perm (listing .depthFirst) ∧
      (listing .depthFirst).map some = (g.expr i).preorder.map (g.follow i) ∧
      ∃ c p, (listing .breadthFirst).getLast? = some c ∧ g.follow i p = some c ∧
        p.length + 1 = (g.expr i).depth := by
  obtain ⟨n, F, hn⟩ := isWellFormed_iff.mp hi
  obtain ⟨cell, h⟩ := hn.exists_locates
  have hfilled : n.expr.isFilled := n.isFilled_expr
  choose places hvisits hnodes hperm hordered hpreorder using n.expr.exists_visits hfilled
  have hmem : ∀ order p, p ∈ places order ↔ (n.expr.at? p).isSome := fun order p =>
    (hperm order).mem_iff.trans (Expr.mem_preorder_iff hfilled)
  have hlength : ∀ order, ((places order).map cell).length = n.expr.size := fun order => by
    rw [List.length_map, (hperm order).length_eq, Expr.length_preorder]
  rw [h.root]
  refine ⟨fun order => (places order).map cell, fun order => ⟨?_, ?_, ?_, ?_, ?_⟩, ?_, ?_, ?_⟩
  · intro turns hturns
    exact traverse_of_visits (hn.visits_cells h (fun p => (hmem order p).mp) (hvisits order)) hturns
  · exact h.map_expr (hnodes order)
  · exact hn.lists h (hmem order) (hordered order)
  · exact hlength order
  · intro hg
    rw [hn.size_eq hg.sound.sizes, ← Node.size_expr]
    exact hlength order
  · exact ((hperm .breadthFirst).trans (hperm .depthFirst).symm).map cell
  · rw [← hpreorder .depthFirst rfl, List.map_map]
    exact List.map_congr_left fun p hp => (h.follow_place ((hmem .depthFirst p).mp hp)).symm
  · obtain ⟨p, hlast, hdepth⟩ :=
      Expr.exists_getLast? hfilled (hperm .breadthFirst) (hordered .breadthFirst)
    refine ⟨cell p, p, ?_, h.follow_place ((hmem _ p).mp (List.mem_of_getLast? hlast)), hdepth⟩
    rw [List.getLast?_map, hlast]
    rfl

/-- The opposite of a sum, times a variable. -/
def productOfNegation : Graph Float :=
  (((((empty.add (.var "a")).1.add (.var "b")).1.newBinary .add (some 0) (some 1)).1.newUnary .neg
    (some 2)).1.add (.var "c")).1.newBinary .mul (some 3) (some 4) |>.1

/-- The variable comes before the sum, which is a level further down, or after all of
it. -/
theorem traverse_lists_below_productOfNegation :
    productOfNegation.isWellFormed 5 = true ∧ Reachable productOfNegation ∧
      productOfNegation.traverse .breadthFirst 7 5 = some [5, 3, 4, 2, 0, 1] ∧
      productOfNegation.traverse .depthFirst 7 5 = some [5, 3, 2, 0, 1, 4] ∧
      productOfNegation.Lists 5 .breadthFirst [5, 3, 4, 2, 0, 1] ∧
      productOfNegation.Lists 5 .depthFirst [5, 3, 2, 0, 1, 4] ∧
      (productOfNegation.size 5).2 = 6 := by
  have hwell : productOfNegation.isWellFormed 5 = true := by decide +kernel
  have hreachable : Reachable productOfNegation :=
    .newBinary _ _ _ <| .newVar _ <| .newUnary _ _ <| .newBinary _ _ _ <| .newVar _ <|
      .newVar _ .empty
  have hsize : (productOfNegation.expr 5).size = 6 := by decide +kernel
  have hbreadth : productOfNegation.traverse .breadthFirst 7 5 = some [5, 3, 4, 2, 0, 1] := by
    decide +kernel
  have hdepth : productOfNegation.traverse .depthFirst 7 5 = some [5, 3, 2, 0, 1, 4] := by
    decide +kernel
  obtain ⟨listing, hlisting, -⟩ := traverse_lists_below hwell
  -- seven turns are enough for six cells
  have hlisted : ∀ order cells, productOfNegation.traverse order 7 5 = some cells →
      productOfNegation.Lists 5 order cells ∧ cells.length = (productOfNegation.size 5).2 := by
    intro order cells hcells
    obtain ⟨hturns, -, hlists, hlength, hremembered⟩ := hlisting order
    have hanswer := hturns 7 (by omega)
    obtain rfl := Option.some.inj (hcells.symm.trans hanswer)
    exact ⟨hlists, hremembered hreachable⟩
  obtain ⟨hlists, hlength⟩ := hlisted _ _ hbreadth
  exact ⟨hwell, hreachable, hbreadth, hdepth, hlists, (hlisted _ _ hdepth).1, hlength.symm⟩

end Graph

end Formula
