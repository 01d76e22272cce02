/-
Formula/Proofs/Traversal/Places.lean

The places of an expression in the orders of its traversals.

Breadth first, upper levels come first, and on a level what is further left; depth
first, an owner comes before what is below it, and otherwise what is further left
comes first (`TraversalOrder.Precedes`).

The depth-first order is the preorder (`pairwise_preorder`).  In the breadth-first
order the pending places are in order, and the operands of each of them come behind
all of them.  A turn keeps this (`InTurn.turn`), and so what a run lists is in order
(`InTurn.pairwise_of_visits`).  The walk over an expression is one over its places
(`exists_visits`).
-/
import Formula.Proofs.Simplify.Terms
import Formula.Proofs.Simplify.Weight

namespace Formula

universe u

namespace TraversalOrder

variable {order : TraversalOrder} {p q : Path}

/-- The first place comes before the second one.  Breadth first, the upper level
comes first, and on one level what is further left.  Depth first, an owner comes
before what is below it, and otherwise what is further left comes first. -/
def Precedes : TraversalOrder → Path → Path → Prop
  | breadthFirst, p, q => p.length < q.length ∨ p.length = q.length ∧ p.IsLeftOf q
  | depthFirst, p, q => (p <+: q ∧ p ≠ q) ∨ p.IsLeftOf q

theorem Precedes.ne (h : order.Precedes p q) : p ≠ q := by
  cases order with
  | breadthFirst =>
      rcases h with h | ⟨-, h⟩
      · rintro rfl
        exact Nat.lt_irrefl _ h
      · exact h.apart.ne
  | depthFirst =>
      rcases h with ⟨-, h⟩ | h
      · exact h
      · exact h.apart.ne

/-- Below an owner, places are in the same order as below its operand. -/
theorem Precedes.cons (s : Slot) (h : order.Precedes p q) : order.Precedes (s :: p) (s :: q) := by
  cases order with
  | breadthFirst =>
      rcases h with h | ⟨h, hleft⟩
      · exact .inl (Nat.succ_lt_succ h)
      · exact .inr ⟨congrArg Nat.succ h, hleft.cons s⟩
  | depthFirst =>
      rcases h with ⟨hpre, hne⟩ | hleft
      · exact .inl ⟨List.cons_prefix_cons.mpr ⟨rfl, hpre⟩, fun heq => hne (List.cons_injective heq)⟩
      · exact .inr (hleft.cons s)

end TraversalOrder

namespace Path

theorem IsLeftOf.append {p q : Path} (h : IsLeftOf p q) (a b : Path) : IsLeftOf (p ++ a) (q ++ b) := by
  obtain ⟨r, p', q', rfl, rfl⟩ := h
  exact ⟨r, p' ++ a, q' ++ b, by simp, by simp⟩

end Path

open TraversalOrder (Visits Precedes)

namespace Expr

variable {α : Type u} {e f : Expr α} {p q c : Path} {order : TraversalOrder}

/-! ### Places of an expression -/

/-- The slots of the topmost node from left to right. -/
def slots : Expr α → List Slot
  | unary .. => [.operand]
  | binary .. => [.left, .right]
  | _ => []

/-- The places of the operands of the node at a place. -/
def operandPlaces (e : Expr α) (p : Path) : List Path :=
  ((e.at? p).elim [] slots).map fun s => p ++ [s]

/-- The places of all nodes, an owner before its operands and these from left to
right. -/
def preorder : Expr α → List Path
  | hole => []
  | const _ | var _ => [[]]
  | unary _ x => [] :: x.preorder.map (.operand :: ·)
  | binary _ l r => [] :: (l.preorder.map (.left :: ·) ++ r.preorder.map (.right :: ·))

/-- The places at and below a place. -/
def placesFrom (e : Expr α) (p : Path) : List Path :=
  ((e.at? p).elim [] preorder).map (p ++ ·)

theorem isSome_operand?_iff {s : Slot} : (f.operand? s).isSome ↔ s ∈ f.slots := by
  cases f <;> cases s <;> simp [operand?, slots]

theorem isSome_of_mem_operandPlaces (hp : (e.at? p).isSome) (hc : c ∈ e.operandPlaces p) :
    (e.at? c).isSome := by
  obtain ⟨f, hf⟩ := Option.isSome_iff_exists.mp hp
  obtain ⟨s, hs, rfl⟩ := List.mem_map.mp hc
  rw [hf] at hs
  rw [at?_concat hf]
  exact isSome_operand?_iff.mpr hs

/-- The operands of a node are the parts at their places. -/
theorem map_at?_operandPlaces (he : e.isFilled) (hp : e.at? p = some f) :
    (e.operandPlaces p).map e.at? = f.operands.map some := by
  have hf : f.isFilled := isFilled_part he hp
  have hnot : ∀ {x : Expr α}, x.isFilled → x.isHole = false := fun {x} hx => by
    cases x <;> simp_all [isFilled, isHole]
  rw [operandPlaces, hp, List.map_map]
  cases f with
  | hole | const | var => rfl
  | unary op x =>
      have hx : x.isHole = false := hnot hf
      simp [slots, at?_concat hp, operand?, operands, hx]
  | binary op l r =>
      obtain ⟨hl, hr⟩ := Bool.and_eq_true_iff.mp hf
      simp [slots, at?_concat hp, operand?, operands, hnot hl, hnot hr]

/-- At and below a place there are the place, and what is at and below those of the
operands. -/
theorem placesFrom_eq (he : e.isFilled) (hp : (e.at? p).isSome) :
    e.placesFrom p = p :: (e.operandPlaces p).flatMap e.placesFrom := by
  obtain ⟨f, hf⟩ := Option.isSome_iff_exists.mp hp
  have hbelow : ∀ s, e.placesFrom (p ++ [s])
      = (((f.operand? s).elim [] preorder).map (s :: ·)).map (p ++ ·) := fun s => by
    rw [placesFrom, at?_concat hf, List.map_map]
    simp
  rw [placesFrom, operandPlaces, hf, List.flatMap_map]
  cases f with
  | hole => exact absurd (isFilled_part he hf) (by simp [isFilled])
  | const | var => simp [slots, preorder]
  | unary op x => simp [slots, preorder, hbelow, operand?]
  | binary op l r => simp [slots, preorder, hbelow, operand?]

theorem placesFrom_nil (e : Expr α) : e.placesFrom [] = e.preorder := by
  simp [placesFrom]

/-! ### The preorder -/

theorem length_preorder (e : Expr α) : e.preorder.length = e.size := by
  induction e with
  | hole | const | var => rfl
  | unary op x ih => simp [preorder, size, ih, Nat.add_comm]
  | binary op l r ihl ihr => simp [preorder, size, ihl, ihr, Nat.add_comm]

/-- The preorder has all places. -/
theorem mem_preorder_iff (he : e.isFilled) : p ∈ e.preorder ↔ (e.at? p).isSome := by
  induction e generalizing p with
  | hole => cases he
  | const | var => cases p <;> simp [preorder, at?_cons, operand?]
  | unary op x ih =>
      cases p with
      | nil => simp [preorder]
      | cons s p => cases s <;> simp [preorder, at?_cons, operand?, ih he]
  | binary op l r ihl ihr =>
      obtain ⟨hl, hr⟩ := Bool.and_eq_true_iff.mp he
      cases p with
      | nil => simp [preorder]
      | cons s p => cases s <;> simp [preorder, at?_cons, operand?, ihl hl, ihr hr]

theorem pairwise_preorder (e : Expr α) : e.preorder.Pairwise (Precedes .depthFirst) := by
  have hmap : ∀ (s : Slot) {ps : List Path}, ps.Pairwise (Precedes .depthFirst) →
      (ps.map (s :: ·)).Pairwise (Precedes .depthFirst) := fun s _ hps =>
    List.pairwise_map.mpr (hps.imp (Precedes.cons s))
  have hroot : ∀ s p, Precedes .depthFirst [] (s :: p) := fun s p =>
    .inl ⟨List.nil_prefix, (List.cons_ne_nil s p).symm⟩
  induction e with
  | hole => exact .nil
  | const | var => exact List.pairwise_singleton _ _
  | unary op x ih =>
      rw [preorder, List.pairwise_cons, List.forall_mem_map]
      exact ⟨fun p _ => hroot .operand p, hmap .operand ih⟩
  | binary op l r ihl ihr =>
      rw [preorder, List.pairwise_cons, List.forall_mem_append, List.forall_mem_map,
        List.forall_mem_map, List.pairwise_append]
      refine ⟨⟨fun p _ => hroot .left p, fun p _ => hroot .right p⟩, hmap .left ihl, hmap .right ihr, ?_⟩
      intro p hp q hq
      obtain ⟨a, -, rfl⟩ := List.mem_map.mp hp
      obtain ⟨b, -, rfl⟩ := List.mem_map.mp hq
      exact .inr ⟨[], a, b, rfl, rfl⟩

/-- No place is on a level below the lowest one. -/
theorem length_lt_depth (he : e.isFilled) (hp : (e.at? p).isSome) : p.length < e.depth := by
  obtain ⟨f, hf⟩ := Option.isSome_iff_exists.mp hp
  have hpos : 0 < f.depth := by
    have hfilled := isFilled_part he hf
    cases f with
    | hole => cases hfilled
    | const | var => exact Nat.one_pos
    | unary | binary => exact Nat.add_pos_left Nat.one_pos _
  have := length_add_depth_le hf
  omega

/-- Some place is on the lowest level. -/
theorem exists_length_eq (he : e.isFilled) : ∃ p ∈ e.preorder, p.length + 1 = e.depth := by
  induction e with
  | hole => cases he
  | const | var => exact ⟨[], List.mem_singleton_self _, rfl⟩
  | unary op x ih =>
      obtain ⟨p, hp, hlen⟩ := ih he
      refine ⟨.operand :: p, List.mem_cons_of_mem _ (List.mem_map_of_mem hp), ?_⟩
      simp only [List.length_cons, depth]
      omega
  | binary op l r ihl ihr =>
      obtain ⟨hl, hr⟩ := Bool.and_eq_true_iff.mp he
      obtain ⟨p, hp, hplen⟩ := ihl hl
      obtain ⟨q, hq, hqlen⟩ := ihr hr
      rcases Nat.le_total r.depth l.depth with hle | hle
      · refine ⟨.left :: p, List.mem_cons_of_mem _ (List.mem_append_left _ (List.mem_map_of_mem hp)), ?_⟩
        simp only [List.length_cons, depth]
        omega
      · refine ⟨.right :: q, List.mem_cons_of_mem _ (List.mem_append_right _ (List.mem_map_of_mem hq)), ?_⟩
        simp only [List.length_cons, depth]
        omega

/-! ### Level by level -/

theorem length_of_mem_operandPlaces (hc : c ∈ e.operandPlaces p) : c.length = p.length + 1 := by
  obtain ⟨s, -, rfl⟩ := List.mem_map.mp hc
  simp

theorem pairwise_operandPlaces (e : Expr α) (p : Path) :
    (e.operandPlaces p).Pairwise Path.IsLeftOf := by
  rw [operandPlaces, List.pairwise_map]
  cases e.at? p with
  | none => exact .nil
  | some f =>
      cases f with
      | binary op l r =>
          refine List.pairwise_pair.mpr ?_
          exact ⟨p, [], [], rfl, rfl⟩
      | _ => simp [slots]

/-- The order of the operands follows that of their owners. -/
theorem isLeftOf_operandPlaces {a b : Path} (hpq : p.IsLeftOf q) (ha : a ∈ e.operandPlaces p)
    (hb : b ∈ e.operandPlaces q) : a.IsLeftOf b := by
  obtain ⟨s, -, rfl⟩ := List.mem_map.mp ha
  obtain ⟨t, -, rfl⟩ := List.mem_map.mp hb
  exact hpq.append [s] [t]

/-- What comes before a place comes before its operands. -/
theorem precedes_operandPlaces (hpq : Precedes .breadthFirst q p) (hc : c ∈ e.operandPlaces p) :
    Precedes .breadthFirst q c := by
  have hlen := length_of_mem_operandPlaces hc
  refine .inl ?_
  rcases hpq with h | ⟨h, -⟩ <;> omega

/-- While places are pending breadth first, they are in order, and the operands of
each of them come behind all of them. -/
structure InTurn (e : Expr α) (pending : List Path) : Prop where
  ordered : pending.Pairwise (Precedes .breadthFirst)
  behind : ∀ p ∈ pending, ∀ c ∈ e.operandPlaces p, ∀ q ∈ pending, Precedes .breadthFirst q c

theorem inTurn_root (e : Expr α) : e.InTurn [[]] where
  ordered := List.pairwise_singleton _ _
  behind := by
    intro p hp c hc q hq
    rw [List.mem_singleton.mp hq]
    rw [List.mem_singleton.mp hp] at hc
    have := length_of_mem_operandPlaces hc
    exact .inl (by omega)

/-- A turn keeps the order. -/
theorem InTurn.turn {rest : List Path} (h : e.InTurn (p :: rest)) :
    e.InTurn (rest ++ e.operandPlaces p) := by
  obtain ⟨hfirst, hrest⟩ := List.pairwise_cons.mp h.ordered
  have hbehind : ∀ c ∈ e.operandPlaces p, ∀ q ∈ rest, Precedes .breadthFirst q c := fun c hc q hq =>
    h.behind p List.mem_cons_self c hc q (List.mem_cons_of_mem p hq)
  constructor
  case ordered =>
    refine List.pairwise_append.mpr ⟨hrest, ?_, fun q hq c hc => hbehind c hc q hq⟩
    refine (pairwise_operandPlaces e p).imp_of_mem fun {a b} ha hb hleft => ?_
    exact .inr ⟨(length_of_mem_operandPlaces ha).trans (length_of_mem_operandPlaces hb).symm, hleft⟩
  case behind =>
    intro a ha c hc q hq
    rcases List.mem_append.mp ha with ha | ha <;> rcases List.mem_append.mp hq with hq | hq
    · exact h.behind a (List.mem_cons_of_mem p ha) c hc q (List.mem_cons_of_mem p hq)
    · -- the new ones come before the operands of the others, as their owner came before these
      have hqlen := length_of_mem_operandPlaces hq
      have hclen := length_of_mem_operandPlaces hc
      rcases hfirst a ha with hlen | ⟨hlen, hleft⟩
      · exact .inl (by omega)
      · exact .inr ⟨by omega, isLeftOf_operandPlaces hleft hq hc⟩
    · exact precedes_operandPlaces (hbehind a ha q hq) hc
    · -- operands of operands are a level further down
      have hqlen := length_of_mem_operandPlaces hq
      have halen := length_of_mem_operandPlaces ha
      have hclen := length_of_mem_operandPlaces hc
      exact .inl (by omega)

/-- A run lists places in order. -/
theorem InTurn.pairwise_of_visits {pending visited : List Path}
    (h : Visits .breadthFirst e.operandPlaces pending visited) (hturn : e.InTurn pending) :
    visited.Pairwise (Precedes .breadthFirst) := by
  induction h with
  | nil => exact .nil
  | @cons p rest visited hvisits ih =>
      have hnext : e.InTurn (rest ++ e.operandPlaces p) := hturn.turn
      refine List.pairwise_cons.mpr ⟨?_, ih hnext⟩
      -- the first one comes before all that are pending, and so before all that are listed
      refine hvisits.forall_mem (fun q hq c hc => precedes_operandPlaces hq hc) ?_
      obtain ⟨hfirst, -⟩ := List.pairwise_cons.mp hturn.ordered
      refine TraversalOrder.forall_enqueue (fun c hc => ?_) hfirst
      exact hturn.behind p List.mem_cons_self c hc p List.mem_cons_self

/-- The last place in the breadth-first order is on the lowest level. -/
theorem exists_getLast? {places : List Path} (he : e.isFilled) (hperm : places.Perm e.preorder)
    (hordered : places.Pairwise (Precedes .breadthFirst)) :
    ∃ p, places.getLast? = some p ∧ p.length + 1 = e.depth := by
  obtain ⟨q, hq, hqlen⟩ := exists_length_eq he
  have hq := hperm.mem_iff.mpr hq
  obtain ⟨init, p, rfl⟩ := List.eq_nil_or_concat' places |>.resolve_left (List.ne_nil_of_mem hq)
  refine ⟨p, List.getLast?_concat, ?_⟩
  have hlen : p.length < e.depth :=
    length_lt_depth he ((mem_preorder_iff he).mp (hperm.mem_iff.mp List.mem_concat_self))
  -- it is the lowest place, or this comes before it and is not further down
  rcases List.mem_append.mp hq with hq | hq
  · obtain ⟨-, -, hlast⟩ := List.pairwise_append.mp hordered
    have : q.length ≤ p.length := by
      rcases hlast q hq p (List.mem_singleton_self p) with h | ⟨h, -⟩
      · exact h.le
      · exact h.le
    omega
  · rwa [← List.mem_singleton.mp hq]

/-! ### What is listed -/

/-- Every order lists each place of an expression once, in that order, and the parts at
the places are the nodes. -/
theorem exists_visits (he : e.isFilled) (order : TraversalOrder) :
    ∃ places, order.Visits e.operandPlaces [[]] places ∧ places.map e.at? = (e.nodes order).map some ∧
      places.Perm e.preorder ∧ places.Pairwise (Precedes order) ∧
      (order = .depthFirst → places = e.preorder) := by
  have hclosed : ∀ p, (e.at? p).isSome → ∀ c ∈ e.operandPlaces p, (e.at? c).isSome :=
    fun p hp c hc => isSome_of_mem_operandPlaces hp hc
  have hstart : ∀ p ∈ [([] : Path)], (e.at? p).isSome := List.forall_mem_singleton.mpr rfl
  -- the walk, which meets parts, is one over the places of the parts
  have hnodes : order.Visits (fun a : Option (Expr α) => (a.elim [] operands).map some)
      ([([] : Path)].map e.at?) ((e.nodes order).map some) :=
    (visits_walk order [e]).map fun _ _ => rfl
  obtain ⟨places, hvisits, hparts⟩ := hnodes.exists_of_map (fun p hp => by
    obtain ⟨f, hf⟩ := Option.isSome_iff_exists.mp hp
    rw [map_at?_operandPlaces he hf, hf]
    rfl) hclosed hstart
  have hplaces : ∀ p ∈ places, e.placesFrom p = p :: (e.operandPlaces p).flatMap e.placesFrom :=
    fun p hp => placesFrom_eq he (hvisits.forall_mem hclosed hstart p hp)
  have hroot : [[]].flatMap e.placesFrom = e.preorder := by
    rw [List.flatMap_singleton, placesFrom_nil]
  have hpreorder : order = .depthFirst → places = e.preorder := by
    rintro rfl
    exact (hvisits.eq_flatMap hplaces).trans hroot
  refine ⟨places, hvisits, hparts, hroot ▸ hvisits.perm hplaces, ?_, hpreorder⟩
  cases order with
  | breadthFirst => exact InTurn.pairwise_of_visits hvisits (inTurn_root e)
  | depthFirst =>
      rw [hpreorder rfl]
      exact pairwise_preorder e

end Expr

end Formula
