/-
Formula/Proofs/Traversal/Basic.lean

What a traversal lists, whatever it goes through.

A traversal lists the first of the pending nodes, hands its operands to the
pending ones and goes on.  `Visits` says so of any kind of nodes whose operands are
known.  Three kinds are used: expressions, which the walk goes through; the places of
an expression, which tell equal parts apart; and the cells of a graph.  A traversal of
one kind is one of another kind where the operands correspond (`Visits.map`,
`Visits.exists_of_map`).

In both orders what is listed is a permutation of the preorder, since the operands
join the pending nodes on one side or the other (`Visits.perm`).  In the depth-first
order it is the preorder itself (`Visits.eq_flatMap`).
-/
import Formula.Expr.Traversal
import Mathlib.Data.List.Basic

namespace Formula

universe u v

namespace TraversalOrder

variable {β : Type u} {γ : Type v} {order : TraversalOrder} {operands : β → List β}
  {operands' : γ → List γ} {pending visited xs ys : List β}

/-- The second list is what is listed while the first one is pending: the first
pending node, and then what is listed when its operands have joined the others. -/
inductive Visits (order : TraversalOrder) (operands : β → List β) : List β → List β → Prop
  | nil : Visits order operands [] []
  | cons {b : β} {rest visited : List β} :
      Visits order operands (order.enqueue (operands b) rest) visited →
      Visits order operands (b :: rest) (b :: visited)

theorem enqueue_perm (order : TraversalOrder) (xs ys : List β) :
    (order.enqueue xs ys).Perm (xs ++ ys) := by
  cases order with
  | breadthFirst => exact List.perm_append_comm
  | depthFirst => exact .refl _

theorem mem_enqueue {b : β} : b ∈ order.enqueue xs ys ↔ b ∈ xs ∨ b ∈ ys :=
  (enqueue_perm order xs ys).mem_iff.trans List.mem_append

theorem map_enqueue (f : β → γ) :
    (order.enqueue xs ys).map f = order.enqueue (xs.map f) (ys.map f) := by
  cases order <;> exact List.map_append

/-- What holds of a node, its operands and the other pending ones holds of all that
are pending then. -/
theorem forall_enqueue {P : β → Prop} (hxs : ∀ b ∈ xs, P b) (hys : ∀ b ∈ ys, P b) :
    ∀ b ∈ order.enqueue xs ys, P b := by
  intro b hb
  rcases mem_enqueue.mp hb with hb | hb
  · exact hxs b hb
  · exact hys b hb

namespace Visits

/-- What operands have from their owners, all listed nodes have from the pending
ones. -/
theorem forall_mem {P : β → Prop} (h : order.Visits operands pending visited)
    (hclosed : ∀ b, P b → ∀ c ∈ operands b, P c) (hpending : ∀ b ∈ pending, P b) :
    ∀ b ∈ visited, P b := by
  induction h with
  | nil => exact hpending
  | @cons b rest visited _ ih =>
      obtain ⟨hb, hrest⟩ := List.forall_mem_cons.mp hpending
      exact List.forall_mem_cons.mpr ⟨hb, ih (forall_enqueue (hclosed b hb) hrest)⟩

/-- All pending nodes are listed, and with a node its operands. -/
theorem mem_of_mem_pending (h : order.Visits operands pending visited) :
    (∀ b ∈ pending, b ∈ visited) ∧ ∀ b ∈ visited, ∀ c ∈ operands b, c ∈ visited := by
  induction h with
  | nil => exact ⟨fun _ hb => hb, List.forall_mem_nil _⟩
  | @cons b rest visited _ ih =>
      obtain ⟨hpending, hclosed⟩ := ih
      have hlisted : ∀ c, c ∈ operands b ∨ c ∈ rest → c ∈ b :: visited := fun c hc =>
        List.mem_cons_of_mem b (hpending c (mem_enqueue.mpr hc))
      refine ⟨List.forall_mem_cons.mpr ⟨List.mem_cons_self, fun c hc => hlisted c (.inr hc)⟩,
        List.forall_mem_cons.mpr ⟨fun c hc => hlisted c (.inl hc), ?_⟩⟩
      exact fun a ha c hc => List.mem_cons_of_mem b (hclosed a ha c hc)

/-- Where the operands of an image are the images of the operands, the images are
listed in the same order. -/
theorem map {f : β → γ} (h : order.Visits operands pending visited)
    (hf : ∀ b ∈ visited, operands' (f b) = (operands b).map f) :
    order.Visits operands' (pending.map f) (visited.map f) := by
  induction h with
  | nil => exact .nil
  | @cons b rest visited _ ih =>
      obtain ⟨hb, hvisited⟩ := List.forall_mem_cons.mp hf
      refine .cons ?_
      rw [hb, ← map_enqueue]
      exact ih hvisited

/-- What lists images lists images of what can be listed. -/
theorem exists_of_map {f : β → γ} {P : β → Prop} {seen : List γ}
    (h : order.Visits operands' (pending.map f) seen)
    (hf : ∀ b, P b → operands' (f b) = (operands b).map f)
    (hclosed : ∀ b, P b → ∀ c ∈ operands b, P c) (hpending : ∀ b ∈ pending, P b) :
    ∃ visited, order.Visits operands pending visited ∧ visited.map f = seen := by
  generalize himages : pending.map f = images at h
  induction h generalizing pending with
  | nil =>
      obtain rfl := List.map_eq_nil_iff.mp himages
      exact ⟨[], .nil, rfl⟩
  | cons _ ih =>
      obtain ⟨b, rest, rfl, rfl, rfl⟩ := List.map_eq_cons_iff.mp himages
      obtain ⟨hb, hrest⟩ := List.forall_mem_cons.mp hpending
      obtain ⟨visited, hvisits, rfl⟩ := ih (forall_enqueue (hclosed b hb) hrest)
        (by rw [map_enqueue, hf b hb])
      exact ⟨b :: visited, .cons hvisits, rfl⟩

variable {pre : β → List β}

/-- In every order all that is below the pending nodes is listed, once for each way
to it. -/
theorem perm (h : order.Visits operands pending visited)
    (hpre : ∀ b ∈ visited, pre b = b :: (operands b).flatMap pre) :
    visited.Perm (pending.flatMap pre) := by
  induction h with
  | nil => exact .nil
  | @cons b rest visited _ ih =>
      obtain ⟨hb, hvisited⟩ := List.forall_mem_cons.mp hpre
      rw [List.flatMap_cons, hb, List.cons_append, ← List.flatMap_append]
      exact ((ih hvisited).trans ((enqueue_perm order _ _).flatMap_right pre)).cons b

/-- In the depth-first order all that is below a pending node is listed before the
next one. -/
theorem eq_flatMap (h : depthFirst.Visits operands pending visited)
    (hpre : ∀ b ∈ visited, pre b = b :: (operands b).flatMap pre) :
    visited = pending.flatMap pre := by
  induction h with
  | nil => rfl
  | @cons b rest visited _ ih =>
      obtain ⟨hb, hvisited⟩ := List.forall_mem_cons.mp hpre
      rw [List.flatMap_cons, hb, List.cons_append, ← List.flatMap_append]
      exact congrArg (b :: ·) (ih hvisited)

end Visits

end TraversalOrder

/-- The walk over pending expressions lists what they have to. -/
theorem Expr.visits_walk {α : Type u} (order : TraversalOrder) (pending : List (Expr α)) :
    order.Visits operands pending (walk order pending) := by
  induction pending using walk.induct order with
  | case1 =>
      rw [walk]
      exact .nil
  | case2 e rest ih =>
      rw [walk]
      exact .cons ih

end Formula
