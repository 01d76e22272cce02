/-
Formula/Proofs/Graph/Gap.lean

Trees with a gap.  `Context g i n p k F` is the tree `n` below `i` without its
part at the path `p`; `k` is the cell that sits there, and `F` are the cells
around the gap.  `Leads g i p k` adds the parent links on the way down.

A tree comes apart at every path (`Holds.exists_context`), and goes together
again with another tree in the gap (`Context.fill`).  In between the slot above
the gap is filled anew (`Context.setSlot`); that edit forgets the marks on the
way, which is what `Node.put` does to the tags there.
-/
import Formula.Proofs.Graph.Edits

namespace Formula

universe u

namespace Graph

variable {α : Type u}

/-- A tree without the part at a path. -/
inductive Context (g : Graph α) : Nat → Node α → Path → Nat → Finset Nat → Prop
  | here {k : Nat} {n : Node α} : Context g k n [] k ∅
  | operand {i x k : Nat} {t : Tag} {op : UnaryOp} {n : Node α} {p : Path} {F : Finset Nat} :
      g.content? i = some (.unary op (some x)) → i ∉ F →
      Context g x n p k F → Context g i (.unary t op n) (.operand :: p) k (insert i F)
  | left {i l r k : Nat} {t : Tag} {op : BinaryOp} {m n : Node α} {p : Path} {E F : Finset Nat} :
      g.content? i = some (.binary op (some l) (some r)) → g.parent? r = some i →
      i ∉ E → i ∉ F → Disjoint E F → Context g l m p k E → Holds g r n F →
      Context g i (.binary t op m n) (.left :: p) k (insert i (E ∪ F))
  | right {i l r k : Nat} {t : Tag} {op : BinaryOp} {m n : Node α} {p : Path} {E F : Finset Nat} :
      g.content? i = some (.binary op (some l) (some r)) → g.parent? l = some i →
      i ∉ E → i ∉ F → Disjoint E F → Holds g l m E → Context g r n p k F →
      Context g i (.binary t op m n) (.right :: p) k (insert i (E ∪ F))

/-- The path leads down to the cell, and parent links lead back. -/
def Leads (g : Graph α) (i : Nat) (p : Path) (k : Nat) : Prop :=
  match p with
  | [] => i = k
  | s :: p => ∃ x, g.slot? i s = some x ∧ g.parent? x = some i ∧ Leads g x p k

theorem Leads.follow {g : Graph α} {i k : Nat} {p : Path} (h : Leads g i p k) :
    g.follow i p = some k := by
  induction p generalizing i with
  | nil => exact congrArg some h
  | cons s p ih =>
      obtain ⟨x, hx, _, hlead⟩ := h
      simp [Graph.follow, hx, ih hlead]

theorem Leads.up {g : Graph α} {i k : Nat} {p : Path} (h : Leads g i p k) : g.Up k i := by
  induction p generalizing i with
  | nil =>
      obtain rfl : i = k := h
      exact .refl
  | cons s p ih =>
      obtain ⟨x, _, hparent, hlead⟩ := h
      exact (ih hlead).tail hparent

/-- The cells on the way down are above the parent of the cell at the end. -/
theorem Leads.exists_parent {g : Graph α} {i k : Nat} {s : Slot} {p : Path}
    (h : Leads g i (s :: p) k) : ∃ o, g.parent? k = some o ∧ g.Up o i := by
  induction p generalizing i s with
  | nil =>
      obtain ⟨x, _, hparent, rfl⟩ := h
      exact ⟨i, hparent, .refl⟩
  | cons t p ih =>
      obtain ⟨x, _, hparent, hlead⟩ := h
      obtain ⟨o, ho, hup⟩ := ih hlead
      exact ⟨o, ho, hup.tail hparent⟩

/-- The last step of the way down. -/
theorem leads_concat {g : Graph α} {i k : Nat} {p : Path} {s : Slot} :
    Leads g i (p ++ [s]) k ↔ ∃ o, Leads g i p o ∧ g.slot? o s = some k ∧ g.parent? k = some o := by
  induction p generalizing i with
  | nil =>
      constructor
      · rintro ⟨x, hx, hparent, rfl⟩
        exact ⟨i, rfl, hx, hparent⟩
      · rintro ⟨o, rfl, hx, hparent⟩
        exact ⟨k, hx, hparent, rfl⟩
  | cons t p ih =>
      constructor
      · rintro ⟨x, hx, hparent, hlead⟩
        obtain ⟨o, ho, hk⟩ := ih.mp hlead
        exact ⟨o, ⟨x, hx, hparent, ho⟩, hk⟩
      · rintro ⟨o, ⟨x, hx, hparent, ho⟩, hk⟩
        exact ⟨x, hx, hparent, ih.mpr ⟨o, ho, hk⟩⟩

/-- A tree comes apart at a path. -/
theorem Holds.exists_context {g : Graph α} {i : Nat} {n m : Node α} {F : Finset Nat} {p : Path}
    (h : Holds g i n F) (hm : n.at? p = some m) :
    ∃ k E E', Context g i n p k E ∧ Leads g i p k ∧ Holds g k m E' ∧ Disjoint E E' ∧
      F = E ∪ E' := by
  -- each step down leaves the cell and the other operand to the context
  induction p generalizing i n F with
  | nil =>
      obtain rfl := Option.some.inj hm
      exact ⟨i, ∅, F, .here, rfl, h, by simp, by simp⟩
  | cons s p ih =>
      cases h with
      | const => cases s <;> simp [Node.at?, Node.operand?] at hm
      | var => cases s <;> simp [Node.at?, Node.operand?] at hm
      | @unary _ x op n F hc hx hi hn =>
          cases s <;> simp only [Node.at?, Node.operand?, Option.bind_some, Option.bind_none,
            reduceCtorEq] at hm
          obtain ⟨k, E, E', hctx, hlead, hE', hdisj, rfl⟩ := ih hn hm
          simp only [Finset.mem_union, not_or] at hi
          refine ⟨k, insert i E, E', .operand hc hi.1 hctx, ⟨x, by simp [slot?, hc], hx, hlead⟩, hE',
            by simp [hi.2, hdisj], by simp⟩
      | @binary _ l r op a b A B hc hl hr hiA hiB hAB ha hb =>
          cases s <;> simp only [Node.at?, Node.operand?, Option.bind_some, Option.bind_none,
            reduceCtorEq] at hm
          · obtain ⟨k, E, E', hctx, hlead, hE', hdisj, rfl⟩ := ih ha hm
            simp only [Finset.mem_union, not_or] at hiA
            rw [Finset.disjoint_union_left] at hAB
            refine ⟨k, insert i (E ∪ B), E', .left hc hr hiA.1 hiB hAB.1 hctx hb,
              ⟨l, by simp [slot?, hc], hl, hlead⟩, hE', ?_, ?_⟩
            · simp [hiA.2, hdisj, hAB.2.symm]
            · rw [Finset.insert_union, Finset.union_right_comm]
          · obtain ⟨k, E, E', hctx, hlead, hE', hdisj, rfl⟩ := ih hb hm
            simp only [Finset.mem_union, not_or] at hiB
            rw [Finset.disjoint_union_right] at hAB
            refine ⟨k, insert i (A ∪ E), E', .right hc hl hiA hiB.1 hAB.1 ha hctx,
              ⟨r, by simp [slot?, hc], hr, hlead⟩, hE', ?_, ?_⟩
            · simp [hiB.2, hdisj, hAB.2]
            · rw [Finset.insert_union, Finset.union_assoc]

namespace Context

variable {g g' : Graph α} {i k : Nat} {n m : Node α} {p : Path}
  {F E : Finset Nat}

/-- Another tree in the gap makes a whole tree.  The way down to it has to be
without marks, since `put` leaves none there. -/
theorem fill (h : Context g i n p k F) (hlead : Leads g i p k)
    (hunmarked : ∀ o, g.parent? k = some o → ∀ c, g.Up o c → g.isSettled c = false)
    (hm : Holds g k m E) (hdisj : Disjoint F E) : Holds g i (n.put p m) (F ∪ E) := by
  -- above the place nothing is marked, so the tags on the way are fresh
  have hfresh : ∀ {i s p}, Leads g i (s :: p) k → g.tag i = .fresh := by
    intro i s p hlead
    obtain ⟨o, ho, hup⟩ := hlead.exists_parent
    exact congrArg Tag.mk (hunmarked o ho i hup)
  induction h with
  | here => simpa using hm
  | @operand i x k t op n p F hc hi _ ih =>
      rw [Finset.disjoint_insert_left] at hdisj
      have htag := hfresh hlead
      obtain ⟨y, hy, hparent, hrest⟩ := hlead
      obtain rfl : x = y := by simpa [slot?, hc] using hy
      rw [Finset.insert_union, Node.put, ← htag]
      refine .unary hc hparent ?_ (ih hrest hunmarked hm hdisj.2 hfresh)
      simp [hi, hdisj.1]
  | @left i l r k t op a b p A B hc hr hiA hiB hAB _ hb ih =>
      rw [Finset.disjoint_insert_left, Finset.disjoint_union_left] at hdisj
      have htag := hfresh hlead
      obtain ⟨y, hy, hparent, hrest⟩ := hlead
      obtain rfl : l = y := by simpa [slot?, hc] using hy
      rw [Finset.insert_union, Finset.union_right_comm, Node.put, ← htag]
      refine .binary hc hparent hr ?_ hiB ?_ (ih hrest hunmarked hm hdisj.2.1 hfresh) hb
      · simp [hiA, hdisj.1]
      · rw [Finset.disjoint_union_left]
        exact ⟨hAB, hdisj.2.2.symm⟩
  | @right i l r k t op a b p A B hc hl hiA hiB hAB ha _ ih =>
      rw [Finset.disjoint_insert_left, Finset.disjoint_union_left] at hdisj
      have htag := hfresh hlead
      obtain ⟨y, hy, hparent, hrest⟩ := hlead
      obtain rfl : r = y := by simpa [slot?, hc] using hy
      rw [Finset.insert_union, Finset.union_assoc, Node.put, ← htag]
      refine .binary hc hl hparent hiA ?_ ?_ ha (ih hrest hunmarked hm hdisj.2.2 hfresh)
      · simp [hiB, hdisj.1]
      · rw [Finset.disjoint_union_right]
        exact ⟨hAB, hdisj.2.1⟩

/-- A tree with a gap stands as long as the cells around the gap hold the same
and link back, and the trees beside the gap stand. -/
theorem congr (h : Context g i n p k F) (hcontent : ∀ c ∈ F, g'.content? c = g.content? c)
    (hparent : ∀ c ∈ F, c ≠ i → g'.parent? c = g.parent? c)
    (hside : ∀ {r : Nat} {b : Node α} {B : Finset Nat}, B ⊆ F → Holds g r b B → Holds g' r b B) :
    Context g' i n p k F := by
  induction h with
  | here => exact .here
  | @operand i x k t op n p F hc hi _ ih =>
      have hF := Finset.subset_insert i F
      refine .operand (by rw [hcontent i (by simp), hc]) hi (ih ?_ ?_ ?_)
      · exact fun c hmem => hcontent c (hF hmem)
      · exact fun c hmem _ => hparent c (hF hmem) fun heq => hi (heq ▸ hmem)
      · exact fun hB hb => hside (hB.trans hF) hb
  | @left i l r k t op a b p A B hc hr hiA hiB hAB _ hb ih =>
      have hA : A ⊆ insert i (A ∪ B) := Finset.subset_union_left.trans (Finset.subset_insert _ _)
      have hB : B ⊆ insert i (A ∪ B) := Finset.subset_union_right.trans (Finset.subset_insert _ _)
      refine .left (by rw [hcontent i (by simp), hc]) ?_ hiA hiB hAB (ih ?_ ?_ ?_) (hside hB hb)
      · rw [hparent r (hB hb.root_mem) fun heq => hiB (heq ▸ hb.root_mem), hr]
      · exact fun c hmem => hcontent c (hA hmem)
      · exact fun c hmem _ => hparent c (hA hmem) fun heq => hiA (heq ▸ hmem)
      · exact fun hsub hb => hside (hsub.trans hA) hb
  | @right i l r k t op a b p A B hc hl hiA hiB hAB ha _ ih =>
      have hA : A ⊆ insert i (A ∪ B) := Finset.subset_union_left.trans (Finset.subset_insert _ _)
      have hB : B ⊆ insert i (A ∪ B) := Finset.subset_union_right.trans (Finset.subset_insert _ _)
      refine .right (by rw [hcontent i (by simp), hc]) ?_ hiA hiB hAB (hside hA ha) (ih ?_ ?_ ?_)
      · rw [hparent l (hA ha.root_mem) fun heq => hiA (heq ▸ ha.root_mem), hl]
      · exact fun c hmem => hcontent c (hB hmem)
      · exact fun c hmem _ => hparent c (hB hmem) fun heq => hiB (heq ▸ hmem)
      · exact fun hsub hb => hside (hsub.trans hB) hb

theorem root_mem {s : Slot} (h : Context g i n (s :: p) k F) : i ∈ F := by
  cases h <;> simp

theorem root_mem_concat {s : Slot} (h : Context g i n (p ++ [s]) k F) : i ∈ F := by
  cases p with
  | nil => exact h.root_mem
  | cons => exact h.root_mem

/-- The way down goes through the cells around the gap. -/
theorem follow_mem {s : Slot} {o : Nat} (h : Context g i n (p ++ [s]) k F)
    (ho : g.follow i p = some o) : o ∈ F := by
  induction p generalizing i n F with
  | nil =>
      obtain rfl := Option.some.inj ho
      exact h.root_mem
  | cons t p ih =>
      cases h with
      | operand hc hi hctx =>
          exact Finset.mem_insert_of_mem (ih hctx (by simpa [Graph.follow, slot?, hc] using ho))
      | left hc hr hiA hiB hAB hctx hb =>
          have hmem := ih hctx (by simpa [Graph.follow, slot?, hc] using ho)
          exact Finset.mem_insert_of_mem (Finset.mem_union_left _ hmem)
      | right hc hl hiA hiB hAB ha hctx =>
          have hmem := ih hctx (by simpa [Graph.follow, slot?, hc] using ho)
          exact Finset.mem_insert_of_mem (Finset.mem_union_right _ hmem)

/-- The slot of the root is filled with another cell. -/
theorem setSlot_root {s : Slot} {y : Nat} (h : Context g i n [s] k F) (hold : g.slot? i s = some k)
    (hg : Honest (g.setSlot i s (some y))) (hk : k ∉ F) (hy : y ∉ F) (hlt : y < g.cellCount) :
    Context (g.setSlot i s (some y)) i n [s] y F ∧ Leads (g.setSlot i s (some y)) i [s] y := by
  have hcontent : (g.setSlot i s (some y)).content? i = (g.content? i).map (Content.set s (some y)) := by
    rw [content?_setSlot, if_pos rfl]
  have hlink : (g.setSlot i s (some y)).parent? y = some i := by
    rw [parent?_setSlot (hasSlot_of_slot? hold), if_pos ⟨rfl, hlt⟩]
  have hother : ∀ {c b} {B : Finset Nat}, Holds g c b B → k ∉ B → y ∉ B →
      (g.setSlot i s (some y)).parent? c = g.parent? c := fun hb hkB hyB =>
    parent?_setSlot_of_ne hold (fun heq => hkB (heq ▸ hb.root_mem)) fun heq => hyB (heq ▸ hb.root_mem)
  cases h with
  | operand hc hi hctx =>
      cases hctx
      rw [hc] at hcontent
      exact ⟨.operand hcontent hi .here, y, by simp [slot?, hcontent, Content.set], hlink, rfl⟩
  | left hc hr hiA hiB hAB hctx hb =>
      cases hctx
      simp only [Finset.mem_insert, Finset.empty_union, not_or] at hk hy
      rw [hc] at hcontent
      exact ⟨.left hcontent ((hother hb hk.2 hy.2).trans hr) hiA hiB hAB .here
        (hb.setSlot_of_not_mem hg hiB hy.2), y, by simp [slot?, hcontent, Content.set], hlink, rfl⟩
  | right hc hl hiA hiB hAB ha hctx =>
      cases hctx
      simp only [Finset.mem_insert, Finset.union_empty, not_or] at hk hy
      rw [hc] at hcontent
      exact ⟨.right hcontent ((hother ha hk.2 hy.2).trans hl) hiA hiB hAB
        (ha.setSlot_of_not_mem hg hiA hy.2) .here, y, by simp [slot?, hcontent, Content.set], hlink, rfl⟩

/-- The slot above the gap is filled with another cell. -/
theorem setSlot {s : Slot} {o y : Nat} (h : Context g i n (p ++ [s]) k F)
    (hlead : Leads g i p o) (hold : g.slot? o s = some k)
    (hg : Honest (g.setSlot o s (some y))) (hk : k ∉ F) (hy : y ∉ F) (hlt : y < g.cellCount) :
    Context (g.setSlot o s (some y)) i n (p ++ [s]) y F ∧
      Leads (g.setSlot o s (some y)) i (p ++ [s]) y := by
  induction p generalizing i n F with
  | nil =>
      obtain rfl : i = o := hlead
      exact h.setSlot_root hold hg hk hy hlt
  | cons t p ih =>
      obtain ⟨x, hx, hxi, hrest⟩ := hlead
      have ho := hrest.follow
      -- a cell of the context is neither the old nor the new cell
      have hother : ∀ c ∈ F, (g.setSlot o s (some y)).parent? c = g.parent? c := fun c hc =>
        parent?_setSlot_of_ne hold (by rintro rfl; exact hk hc) (by rintro rfl; exact hy hc)
      -- the first cell is above the slot
      have hnext : ∀ {A : Finset Nat}, i ∉ A → A ⊆ F → ∀ {a : Node α}, Context g x a (p ++ [s]) k A →
          (g.setSlot o s (some y)).content? i = g.content? i ∧
            (g.setSlot o s (some y)).parent? x = some i ∧
            Context (g.setSlot o s (some y)) x a (p ++ [s]) y A ∧
            Leads (g.setSlot o s (some y)) x (p ++ [s]) y := fun hi hsub _ hctx =>
        ⟨content?_setSlot_of_ne fun heq => hi (heq ▸ hctx.follow_mem ho),
          (hother x (hsub hctx.root_mem_concat)).trans hxi,
          ih hctx hrest (fun hkA => hk (hsub hkA)) fun hyA => hy (hsub hyA)⟩
      cases h with
      | operand hc hi hctx =>
          obtain rfl : _ = x := by simpa [slot?, hc] using hx
          obtain ⟨hc', hxi', hctx', hrest'⟩ := hnext hi (Finset.subset_insert _ _) hctx
          rw [hc] at hc'
          exact ⟨.operand hc' hi hctx', _, by simp [slot?, hc'], hxi', hrest'⟩
      | @left _ l r _ _ op _ _ _ A B hc hr hiA hiB hAB hctx hb =>
          obtain rfl : _ = x := by simpa [slot?, hc] using hx
          have hB : B ⊆ insert i (A ∪ B) := Finset.subset_union_right.trans (Finset.subset_insert _ _)
          obtain ⟨hc', hxi', hctx', hrest'⟩ := hnext hiA
            (Finset.subset_union_left.trans (Finset.subset_insert _ _)) hctx
          have hoB : o ∉ B := Finset.disjoint_left.mp hAB (hctx.follow_mem ho)
          rw [hc] at hc'
          exact ⟨.left hc' ((hother r (hB hb.root_mem)).trans hr) hiA hiB hAB hctx'
            (hb.setSlot_of_not_mem hg hoB fun hyB => hy (hB hyB)), _, by simp [slot?, hc'], hxi', hrest'⟩
      | @right _ l r _ _ op _ _ _ A B hc hl hiA hiB hAB ha hctx =>
          obtain rfl : _ = x := by simpa [slot?, hc] using hx
          have hA : A ⊆ insert i (A ∪ B) := Finset.subset_union_left.trans (Finset.subset_insert _ _)
          obtain ⟨hc', hxi', hctx', hrest'⟩ := hnext hiB
            (Finset.subset_union_right.trans (Finset.subset_insert _ _)) hctx
          have hoA : o ∉ A := Finset.disjoint_right.mp hAB (hctx.follow_mem ho)
          rw [hc] at hc'
          exact ⟨.right hc' ((hother l (hA ha.root_mem)).trans hl) hiA hiB hAB
            (ha.setSlot_of_not_mem hg hoA fun hyA => hy (hA hyA)) hctx', _, by simp [slot?, hc'], hxi',
            hrest'⟩

/-- Of the two slots above the gap the left one is filled from around it, if
the gap is in the right one. -/
theorem exists_left {o : Nat} (h : Context g i n (p ++ [.right]) k F)
    (ho : g.follow i p = some o) : ∃ l ∈ F, g.slot? o .left = some l := by
  induction p generalizing i n F with
  | nil =>
      obtain rfl := Option.some.inj ho
      cases h with
      | right hc _ _ _ _ ha _ =>
          refine ⟨_, Finset.mem_insert_of_mem (Finset.mem_union_left _ ha.root_mem), ?_⟩
          simp [slot?, hc]
  | cons t p ih =>
      cases h with
      | operand hc _ hctx =>
          obtain ⟨l, hl, hslot⟩ := ih hctx (by simpa [Graph.follow, slot?, hc] using ho)
          exact ⟨l, Finset.mem_insert_of_mem hl, hslot⟩
      | left hc _ _ _ _ hctx _ =>
          obtain ⟨l, hl, hslot⟩ := ih hctx (by simpa [Graph.follow, slot?, hc] using ho)
          exact ⟨l, Finset.mem_insert_of_mem (Finset.mem_union_left _ hl), hslot⟩
      | right hc _ _ _ _ _ hctx =>
          obtain ⟨l, hl, hslot⟩ := ih hctx (by simpa [Graph.follow, slot?, hc] using ho)
          exact ⟨l, Finset.mem_insert_of_mem (Finset.mem_union_right _ hl), hslot⟩

/-- Filling the slot above the gap with the root of another tree puts that tree
into the gap. -/
theorem put {s : Slot} {o y : Nat} (h : Context g i n (p ++ [s]) k F)
    (hlead : Leads g i p o) (hold : g.slot? o s = some k) (hg : Honest g) (hk : k ∉ F)
    (hm : Holds g y m E) (hdisj : Disjoint F E) :
    Holds (g.setSlot o s (some y)) i (n.put (p ++ [s]) m) (F ∪ E) := by
  have hg' := hg.setSlot o s (some y)
  have hslot := hasSlot_of_slot? hold
  have hy : y ∉ F := Finset.disjoint_right.mp hdisj hm.root_mem
  have ho : o ∉ E := Finset.disjoint_left.mp hdisj (h.follow_mem hlead.follow)
  have hlt := hm.lt y hm.root_mem
  obtain ⟨hctx, hlead'⟩ := h.setSlot hlead hold hg' hk hy hlt
  have hm' := hm.setSlot hg' ho fun c _ heq => (Option.some.inj heq).symm
  refine hctx.fill hlead' (fun o' ho' c hup => ?_) hm' hdisj
  rw [parent?_setSlot hslot, if_pos ⟨rfl, hlt⟩] at ho'
  obtain rfl := Option.some.inj ho'
  rw [Bool.eq_false_iff]
  exact fun hc => ((isSettled_setSlot hslot (some y) c).mp hc).2 hup

end Context

/-! ### Paths beside the gap -/

namespace Holds

variable {g : Graph α} {i : Nat} {n : Node α} {F : Finset Nat}

/-- When only one slot of a tree is filled anew, paths that do not go through it
lead where they did. -/
theorem follow_beside {g' : Graph α} (h : Holds g i n F) {p q : Path} {s : Slot} {o : Nat}
    {a b : Node α} (hlead : Leads g i p o) (ha : n.at? p = some a) (hb : n.at? q = some b)
    (hpq : ¬(p ++ [s]) <+: q)
    (hslot : ∀ c ∈ F, ∀ t, ¬(c = o ∧ t = s) → g'.slot? c t = g.slot? c t) :
    g'.follow i q = g.follow i q := by
  induction q generalizing i n F p with
  | nil => rfl
  | cons t q ih =>
      obtain ⟨c, hc, hb⟩ := Option.bind_eq_some_iff.mp hb
      obtain ⟨y, E, hy, hE, hsub, hiE, -⟩ := h.slot?_of_operand? hc
      -- a subtree without the owner of the slot has all its slots as before
      have houtside : o ∉ E → g'.follow y q = g.follow y q := by
        intro ho
        refine hE.follow_congr (fun c hmem t => hslot c (hsub hmem) t ?_) hb
        rintro ⟨rfl, -⟩
        exact ho hmem
      cases p with
      | nil =>
          obtain rfl : i = o := hlead
          have hts : t ≠ s := by
            rintro rfl
            exact hpq (by simp)
          simp only [follow, hslot i h.root_mem t (fun hit => hts hit.2), hy, Option.bind_some]
          exact houtside hiE
      | cons u p =>
          obtain ⟨x, hx, _, hrest⟩ := hlead
          obtain ⟨d, hd, ha⟩ := Option.bind_eq_some_iff.mp ha
          obtain ⟨x', D, hx', hD, hsubD, hiD, -⟩ := h.slot?_of_operand? hd
          obtain rfl : x = x' := Option.some.inj (hx.symm.trans hx')
          have hoD : o ∈ D := by
            obtain ⟨z, B, hz, hB, hBD⟩ := hD.follow_of_at? ha
            obtain rfl : o = z := Option.some.inj (hrest.follow.symm.trans hz)
            exact hBD hB.root_mem
          have hio : i ≠ o := by
            rintro rfl
            exact hiD hoD
          simp only [follow, hslot i h.root_mem t (fun hit => hio hit.1), hy, Option.bind_some]
          -- the paths go on together, or part here, and then the owner is in the other operand
          by_cases htu : t = u
          · subst htu
            obtain rfl : x = y := Option.some.inj (hx.symm.trans hy)
            obtain rfl : c = d := Option.some.inj (hc.symm.trans hd)
            exact ih hE hrest ha hb (fun hpre => hpq (by simpa using hpre))
              (fun c hc => hslot c (hsub hc))
          · exact houtside fun hoE => Finset.disjoint_left.mp
              (h.disjoint_operands htu hc hd hy hx hE hD) hoE hoD

/-- The root is not a cell of a proper part. -/
theorem not_mem_part (h : Holds g i n F) {s : Slot} {p : Path} {a : Node α} {x : Nat} {A : Finset Nat}
    (ha : n.at? (s :: p) = some a) (hx : g.follow i (s :: p) = some x) (hA : Holds g x a A) :
    i ∉ A := by
  obtain ⟨b, hb, ha⟩ := Option.bind_eq_some_iff.mp ha
  obtain ⟨y, hy, hx⟩ := Option.bind_eq_some_iff.mp hx
  obtain ⟨z, B, hz, hB, -, hiB, -⟩ := h.slot?_of_operand? hb
  obtain rfl : y = z := Option.some.inj (hy.symm.trans hz)
  obtain ⟨w, A', hw, hA', hsub⟩ := hB.follow_of_at? ha
  obtain rfl : x = w := Option.some.inj (hx.symm.trans hw)
  rw [(hA.unique hA').2]
  exact fun hmem => hiB (hsub hmem)

/-- Parts at paths that part ways have no cell in common. -/
theorem disjoint_of_apart (h : Holds g i n F) {p q : Path} {a b : Node α} {x y : Nat}
    {A B : Finset Nat} (hpq : ¬p <+: q) (hqp : ¬q <+: p) (ha : n.at? p = some a)
    (hb : n.at? q = some b) (hx : g.follow i p = some x) (hy : g.follow i q = some y)
    (hA : Holds g x a A) (hB : Holds g y b B) : Disjoint A B := by
  induction p generalizing i n F q with
  | nil => simp at hpq
  | cons s p ih =>
      cases q with
      | nil => simp at hqp
      | cons t q =>
          obtain ⟨c, hc, ha⟩ := Option.bind_eq_some_iff.mp ha
          obtain ⟨d, hd, hb⟩ := Option.bind_eq_some_iff.mp hb
          obtain ⟨x', hx', hx⟩ := Option.bind_eq_some_iff.mp hx
          obtain ⟨y', hy', hy⟩ := Option.bind_eq_some_iff.mp hy
          obtain ⟨x'', C, hx'', hC, -⟩ := h.slot?_of_operand? hc
          obtain ⟨y'', D, hy'', hD, -⟩ := h.slot?_of_operand? hd
          obtain rfl : x' = x'' := Option.some.inj (hx'.symm.trans hx'')
          obtain rfl : y' = y'' := Option.some.inj (hy'.symm.trans hy'')
          -- the paths go on together, or part here into operands that have no cell in common
          by_cases hst : s = t
          · subst hst
            obtain rfl : x' = y' := Option.some.inj (hx'.symm.trans hy')
            obtain rfl : c = d := Option.some.inj (hc.symm.trans hd)
            exact ih hC (by simpa using hpq) (by simpa using hqp) ha hb hx hy
          · have hAC : A ⊆ C := by
              obtain ⟨z, A', hz, hA', hsub⟩ := hC.follow_of_at? ha
              obtain rfl : x = z := Option.some.inj (hx.symm.trans hz)
              rw [(hA.unique hA').2]
              exact hsub
            have hBD : B ⊆ D := by
              obtain ⟨z, B', hz, hB', hsub⟩ := hD.follow_of_at? hb
              obtain rfl : y = z := Option.some.inj (hy.symm.trans hz)
              rw [(hB.unique hB').2]
              exact hsub
            exact Finset.disjoint_of_subset_left hAC (Finset.disjoint_of_subset_right hBD
              (h.disjoint_operands hst hc hd hx' hy' hC hD))

end Holds

end Graph

end Formula
