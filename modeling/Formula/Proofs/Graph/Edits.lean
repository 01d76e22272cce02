/-
Formula/Proofs/Graph/Edits.lean

Runs of edits.  `Edits K R g g'` says that `g'` comes from `g` by single edits
at cells of the region `R`, and that every cell that was marked on the way was
one that `K` allows to be marked.  Whatever the optimizer does, and whatever
users of the operand slots do, is a run of edits.

A run keeps parents honest, and outside its region it changes nothing but what
is remembered above the region (`Beside`).
-/
import Formula.Proofs.Graph.Tree

namespace Formula

universe u

namespace Graph

variable {α : Type u}

/-! ### Parents stay honest -/

namespace Honest

variable {g : Graph α}

theorem setSlot (hg : Honest g) (i : Nat) (s : Slot) (new : Option Nat) :
    Honest (g.setSlot i s new) := by
  by_cases hslot : g.hasSlot i s
  case neg =>
    rw [setSlot_of_not_hasSlot hslot]
    exact hg
  obtain ⟨c, hc, hcs⟩ := hasSlot_iff.mp hslot
  intro j p hparent
  rw [parent?_setSlot hslot] at hparent
  have hcontent := content?_setSlot (g := g) (i := i) (s := s) new p
  -- the new operand is in the slot; any other cell is where it was, unless it was taken out
  split at hparent
  · next hnew =>
    obtain rfl := Option.some.inj hparent
    rw [if_pos rfl, hc] at hcontent
    rw [operands, hcontent, hnew.1]
    exact Content.mem_operands_set_self j hcs
  · split at hparent
    · cases hparent
    · next hold =>
      have hj := hg j p hparent
      by_cases hip : i = p
      · subst hip
        rw [if_pos rfl, hc] at hcontent
        rw [operands, hcontent]
        rw [operands, hc] at hj
        refine Content.mem_operands_set hj fun hget => hold ⟨?_, hparent⟩
        simpa [slot?, hc] using hget
      · rw [if_neg hip] at hcontent
        rwa [operands, hcontent]

theorem setValue (hg : Honest g) (i : Nat) (v : α) : Honest (g.setValue i v) := by
  by_cases hconst : ∃ w, g.content? i = some (.const w)
  case neg =>
    rw [setValue_of_not_const fun w hw => hconst ⟨w, hw⟩]
    exact hg
  obtain ⟨w, hw⟩ := hconst
  intro j p hparent
  rw [parent?_setValue] at hparent
  have hj := hg j p hparent
  have hip : i ≠ p := by
    rintro rfl
    simp [operands, hw, Content.operands, Content.slots] at hj
  rwa [operands, content?_setValue hw, if_neg hip]

theorem add (hg : Honest g) (content : Content α) : Honest (g.add content).1 := by
  intro j p hparent
  rw [parent?_add] at hparent
  have hj := hg j p hparent
  have hp : p ≠ g.cellCount := by
    rintro rfl
    simp [operands, content?, cell?, cellCount] at hj
  rwa [operands, content?_add, if_neg hp]

theorem detach (hg : Honest g) (i : Nat) : Honest (g.detach i) := by
  intro j p hparent
  rw [parent?_detach] at hparent
  split at hparent
  · cases hparent
  · rw [operands, content?_detach]
    exact hg j p hparent

theorem mark (hg : Honest g) (i : Nat) : Honest (g.mark i) := by
  intro j p hparent
  rw [parent?_mark] at hparent
  rw [operands, content?_mark]
  exact hg j p hparent

theorem invalidate (hg : Honest g) (i : Nat) : Honest (g.invalidate i) := by
  intro j p hparent
  rw [parent?_invalidate] at hparent
  rw [operands, content?_invalidate]
  exact hg j p hparent

theorem sameTrees {g' : Graph α} (hg : Honest g) (h : g.SameTrees g') : Honest g' := by
  intro j p hparent
  rw [h.parent?] at hparent
  rw [operands, h.content?]
  exact hg j p hparent

end Honest

/-! ### Runs -/

/-- One edit at a cell of a region.  Cells may always be added, without
operands, and sizes may always be asked for. -/
inductive Edit (K : Graph α → Nat → Prop) (R : Nat → Prop) : Graph α → Graph α → Prop
  | add {g : Graph α} {content : Content α} : content.operands = [] →
      Edit K R g (g.add content).1
  | setSlot {g : Graph α} {i : Nat} {s : Slot} {new : Option Nat} : R i →
      (∀ x, new = some x → R x) → (∀ x, g.slot? i s = some x → R x) →
      Edit K R g (g.setSlot i s new)
  | setValue {g : Graph α} {i : Nat} {v : α} : R i → Edit K R g (g.setValue i v)
  | detach {g : Graph α} {i : Nat} : R i → Edit K R g (g.detach i)
  | mark {g : Graph α} {i : Nat} : R i → K g i → Edit K R g (g.mark i)
  | invalidate {g : Graph α} {i : Nat} : R i → Edit K R g (g.invalidate i)
  | size {g : Graph α} {i : Nat} : Edit K R g (g.size i).1

/-- A run of edits. -/
def Edits (K : Graph α → Nat → Prop) (R : Nat → Prop) : Graph α → Graph α → Prop :=
  Relation.ReflTransGen (Edit K R)

variable {K K' : Graph α → Nat → Prop} {R R' : Nat → Prop} {g g' g'' : Graph α}

theorem Edit.honest (h : Edit K R g g') (hg : Honest g) : Honest g' := by
  cases h with
  | add => exact hg.add _
  | setSlot => exact hg.setSlot _ _ _
  | setValue => exact hg.setValue _ _
  | detach => exact hg.detach _
  | mark => exact hg.mark _
  | invalidate => exact hg.invalidate _
  | size => exact hg.sameTrees (sameTrees_size _ _)

theorem Edit.mono (h : Edit K R g g') (hK : ∀ g i, K g i → K' g i) (hR : ∀ c, R c → R' c) :
    Edit K' R' g g' := by
  cases h with
  | add hc => exact .add hc
  | setSlot hi hnew hold =>
      exact .setSlot (hR _ hi) (fun x hx => hR x (hnew x hx)) (fun x hx => hR x (hold x hx))
  | setValue hi => exact .setValue (hR _ hi)
  | detach hi => exact .detach (hR _ hi)
  | mark hi hm => exact .mark (hR _ hi) (hK _ _ hm)
  | invalidate hi => exact .invalidate (hR _ hi)
  | size => exact .size

theorem Edit.cellCount_le (h : Edit K R g g') : g.cellCount ≤ g'.cellCount := by
  cases h with
  | add => simp
  | setSlot => simp
  | setValue => simp
  | detach => simp [Graph.detach]
  | mark => simp [Graph.mark]
  | invalidate => simp
  | size => exact (sameTrees_size _ _).cellCount.ge

namespace Edits

theorem refl : Edits K R g g := Relation.ReflTransGen.refl

theorem trans (h : Edits K R g g') (h' : Edits K R g' g'') : Edits K R g g'' :=
  Relation.ReflTransGen.trans h h'

theorem single (h : Edit K R g g') : Edits K R g g' := Relation.ReflTransGen.single h

theorem honest (h : Edits K R g g') (hg : Honest g) : Honest g' := by
  induction h with
  | refl => exact hg
  | tail _ hedit ih => exact hedit.honest ih

theorem mono (h : Edits K R g g') (hK : ∀ g i, K g i → K' g i) (hR : ∀ c, R c → R' c) :
    Edits K' R' g g' := by
  induction h with
  | refl => exact .refl
  | tail _ hedit ih => exact ih.trans (single (hedit.mono hK hR))

theorem cellCount_le (h : Edits K R g g') : g.cellCount ≤ g'.cellCount := by
  induction h with
  | refl => exact Nat.le_refl _
  | tail _ hedit ih => exact ih.trans hedit.cellCount_le

end Edits

/-! ### What a run leaves alone -/

/-- The second cell is above the first one. -/
def Above (g : Graph α) (i c : Nat) : Prop := ∃ p, g.parent? i = some p ∧ g.Up p c

/-- Outside the region `R` parents are as they were in `g₀`, and from inside
the only parent link out of it is that of `i`. -/
structure Fenced (g₀ : Graph α) (i : Nat) (R : Nat → Prop) (g : Graph α) : Prop where
  parent : ∀ c, ¬R c → g.parent? c = g₀.parent? c
  inside : ∀ c p, R c → g.parent? c = some p → R p ∨ c = i ∧ g₀.parent? i = some p

/-- A way up that starts in the region stays there or goes on above `i`. -/
theorem Fenced.up {g₀ g : Graph α} {i : Nat} {R : Nat → Prop} (h : Fenced g₀ i R g) {x c : Nat}
    (hx : R x) (hup : g.Up x c) : R c ∨ Above g₀ i c := by
  induction hup with
  | refl => exact .inl hx
  | @tail b c _ hparent ih =>
      by_cases hb : R b
      · refine (h.inside b c hb hparent).imp_right fun hout => ⟨c, hout.2, .refl⟩
      · obtain ⟨p, hp, hup⟩ := ih.resolve_left hb
        rw [h.parent b hb] at hparent
        exact .inr ⟨p, hp, hup.tail hparent⟩

theorem Fenced.congr {g₀ g g' : Graph α} {i : Nat} {R : Nat → Prop} (h : Fenced g₀ i R g)
    (hparent : ∀ c, g'.parent? c = g.parent? c) : Fenced g₀ i R g' where
  parent c hc := by rw [hparent, h.parent c hc]
  inside c p hc hp := h.inside c p hc (by rwa [hparent] at hp)

/-- Cells of the region may become operands, or stop to be. -/
theorem Fenced.setSlot {g₀ g : Graph α} {i : Nat} {R : Nat → Prop} (h : Fenced g₀ i R g) {o : Nat}
    {s : Slot} {new : Option Nat} (hslot : g.hasSlot o s) (ho : R o) (hnew : ∀ y, new = some y → R y)
    (hold : ∀ x, g.slot? o s = some x → R x) : Fenced g₀ i R (g.setSlot o s new) where
  parent c hc := by
    rw [parent?_setSlot hslot, if_neg fun hn => hc (hnew c hn.1), if_neg fun hn => hc (hold c hn.1),
      h.parent c hc]
  inside c p hc hp := by
    rw [parent?_setSlot hslot] at hp
    split at hp
    · obtain rfl := Option.some.inj hp
      exact .inl ho
    · split at hp
      · cases hp
      · exact h.inside c p hc hp

/-- Outside the region nothing has changed but what is remembered above `i`,
and there nothing has been marked. -/
structure Beside (g₀ : Graph α) (i : Nat) (R : Nat → Prop) (g : Graph α) : Prop
    extends Fenced g₀ i R g where
  count : g₀.cellCount ≤ g.cellCount
  content : ∀ c, ¬R c → g.content? c = g₀.content? c
  unmarked : ∀ c, ¬R c → g.isSettled c = true → g₀.isSettled c = true
  marked : ∀ c, ¬R c → ¬Above g₀ i c → g₀.isSettled c = true → g.isSettled c = true

namespace Beside

variable {g₀ g g' : Graph α} {i : Nat} {R : Nat → Prop}

/-- Nothing outside the region is marked or loses its mark. -/
theorem of_marks (h : Beside g₀ i R g) (hfenced : Fenced g₀ i R g')
    (hcount : g.cellCount ≤ g'.cellCount) (hcontent : ∀ c, ¬R c → g'.content? c = g.content? c)
    (hmarks : ∀ c, ¬R c → g'.isSettled c = g.isSettled c) : Beside g₀ i R g' where
  toFenced := hfenced
  count := h.count.trans hcount
  content c hc := (hcontent c hc).trans (h.content c hc)
  unmarked c hc hm := h.unmarked c hc (hmarks c hc ▸ hm)
  marked c hc ha hm := (hmarks c hc).trans (h.marked c hc ha hm)

/-- Marks are lost above a cell of the region only, which is in the region or above `i`. -/
theorem of_forgets (h : Beside g₀ i R g) (hfenced : Fenced g₀ i R g')
    (hcount : g.cellCount ≤ g'.cellCount) (hcontent : ∀ c, ¬R c → g'.content? c = g.content? c) {o : Nat}
    (ho : R o) (hmarks : ∀ c, g'.isSettled c = true ↔ g.isSettled c = true ∧ ¬g'.Up o c) :
    Beside g₀ i R g' where
  toFenced := hfenced
  count := h.count.trans hcount
  content c hc := (hcontent c hc).trans (h.content c hc)
  unmarked c hc hm := h.unmarked c hc ((hmarks c).mp hm).1
  marked c hc ha hm := by
    refine (hmarks c).mpr ⟨h.marked c hc ha hm, fun hup => ?_⟩
    rcases hfenced.up ho hup with hR | habove
    · exact hc hR
    · exact ha habove

theorem step {K : Graph α → Nat → Prop} (hnew : ∀ c, g₀.cellCount ≤ c → R c) (h : Beside g₀ i R g)
    (hedit : Edit K R g g') : Beside g₀ i R g' := by
  cases hedit with
  | @add content hempty =>
      refine h.of_marks (h.toFenced.congr fun c => parent?_add ..) (by simp) (fun c hc => ?_)
        fun c _ => isSettled_add ..
      -- a new cell belongs to the region, so it is none of the cells outside
      rw [content?_add, if_neg]
      rintro rfl
      exact hc (hnew _ h.count)
  | @setSlot o s new ho hy hold =>
      by_cases hslot : g.hasSlot o s
      case neg =>
        rw [setSlot_of_not_hasSlot hslot]
        exact h
      exact h.of_forgets (h.toFenced.setSlot hslot ho hy hold) (by simp)
        (fun c hc => content?_setSlot_of_ne (by rintro rfl; exact hc ho)) ho (isSettled_setSlot hslot new)
  | @setValue o v ho =>
      by_cases hconst : ∃ w, g.content? o = some (.const w)
      case neg =>
        rw [setValue_of_not_const fun w hw => hconst ⟨w, hw⟩]
        exact h
      obtain ⟨w, hw⟩ := hconst
      have hparent : ∀ c, (g.setValue o v).parent? c = g.parent? c := fun c => parent?_setValue ..
      refine h.of_forgets (h.toFenced.congr hparent) (by simp) (fun c hc => ?_) ho fun c => ?_
      · rw [content?_setValue hw, if_neg (by rintro rfl; exact hc ho)]
      · rw [isSettled_setValue hw, up_congr hparent]
  | @detach o ho =>
      refine h.of_marks ⟨fun c hc => ?_, fun c p hc hp => ?_⟩ (by simp [Graph.detach])
        (fun c _ => content?_detach ..) fun c _ => isSettled_detach ..
      · rw [parent?_detach, if_neg (by rintro rfl; exact hc ho), h.parent c hc]
      · rw [parent?_detach] at hp
        split at hp
        · cases hp
        · exact h.inside c p hc hp
  | @mark o ho _ =>
      refine h.of_marks (h.toFenced.congr fun c => parent?_mark ..) (by simp [Graph.mark])
        (fun c _ => content?_mark ..) fun c hc => ?_
      have hne : ¬(o = c ∧ c < g.cellCount) := by
        rintro ⟨rfl, -⟩
        exact hc ho
      rw [Bool.eq_iff_iff, isSettled_mark, or_iff_right hne]
  | @invalidate o ho =>
      have hparent : ∀ c, (g.invalidate o).parent? c = g.parent? c := fun c => parent?_invalidate ..
      refine h.of_forgets (h.toFenced.congr hparent) (by simp) (fun c _ => content?_invalidate ..) ho
        fun c => ?_
      rw [isSettled_invalidate, up_congr hparent]
  | @size o =>
      have hsame := sameTrees_size g o
      exact h.of_marks (h.toFenced.congr hsame.parent?) hsame.cellCount.ge (fun c _ => hsame.content? c)
        fun c _ => hsame.isSettled c

end Beside

/-- The cells of a tree and those to come. -/
def Region (g : Graph α) (F : Finset Nat) (c : Nat) : Prop := c ∈ F ∨ g.cellCount ≤ c

/-- A run in the region of a tree leaves alone what is beside it. -/
theorem Edits.beside {g g' : Graph α} {i : Nat} {n : Node α} {F : Finset Nat}
    {K : Graph α → Nat → Prop} (h : Holds g i n F) (hedits : Edits K (g.Region F) g g') :
    Beside g i (g.Region F) g' := by
  induction hedits with
  | refl =>
      exact {
        parent := fun _ _ => rfl
        inside := fun c p hc hp => by
          have hc' := hc.resolve_right (Nat.not_le_of_lt (lt_of_parent? hp))
          by_cases hci : c = i
          · exact .inr ⟨hci, hci ▸ hp⟩
          · obtain ⟨p', hp', hparent⟩ := h.exists_parent c hc' hci
            rw [hp] at hparent
            exact .inl (.inl (Option.some.inj hparent ▸ hp'))
        count := Nat.le_refl _
        content := fun _ _ => rfl
        unmarked := fun _ _ hm => hm
        marked := fun _ _ _ hm => hm }
  | tail _ hedit ih => exact ih.step (fun c hc => .inr hc) hedit

/-- Beside the tree of a run, other trees stand as they did. -/
theorem Holds.beside {g g' : Graph α} {i r : Nat} {m : Node α} {E F : Finset Nat}
    (hm : Holds g r m E) (hg : Honest g) (h : Beside g i (g.Region F) g') (hi : i ∈ F)
    (hEF : Disjoint E F) : Holds g' r m E := by
  have hout : ∀ c ∈ E, ¬g.Region F c := by
    rintro c hc (hcF | hle)
    · exact Finset.disjoint_left.mp hEF hc hcF
    · exact Nat.not_le_of_lt (hm.lt c hc) hle
  have habove : ∀ c ∈ E, ¬Above g i c := by
    rintro c hc ⟨p, hp, hup⟩
    by_cases hpE : p ∈ E
    · exact Finset.disjoint_left.mp hEF (hm.operand_mem p hpE i (hg i p hp)).1 hi
    · exact hm.not_up hg hpE hc hup
  refine hm.congr (fun c hc => h.content c (hout c hc)) (fun c hc => ?_)
    (fun c hc _ => h.parent c (hout c hc))
  rw [Bool.eq_iff_iff]
  exact ⟨h.unmarked c (hout c hc), h.marked c (hout c hc) (habove c hc)⟩

end Graph

end Formula
