/-
Formula/Proofs/Graph/Cells.lean

What each edit does to each cell.

`Up g i j` says that `j` is reached from `i` along parent links.  The lineage
of a cell, which an edit walks to forget what is remembered, is bounded by the
number of cells; that this bound loses nothing is `mem_lineage_iff`.  So an
edit at a cell forgets exactly what is remembered by the cells above it, on
every graph, cycles included.
-/
import Formula.Graph.View
import Mathlib.Data.Finset.Card
import Mathlib.Data.Finset.Range
import Mathlib.Data.Nat.Find
import Mathlib.Logic.Relation

namespace Formula

universe u

section

variable {α : Type u} (x l r : Option Nat) (o : UnaryOp) (b : BinaryOp)

@[simp] theorem Content.get?_operand : (unary o x : Content α).get? .operand = x := by
  cases x <;> rfl

@[simp] theorem Content.get?_left : (binary b l r : Content α).get? .left = l := by
  cases l <;> rfl

@[simp] theorem Content.get?_right : (binary b l r : Content α).get? .right = r := by
  cases r <;> rfl

end

/-- Where there is no such slot, nothing can be put into it. -/
theorem Content.set_of_not_hasSlot {α : Type u} {c : Content α} {s : Slot} (h : ¬c.hasSlot s)
    (new : Option Nat) : c.set s new = c := by
  cases c <;> cases s <;> simp_all [hasSlot, slots, set]

/-- Filling a slot leaves the other slots. -/
theorem Content.get?_set_of_ne {α : Type u} (c : Content α) {s t : Slot} (h : t ≠ s)
    (new : Option Nat) : (c.set s new).get? t = c.get? t := by
  cases c <;> cases s <;> cases t <;> first | rfl | exact absurd rfl h

/-- Filling a slot leaves the operands in other slots. -/
theorem Content.mem_operands_set {α : Type u} {c : Content α} {s : Slot} {x : Nat}
    {new : Option Nat} (hx : x ∈ c.operands) (hne : c.get? s ≠ some x) :
    x ∈ (c.set s new).operands := by
  cases c <;> cases s <;> simp_all [Content.operands, Content.slots, Content.set]

/-- An operand after a slot has been filled was one before, or is the new one. -/
theorem Content.mem_operands_of_set {α : Type u} {c : Content α} {s : Slot} {x : Nat}
    {new : Option Nat} (hx : x ∈ (c.set s new).operands) : x ∈ c.operands ∨ new = some x := by
  cases c with
  | const | var => exact .inl hx
  | unary op y =>
      cases s with
      | operand => exact .inr (by simpa [Content.operands, Content.slots, Content.set] using hx)
      | left | right => exact .inl hx
  | binary op l r =>
      cases s with
      | operand => exact .inl hx
      | left =>
          have h : new = some x ∨ r = some x := by
            simpa [Content.operands, Content.slots, Content.set] using hx
          rcases h with h | h
          · exact .inr h
          · exact .inl (by simp [Content.operands, Content.slots, h])
      | right =>
          have h : l = some x ∨ new = some x := by
            simpa [Content.operands, Content.slots, Content.set] using hx
          rcases h with h | h
          · exact .inl (by simp [Content.operands, Content.slots, h])
          · exact .inr h

/-- What is in a slot is an operand. -/
theorem Content.mem_operands_of_get? {α : Type u} {c : Content α} {s : Slot} {x : Nat}
    (h : c.get? s = some x) : x ∈ c.operands := by
  cases c with
  | const | var => cases s <;> cases h
  | unary op y =>
      cases s with
      | operand => simpa [Content.operands, Content.slots] using h
      | left | right => cases h
  | binary op l r =>
      cases s with
      | operand => cases h
      | left =>
          obtain rfl : l = some x := by simpa using h
          simp [Content.operands, Content.slots]
      | right =>
          obtain rfl : r = some x := by simpa using h
          simp [Content.operands, Content.slots]

theorem Content.mem_operands_set_self {α : Type u} {c : Content α} {s : Slot} (x : Nat)
    (h : c.hasSlot s) : x ∈ (c.set s (some x)).operands := by
  cases c <;> cases s <;> simp_all [Content.operands, Content.slots, Content.set, Content.hasSlot]

namespace Graph

variable {α : Type u}

/-! ### Read-outs -/

/-- The second cell is reached from the first one along parent links. -/
def Up (g : Graph α) : Nat → Nat → Prop := Relation.ReflTransGen fun i p => g.parent? i = some p

theorem isSome_cell?_iff {g : Graph α} {i : Nat} : (g.cell? i).isSome ↔ i < g.cellCount := by
  simp [cell?, cellCount]

theorem lt_of_content? {g : Graph α} {i : Nat} {c : Content α} (h : g.content? i = some c) :
    i < g.cellCount := by
  rw [← isSome_cell?_iff]
  obtain ⟨cell, hcell, -⟩ := Option.map_eq_some_iff.mp h
  simp [hcell]

theorem lt_of_parent? {g : Graph α} {i p : Nat} (h : g.parent? i = some p) : i < g.cellCount := by
  rw [← isSome_cell?_iff]
  obtain ⟨cell, hcell, -⟩ := Option.bind_eq_some_iff.mp h
  simp [hcell]

/-- A cell is what can be read from it. -/
theorem cell?_eq_of_fields {g g' : Graph α} {i : Nat} (hcontent : g'.content? i = g.content? i)
    (hparent : g'.parent? i = g.parent? i) (hsettled : g'.isSettled i = g.isSettled i)
    (hsize : g'.knownSize? i = g.knownSize? i) : g'.cell? i = g.cell? i := by
  simp only [content?, parent?, isSettled, knownSize?] at hcontent hparent hsettled hsize
  cases hc : g.cell? i with
  | none => simpa [hc] using hcontent
  | some c =>
      obtain ⟨c', hc', hcc⟩ := Option.map_eq_some_iff.mp (hcontent.trans (by rw [hc, Option.map_some]))
      obtain ⟨content, parent, settled, knownSize⟩ := c
      obtain ⟨content', parent', settled', knownSize'⟩ := c'
      simp_all

/-! ### The way up -/

/-- The cell some steps up from another. -/
def above? (g : Graph α) (i : Nat) : Nat → Option Nat
  | 0 => some i
  | n + 1 => (g.parent? i).bind (g.above? · n)

theorem above?_add {g : Graph α} {i j m : Nat} (h : g.above? i m = some j) (n : Nat) :
    g.above? i (m + n) = g.above? j n := by
  induction m generalizing i with
  | zero =>
      obtain rfl := Option.some.inj h
      rw [Nat.zero_add]
  | succ m ih =>
      obtain ⟨p, hp, hj⟩ := Option.bind_eq_some_iff.mp h
      rw [Nat.succ_add]
      simp [above?, hp, ih hj]

theorem exists_above?_of_add {g : Graph α} {i j m n : Nat} (h : g.above? i (m + n) = some j) :
    ∃ c, g.above? i m = some c ∧ g.above? c n = some j := by
  induction m generalizing i with
  | zero => exact ⟨i, rfl, by rwa [Nat.zero_add] at h⟩
  | succ m ih =>
      rw [Nat.succ_add] at h
      obtain ⟨p, hp, hj⟩ := Option.bind_eq_some_iff.mp h
      obtain ⟨c, hc, hcj⟩ := ih hj
      exact ⟨c, by simp [above?, hp, hc], hcj⟩

theorem up_iff_exists_above? {g : Graph α} {i j : Nat} :
    g.Up i j ↔ ∃ n, g.above? i n = some j := by
  constructor
  · intro h
    induction h using Relation.ReflTransGen.head_induction_on with
    | refl => exact ⟨0, rfl⟩
    | head hparent _ ih =>
        obtain ⟨n, hn⟩ := ih
        exact ⟨n + 1, by simp [above?, hparent, hn]⟩
  · rintro ⟨n, hn⟩
    induction n generalizing i with
    | zero =>
        obtain rfl := Option.some.inj hn
        exact .refl
    | succ n ih =>
        obtain ⟨p, hp, hj⟩ := Option.bind_eq_some_iff.mp hn
        exact (ih hj).head hp

theorem mem_lineageWithin {g : Graph α} {fuel i j : Nat} :
    j ∈ g.lineageWithin fuel i ↔ ∃ n < fuel, g.above? i n = some j := by
  induction fuel generalizing i with
  | zero => simp [lineageWithin]
  | succ fuel ih =>
      rw [Nat.exists_lt_succ_left]
      cases hparent : g.parent? i with
      | none => simp [lineageWithin, above?, hparent, eq_comm]
      | some p => simp [lineageWithin, above?, hparent, ih, eq_comm]

/-- A shortest way up meets no cell twice, so it has at most as many steps as
there are cells. -/
theorem exists_above?_lt {g : Graph α} {i j n : Nat} (hj : j < g.cellCount)
    (hn : g.above? i n = some j) : ∃ m < g.cellCount, g.above? i m = some j := by
  have hexists : ∃ m, g.above? i m = some j := ⟨n, hn⟩
  have hm := Nat.find_spec hexists
  refine ⟨Nat.find hexists, ?_, hm⟩
  generalize hk : Nat.find hexists = m at hm ⊢
  have hmin : ∀ k < m, g.above? i k ≠ some j := fun k hlt => Nat.find_min hexists (hk ▸ hlt)
  -- every step up to the last one is at a cell, and at another one each time
  have hcell : ∀ k ≤ m, ∃ c < g.cellCount, g.above? i k = some c := by
    intro k hk
    obtain ⟨d, rfl⟩ := Nat.exists_eq_add_of_le hk
    obtain ⟨c, hc, hcj⟩ := exists_above?_of_add hm
    refine ⟨c, ?_, hc⟩
    cases d with
    | zero =>
        obtain rfl := Option.some.inj hcj
        exact hj
    | succ d =>
        obtain ⟨p, hp, -⟩ := Option.bind_eq_some_iff.mp hcj
        exact lt_of_parent? hp
  choose! cellAt hlt hat using hcell
  have hinj : Set.InjOn cellAt (Finset.range (m + 1)) := by
    -- from the same cell the rest of the way is the same, and could be cut short
    have hwlog : ∀ a b, a < b → b ≤ m → cellAt a ≠ cellAt b := by
      intro a b hab hb heq
      obtain ⟨d, rfl⟩ := Nat.exists_eq_add_of_le hb
      have hrest : g.above? (cellAt b) d = some j := by
        rw [← above?_add (hat b hb), hm]
      have hcut : g.above? i (a + d) = some j := by
        rw [above?_add (hat a (by omega)), heq, hrest]
      exact hmin (a + d) (by omega) hcut
    intro a ha b hb heq
    simp only [Finset.coe_range, Set.mem_Iio] at ha hb
    rcases Nat.lt_trichotomy a b with hab | rfl | hab
    · exact absurd heq (hwlog a b hab (by omega))
    · rfl
    · exact absurd heq.symm (hwlog b a hab (by omega))
  have hcard := Finset.card_le_card_of_injOn cellAt (s := Finset.range (m + 1))
    (t := Finset.range g.cellCount) (by
      intro k hk
      simp only [Finset.coe_range, Set.mem_Iio] at hk ⊢
      exact hlt k (by omega)) hinj
  rw [Finset.card_range, Finset.card_range] at hcard
  omega

/-- The bound on the lineage loses nothing. -/
theorem mem_lineage_iff {g : Graph α} {i j : Nat} (hj : j < g.cellCount) :
    j ∈ g.lineage i ↔ g.Up i j := by
  rw [up_iff_exists_above?, lineage, mem_lineageWithin]
  exact ⟨fun ⟨n, _, hn⟩ => ⟨n, hn⟩, fun ⟨n, hn⟩ => exists_above?_lt hj hn⟩

/-- Above a cell without parent there is none. -/
theorem eq_of_up {g : Graph α} {i j : Nat} (hi : g.parent? i = none) (h : g.Up i j) : j = i := by
  rcases h.cases_head with rfl | ⟨p, hp, -⟩
  · rfl
  · rw [hi] at hp
    cases hp

/-- Where there is no cell there is no mark. -/
theorem isSettled_of_le {g : Graph α} {i : Nat} (h : g.cellCount ≤ i) : g.isSettled i = false := by
  have hnone : g.cell? i = none := by
    rw [← Option.not_isSome_iff_eq_none, isSome_cell?_iff]
    exact Nat.not_lt_of_le h
  simp [isSettled, hnone]

/-- Where there is no cell there is no parent. -/
theorem parent?_of_le {g : Graph α} {i : Nat} (h : g.cellCount ≤ i) : g.parent? i = none := by
  cases hp : g.parent? i with
  | none => rfl
  | some p => exact absurd (lt_of_parent? hp) (Nat.not_lt_of_le h)

/-! ### Simple edits -/

section

variable (g : Graph α) (i j : Nat)

theorem content?_update (f : Cell α → Cell α) :
    (g.update i f).content? j
      = if i = j then (g.cell? j).map (fun c => (f c).content) else g.content? j := by
  unfold content?
  rw [cell?_update]
  split <;> simp [Function.comp_def]

theorem parent?_update (f : Cell α → Cell α) :
    (g.update i f).parent? j
      = if i = j then (g.cell? j).bind (fun c => (f c).parent) else g.parent? j := by
  unfold parent?
  rw [cell?_update]
  split
  · cases g.cell? j <;> rfl
  · rfl

theorem isSettled_update (f : Cell α → Cell α) :
    (g.update i f).isSettled j
      = if i = j then ((g.cell? j).map (fun c => (f c).settled)).getD false else g.isSettled j := by
  unfold isSettled
  rw [cell?_update]
  split <;> simp [Function.comp_def]

theorem knownSize?_update (f : Cell α → Cell α) :
    (g.update i f).knownSize? j
      = if i = j then (g.cell? j).bind (fun c => (f c).knownSize) else g.knownSize? j := by
  unfold knownSize?
  rw [cell?_update]
  split
  · cases g.cell? j <;> rfl
  · rfl

theorem content?_add (content : Content α) :
    (g.add content).1.content? j = if j = g.cellCount then some content else g.content? j := by
  unfold content?
  rw [cell?_add]
  split <;> rfl

theorem parent?_add (content : Content α) :
    (g.add content).1.parent? j = g.parent? j := by
  unfold parent?
  rw [cell?_add]
  split
  · next h => simp [h, cell?, cellCount]
  · rfl

theorem isSettled_add (content : Content α) :
    (g.add content).1.isSettled j = g.isSettled j := by
  unfold isSettled
  rw [cell?_add]
  split
  · next h => simp [h, cell?, cellCount]
  · rfl

theorem knownSize?_add (content : Content α) :
    (g.add content).1.knownSize? j = g.knownSize? j := by
  unfold knownSize?
  rw [cell?_add]
  split
  · next h => simp [h, cell?, cellCount]
  · rfl

theorem content?_updateContent (f : Content α → Content α) :
    (g.updateContent i f).content? j
      = if i = j then (g.content? j).map f else g.content? j := by
  rw [updateContent, content?_update]
  split
  · simp [content?, Function.comp_def]
  · rfl

@[simp] theorem cellCount_updateContent (f : Content α → Content α) :
    (g.updateContent i f).cellCount = g.cellCount :=
  cellCount_update g i _

@[simp] theorem parent?_updateContent (f : Content α → Content α) :
    (g.updateContent i f).parent? j = g.parent? j := by
  rw [updateContent, parent?_update]
  split <;> rfl

@[simp] theorem isSettled_updateContent (f : Content α → Content α) :
    (g.updateContent i f).isSettled j = g.isSettled j := by
  rw [updateContent, isSettled_update]
  split <;> rfl

@[simp] theorem knownSize?_updateContent (f : Content α → Content α) :
    (g.updateContent i f).knownSize? j = g.knownSize? j := by
  rw [updateContent, knownSize?_update]
  split <;> rfl

@[simp] theorem content?_detach : (g.detach i).content? j = g.content? j := by
  rw [detach, content?_update]
  split <;> rfl

theorem parent?_detach : (g.detach i).parent? j = if i = j then none else g.parent? j := by
  rw [detach, parent?_update]
  split
  · cases g.cell? j <;> rfl
  · rfl

@[simp] theorem isSettled_detach : (g.detach i).isSettled j = g.isSettled j := by
  rw [detach, isSettled_update]
  split <;> rfl

@[simp] theorem knownSize?_detach : (g.detach i).knownSize? j = g.knownSize? j := by
  rw [detach, knownSize?_update]
  split <;> rfl

@[simp] theorem content?_mark : (g.mark i).content? j = g.content? j := by
  rw [mark, content?_update]
  split <;> rfl

@[simp] theorem parent?_mark : (g.mark i).parent? j = g.parent? j := by
  rw [mark, parent?_update]
  split <;> rfl

theorem isSettled_mark :
    (g.mark i).isSettled j = true ↔ (i = j ∧ j < g.cellCount) ∨ g.isSettled j = true := by
  rw [mark, isSettled_update, ← isSome_cell?_iff]
  split
  · cases h : g.cell? j <;> simp_all [isSettled]
  · simp_all

@[simp] theorem knownSize?_mark : (g.mark i).knownSize? j = g.knownSize? j := by
  rw [mark, knownSize?_update]
  split <;> rfl

end

/-! ### Forgetting -/

theorem cell?_foldl_forget (is : List Nat) (g : Graph α) (j : Nat) :
    (is.foldl (fun g j => g.update j Cell.forget) g).cell? j
      = if j ∈ is then (g.cell? j).map Cell.forget else g.cell? j := by
  induction is generalizing g with
  | nil => rfl
  | cons i is ih =>
      rw [List.foldl_cons, ih, cell?_update]
      by_cases hi : i = j
      · have htwice : Cell.forget ∘ Cell.forget = (Cell.forget : Cell α → Cell α) := rfl
        by_cases hj : j ∈ is <;> simp [hi, hj, htwice]
      · by_cases hj : j ∈ is <;> simp [hi, hj, Ne.symm hi]

section

variable (g : Graph α) (i j : Nat)

theorem cell?_invalidate :
    (g.invalidate i).cell? j
      = if j ∈ g.lineage i then (g.cell? j).map Cell.forget else g.cell? j :=
  cell?_foldl_forget _ g j

@[simp] theorem content?_invalidate : (g.invalidate i).content? j = g.content? j := by
  unfold content?
  rw [cell?_invalidate]
  split <;> simp [Cell.forget, Function.comp_def]

@[simp] theorem parent?_invalidate : (g.invalidate i).parent? j = g.parent? j := by
  unfold parent?
  rw [cell?_invalidate]
  split
  · cases g.cell? j <;> rfl
  · rfl

/-- The cells that are reached by going up from a cell forget, and no others. -/
theorem exists_cell?_invalidate {c : Cell α} (h : g.cell? j = some c) :
    ∃ c', (g.invalidate i).cell? j = some c' ∧
      (g.Up i j ∧ c' = Cell.forget c ∨ ¬g.Up i j ∧ c' = c) := by
  have hj : j < g.cellCount := isSome_cell?_iff.mp (by simp [h])
  rw [cell?_invalidate, h]
  by_cases hup : j ∈ g.lineage i
  · exact ⟨Cell.forget c, if_pos hup, .inl ⟨(mem_lineage_iff hj).mp hup, rfl⟩⟩
  · exact ⟨c, if_neg hup, .inr ⟨(mem_lineage_iff hj).not.mp hup, rfl⟩⟩

theorem isSettled_invalidate :
    (g.invalidate i).isSettled j = true ↔ g.isSettled j = true ∧ ¬g.Up i j := by
  cases hcell : g.cell? j with
  | none => simp [isSettled, cell?_invalidate, hcell]
  | some c =>
      obtain ⟨c', hc', ⟨hup, rfl⟩ | ⟨hup, rfl⟩⟩ := exists_cell?_invalidate g i j hcell <;>
        simp [isSettled, hc', hcell, hup, Cell.forget]

theorem knownSize?_invalidate (k : Nat) :
    (g.invalidate i).knownSize? j = some k ↔ g.knownSize? j = some k ∧ ¬g.Up i j := by
  cases hcell : g.cell? j with
  | none => simp [knownSize?, cell?_invalidate, hcell]
  | some c =>
      obtain ⟨c', hc', ⟨hup, rfl⟩ | ⟨hup, rfl⟩⟩ := exists_cell?_invalidate g i j hcell <;>
        simp [knownSize?, hc', hcell, hup, Cell.forget]

end

/-- The way up depends on the parent links only. -/
theorem up_congr {g g' : Graph α} (h : ∀ j, g'.parent? j = g.parent? j) (i j : Nat) :
    g'.Up i j ↔ g.Up i j := by
  unfold Up
  simp only [h]

/-- The way up is the same if the links on the way are. -/
theorem up_iff_of_parent? {g g' : Graph α} {i j : Nat} (h : ∀ x, g.Up i x → g'.parent? x = g.parent? x) :
    g'.Up i j ↔ g.Up i j := by
  constructor
  · intro hup
    induction hup with
    | refl => exact .refl
    | tail _ hparent ih => exact ih.tail ((h _ ih).symm.trans hparent)
  · intro hup
    induction hup with
    | refl => exact .refl
    | tail hup hparent ih => exact ih.tail ((h _ hup).trans hparent)

/-! ### Filling a slot -/

section

variable {g : Graph α} {i : Nat} {s : Slot}

@[simp] theorem cellCount_disown (owner : Nat) : (g.disown owner i).cellCount = g.cellCount := by
  unfold disown
  split <;> simp [detach]

@[simp] theorem cellCount_adopt (owner : Nat) : (g.adopt owner i).cellCount = g.cellCount :=
  cellCount_update g i _

@[simp] theorem content?_disown (owner j : Nat) :
    (g.disown owner i).content? j = g.content? j := by
  unfold disown
  split <;> simp

@[simp] theorem isSettled_disown (owner j : Nat) :
    (g.disown owner i).isSettled j = g.isSettled j := by
  unfold disown
  split <;> simp

@[simp] theorem knownSize?_disown (owner j : Nat) :
    (g.disown owner i).knownSize? j = g.knownSize? j := by
  unfold disown
  split <;> simp

theorem parent?_disown (owner j : Nat) :
    (g.disown owner i).parent? j
      = if i = j ∧ g.parent? j = some owner then none else g.parent? j := by
  unfold disown
  split
  · next h =>
    rw [parent?_detach]
    by_cases hij : i = j
    · subst hij
      simp [h]
    · simp [hij]
  · next h =>
    rw [if_neg]
    rintro ⟨rfl, hp⟩
    exact h hp

@[simp] theorem content?_adopt (owner j : Nat) :
    (g.adopt owner i).content? j = g.content? j := by
  rw [adopt, content?_update]
  split <;> rfl

@[simp] theorem isSettled_adopt (owner j : Nat) :
    (g.adopt owner i).isSettled j = g.isSettled j := by
  rw [adopt, isSettled_update]
  split <;> rfl

@[simp] theorem knownSize?_adopt (owner j : Nat) :
    (g.adopt owner i).knownSize? j = g.knownSize? j := by
  rw [adopt, knownSize?_update]
  split <;> rfl

theorem parent?_adopt (owner j : Nat) :
    (g.adopt owner i).parent? j
      = if i = j ∧ j < g.cellCount then some owner else g.parent? j := by
  rw [adopt, parent?_update]
  have hj := isSome_cell?_iff (g := g) (i := j)
  split
  · cases h : g.cell? j <;> simp_all [parent?]
  · simp_all

end

section

variable {g : Graph α} {i : Nat} {s : Slot}

theorem content?_relink (new : Option Nat) (j : Nat) :
    (g.relink i s new).content? j
      = if i = j then (g.content? j).map (Content.set s new) else g.content? j := by
  unfold relink
  cases g.slot? i s <;> cases new <;> simp [content?_updateContent]

@[simp] theorem isSettled_relink (new : Option Nat) (j : Nat) :
    (g.relink i s new).isSettled j = g.isSettled j := by
  unfold relink
  cases g.slot? i s <;> cases new <;> simp

@[simp] theorem knownSize?_relink (new : Option Nat) (j : Nat) :
    (g.relink i s new).knownSize? j = g.knownSize? j := by
  unfold relink
  cases g.slot? i s <;> cases new <;> simp

@[simp] theorem cellCount_relink (new : Option Nat) :
    (g.relink i s new).cellCount = g.cellCount := by
  unfold relink
  cases g.slot? i s <;> cases new <;> simp

theorem parent?_relink (new : Option Nat) (j : Nat) :
    (g.relink i s new).parent? j
      = if new = some j ∧ j < g.cellCount then some i
        else if g.slot? i s = some j ∧ g.parent? j = some i then none
        else g.parent? j := by
  unfold relink
  cases g.slot? i s <;> cases new <;> simp [parent?_adopt, parent?_disown]

theorem hasSlot_iff : g.hasSlot i s = true ↔ ∃ c, g.content? i = some c ∧ c.hasSlot s = true := by
  cases h : g.content? i <;> simp [hasSlot, h]

theorem hasSlot_of_slot? {x : Nat} (h : g.slot? i s = some x) : g.hasSlot i s = true := by
  obtain ⟨c, hc, hx⟩ := Option.bind_eq_some_iff.mp h
  refine hasSlot_iff.mpr ⟨c, hc, ?_⟩
  cases c <;> cases s <;> first | rfl | cases hx

theorem mem_operands_of_slot? {x : Nat} (h : g.slot? i s = some x) : x ∈ g.operands i := by
  obtain ⟨c, hc, hx⟩ := Option.bind_eq_some_iff.mp h
  rw [operands, hc]
  exact Content.mem_operands_of_get? hx

theorem setSlot_of_not_hasSlot (h : ¬g.hasSlot i s) (new : Option Nat) :
    g.setSlot i s new = g := if_neg h

theorem setSlot_of_hasSlot (h : g.hasSlot i s) (new : Option Nat) :
    g.setSlot i s new = (g.relink i s new).invalidate i := if_pos h

theorem content?_setSlot (new : Option Nat) (j : Nat) :
    (g.setSlot i s new).content? j
      = if i = j then (g.content? j).map (Content.set s new) else g.content? j := by
  by_cases h : g.hasSlot i s
  · rw [setSlot_of_hasSlot h, content?_invalidate, content?_relink]
  · rw [setSlot_of_not_hasSlot h]
    split
    · next hij =>
      subst hij
      cases hc : g.content? i with
      | none => rfl
      | some c => simp [Content.set_of_not_hasSlot (by simpa [hasSlot, hc] using h)]
    · rfl

theorem content?_setSlot_of_ne {new : Option Nat} {j : Nat} (h : j ≠ i) :
    (g.setSlot i s new).content? j = g.content? j := by
  rw [content?_setSlot, if_neg h.symm]

/-- The other slots hold what they did. -/
theorem slot?_setSlot_of_ne {new : Option Nat} {j : Nat} {t : Slot} (h : ¬(j = i ∧ t = s)) :
    (g.setSlot i s new).slot? j t = g.slot? j t := by
  rw [slot?, slot?, content?_setSlot]
  split
  · next hij =>
    have hts : t ≠ s := fun hts => h ⟨hij.symm, hts⟩
    cases g.content? j with
    | none => rfl
    | some c => exact c.get?_set_of_ne hts _
  · rfl

theorem parent?_setSlot (h : g.hasSlot i s) (new : Option Nat) (j : Nat) :
    (g.setSlot i s new).parent? j
      = if new = some j ∧ j < g.cellCount then some i
        else if g.slot? i s = some j ∧ g.parent? j = some i then none
        else g.parent? j := by
  rw [setSlot_of_hasSlot h, parent?_invalidate, parent?_relink]

/-- Only the operand that goes and the one that comes get another parent. -/
theorem parent?_setSlot_of_ne {x y j : Nat} (hslot : g.slot? i s = some x) (hx : j ≠ x) (hy : j ≠ y) :
    (g.setSlot i s (some y)).parent? j = g.parent? j := by
  have hold : ¬(g.slot? i s = some j ∧ g.parent? j = some i) := by
    rintro ⟨hj, -⟩
    exact hx (Option.some.inj (hj.symm.trans hslot))
  rw [parent?_setSlot (hasSlot_of_slot? hslot), if_neg (fun h => hy (Option.some.inj h.1).symm),
    if_neg hold]

theorem isSettled_setSlot (h : g.hasSlot i s) (new : Option Nat) (j : Nat) :
    (g.setSlot i s new).isSettled j = true
      ↔ g.isSettled j = true ∧ ¬(g.setSlot i s new).Up i j := by
  rw [setSlot_of_hasSlot h, isSettled_invalidate, isSettled_relink,
    up_congr (parent?_invalidate (g.relink i s new) i)]

theorem knownSize?_setSlot (h : g.hasSlot i s) (new : Option Nat) (j k : Nat) :
    (g.setSlot i s new).knownSize? j = some k
      ↔ g.knownSize? j = some k ∧ ¬(g.setSlot i s new).Up i j := by
  rw [setSlot_of_hasSlot h, knownSize?_invalidate, knownSize?_relink,
    up_congr (parent?_invalidate (g.relink i s new) i)]

@[simp] theorem cellCount_setSlot (new : Option Nat) :
    (g.setSlot i s new).cellCount = g.cellCount := by
  unfold setSlot
  split <;> simp

end

/-! ### Setting a value -/

section

variable {g : Graph α} {i : Nat}

theorem setValue_of_const {v : α} (h : g.content? i = some (.const v)) (w : α) :
    g.setValue i w = (g.updateContent i fun _ => .const w).invalidate i := by
  simp [setValue, h]

theorem setValue_of_not_const (h : ∀ v, g.content? i ≠ some (.const v)) (w : α) :
    g.setValue i w = g := by
  unfold setValue
  split
  · next v hv => exact absurd hv (h v)
  · rfl

theorem content?_setValue {v : α} (h : g.content? i = some (.const v)) (w : α) (j : Nat) :
    (g.setValue i w).content? j = if i = j then some (.const w) else g.content? j := by
  rw [setValue_of_const h, content?_invalidate, content?_updateContent]
  split
  · next hij => simp [← hij, h]
  · rfl

@[simp] theorem parent?_setValue (w : α) (j : Nat) :
    (g.setValue i w).parent? j = g.parent? j := by
  by_cases h : ∃ v, g.content? i = some (.const v)
  · obtain ⟨v, hv⟩ := h
    rw [setValue_of_const hv, parent?_invalidate, parent?_updateContent]
  · rw [setValue_of_not_const fun v hv => h ⟨v, hv⟩]

theorem isSettled_setValue {v : α} (h : g.content? i = some (.const v)) (w : α) (j : Nat) :
    (g.setValue i w).isSettled j = true ↔ g.isSettled j = true ∧ ¬g.Up i j := by
  rw [setValue_of_const h, isSettled_invalidate, isSettled_updateContent,
    up_congr (parent?_updateContent g i · _)]

theorem knownSize?_setValue {v : α} (h : g.content? i = some (.const v)) (w : α) (j k : Nat) :
    (g.setValue i w).knownSize? j = some k ↔ g.knownSize? j = some k ∧ ¬g.Up i j := by
  rw [setValue_of_const h, knownSize?_invalidate, knownSize?_updateContent,
    up_congr (parent?_updateContent g i · _)]

@[simp] theorem cellCount_setValue (w : α) : (g.setValue i w).cellCount = g.cellCount := by
  unfold setValue
  split <;> simp

end

/-! ### Asking for a size -/

/-- The graphs differ in nothing but remembered sizes. -/
structure SameTrees (g g' : Graph α) : Prop where
  cellCount : g'.cellCount = g.cellCount
  content? : ∀ j, g'.content? j = g.content? j
  parent? : ∀ j, g'.parent? j = g.parent? j
  isSettled : ∀ j, g'.isSettled j = g.isSettled j

theorem SameTrees.refl (g : Graph α) : g.SameTrees g := ⟨rfl, fun _ => rfl, fun _ => rfl, fun _ => rfl⟩

theorem SameTrees.trans {g g' g'' : Graph α} (h : g.SameTrees g') (h' : g'.SameTrees g'') :
    g.SameTrees g'' where
  cellCount := h'.cellCount.trans h.cellCount
  content? j := (h'.content? j).trans (h.content? j)
  parent? j := (h'.parent? j).trans (h.parent? j)
  isSettled j := (h'.isSettled j).trans (h.isSettled j)

theorem sameTrees_remember (g : Graph α) (i : Nat) (k : Option Nat) :
    g.SameTrees (g.update i ({ · with knownSize := k })) where
  cellCount := cellCount_update g i _
  content? j := by
    rw [content?_update]
    split <;> rfl
  parent? j := by
    rw [parent?_update]
    split <;> rfl
  isSettled j := by
    rw [isSettled_update]
    split <;> rfl

theorem sameTrees_sumOver {count : Graph α → Nat → Graph α × Option Nat}
    (hcount : ∀ (g : Graph α) (i : Nat), g.SameTrees (count g i).1) (is : List Nat) (g : Graph α) :
    g.SameTrees (sumOver count is g).1 := by
  induction is generalizing g with
  | nil => exact .refl g
  | cons i is ih => exact (hcount g i).trans (ih _)

theorem sameTrees_sizeWithin (fuel : Nat) (g : Graph α) (i : Nat) :
    g.SameTrees (sizeWithin fuel g i).1 := by
  induction fuel generalizing g i with
  | zero => exact .refl g
  | succ fuel ih =>
      have hsum := sameTrees_sumOver ih (g.operands i) g
      unfold sizeWithin
      split
      · exact .refl g
      · split
        · next h =>
          rw [h] at hsum
          exact hsum.trans (sameTrees_remember _ _ _)
        · next h =>
          rw [h] at hsum
          exact hsum

theorem sameTrees_size (g : Graph α) (i : Nat) : g.SameTrees (g.size i).1 :=
  sameTrees_sizeWithin _ g i

end Graph

end Formula
