/-
Formula/Proofs/Graph/Regions.lean

Work that stays in a region of a graph.

A region is closed if it holds the operands and the parents of its cells, and all
cells to come (`Closed`).  Work on such cells finds only such cells: down a path, up
along a parent link, or made anew.  So it is a run of edits in the region, whatever
comes of it, and what it gives is a cell of the region again (`Confined`).  That is
shown once for each operation, from single assignments up to the optimizer.

The edits keep the region closed (`Closed.edits`) and change nothing outside of it
(`Edits.outside`): no parent link leads out, so no cell outside forgets anything.
-/
import Formula.Graph.Optimize
import Formula.Proofs.Graph.NewCells

namespace Formula

namespace Graph

variable {α : Type} {K : Graph α → Nat → Prop} {R : Nat → Prop} {g g' : Graph α} {i c x : Nat}
  {s : Slot}

/-! ### Closed regions -/

/-- The region holds the operands and the parents of its cells, and all cells to
come. -/
structure Closed (R : Nat → Prop) (g : Graph α) : Prop where
  fresh : ∀ c, g.cellCount ≤ c → R c
  operand : ∀ c, R c → ∀ x ∈ g.operands c, R x
  parent : ∀ c p, R c → g.parent? c = some p → R p

/-- What may be put into a slot: nothing, or a cell of the region. -/
def Within (R : Nat → Prop) (x : Option Nat) : Prop := ∀ i, x = some i → R i

theorem within_none : Within R none := nofun

theorem within_some (hi : R i) : Within R (some i) := fun _ h => Option.some.inj h ▸ hi

namespace Closed

theorem all (g : Graph α) : Closed (fun _ => True) g where
  fresh _ _ := trivial
  operand _ _ _ _ := trivial
  parent _ _ _ _ := trivial

/-- The cells to come are a closed region. -/
theorem new (g : Graph α) : Closed (g.cellCount ≤ ·) g where
  fresh _ hc := hc
  operand c hc x hx := by
    have hnone : g.content? c = none := by
      cases h : g.content? c with
      | none => rfl
      | some content => exact absurd (lt_of_content? h) (Nat.not_lt_of_le hc)
    simp [operands, hnone] at hx
  parent c p hc hp := absurd (lt_of_parent? hp) (Nat.not_lt_of_le hc)

theorem slot? (h : Closed R g) (hi : R i) : Within R (g.slot? i s) := fun x hx =>
  h.operand i hi x (mem_operands_of_slot? hx)

theorem follow (h : Closed R g) (hi : R i) {path : Path} (hpath : g.follow i path = some c) : R c :=
  of_follow (fun _ _ x ho hx => h.slot? ho x hx) hi hpath

/-- Edits in the region keep it closed. -/
theorem edit (h : Closed R g) (hedit : Edit K R g g') : Closed R g' := by
  have hfresh : ∀ c, g'.cellCount ≤ c → R c := fun c hc => h.fresh c (hedit.cellCount_le.trans hc)
  cases hedit with
  | @add content hempty =>
      refine ⟨hfresh, fun c hc x hx => ?_, fun c p hc hp => h.parent c p hc (by rwa [parent?_add] at hp)⟩
      rw [operands, content?_add] at hx
      split at hx
      · simp [hempty] at hx
      · exact h.operand c hc x hx
  | @setSlot o s new ho hnew hold =>
      by_cases hslot : g.hasSlot o s
      case neg =>
        rw [setSlot_of_not_hasSlot hslot]
        exact h
      refine ⟨hfresh, fun c hc x hx => ?_, fun c p hc hp => ?_⟩
      · rw [operands, content?_setSlot] at hx
        split at hx
        · -- an operand of the owner is the new one, or another that was there before
          cases hcontent : g.content? c with
          | none => simp [hcontent] at hx
          | some content =>
              simp only [hcontent, Option.map_some, Option.getD_some] at hx
              rcases Content.mem_operands_of_set hx with hx | hx
              · exact h.operand c hc x (by rwa [operands, hcontent])
              · exact hnew x hx
        · exact h.operand c hc x hx
      · rw [parent?_setSlot hslot] at hp
        split at hp
        · exact Option.some.inj hp ▸ ho
        · split at hp
          · cases hp
          · exact h.parent c p hc hp
  | @setValue o v ho =>
      by_cases hconst : ∃ w, g.content? o = some (.const w)
      case neg =>
        rw [setValue_of_not_const fun w hw => hconst ⟨w, hw⟩]
        exact h
      obtain ⟨w, hw⟩ := hconst
      refine ⟨hfresh, fun c hc x hx => ?_, fun c p hc hp => h.parent c p hc (by rwa [parent?_setValue] at hp)⟩
      rw [operands, content?_setValue hw] at hx
      split at hx
      · cases hx
      · exact h.operand c hc x hx
  | @detach o =>
      refine ⟨hfresh, fun c hc x hx => h.operand c hc x (by rwa [operands, content?_detach] at hx),
        fun c p hc hp => ?_⟩
      rw [parent?_detach] at hp
      split at hp
      · cases hp
      · exact h.parent c p hc hp
  | mark =>
      exact ⟨hfresh, fun c hc x hx => h.operand c hc x (by rwa [operands, content?_mark] at hx),
        fun c p hc hp => h.parent c p hc (by rwa [parent?_mark] at hp)⟩
  | invalidate =>
      exact ⟨hfresh, fun c hc x hx => h.operand c hc x (by rwa [operands, content?_invalidate] at hx),
        fun c p hc hp => h.parent c p hc (by rwa [parent?_invalidate] at hp)⟩
  | @size o =>
      have hsame := sameTrees_size g o
      exact ⟨hfresh, fun c hc x hx => h.operand c hc x (by rwa [operands, hsame.content?] at hx),
        fun c p hc hp => h.parent c p hc (by rwa [hsame.parent?] at hp)⟩

theorem edits (h : Closed R g) (hedits : Edits K R g g') : Closed R g' := by
  induction hedits with
  | refl => exact h
  | tail _ hedit ih => exact ih.edit hedit

end Closed

/-- Edits in a closed region leave alone what is beside it.  No cell of the region has a
parent outside, which the cell that comes next says here. -/
theorem Edits.beside_closed (h : Closed R g) (hedits : Edits K R g g') :
    Beside g g.cellCount R g' := by
  induction hedits with
  | refl =>
      exact {
        parent := fun _ _ => rfl
        inside := fun c p hc hp => .inl (h.parent c p hc hp)
        count := Nat.le_refl _
        content := fun _ _ => rfl
        unmarked := fun _ _ hm => hm
        marked := fun _ _ _ hm => hm }
  | tail _ hedit ih => exact ih.step h.fresh hedit

/-- The node in a cell, its parent and its mark are as they were. -/
structure Untouched (g g' : Graph α) (c : Nat) : Prop where
  content : g'.content? c = g.content? c
  parent : g'.parent? c = g.parent? c
  mark : g'.isSettled c = g.isSettled c

theorem Untouched.trans {g'' : Graph α} (h : Untouched g g' c) (h' : Untouched g' g'' c) :
    Untouched g g'' c :=
  ⟨h'.content.trans h.content, h'.parent.trans h.parent, h'.mark.trans h.mark⟩

/-- Edits in a closed region touch nothing outside of it. -/
theorem Edits.outside (h : Closed R g) (hedits : Edits K R g g') (hc : ¬R c) : Untouched g g' c := by
  have hbeside := hedits.beside_closed h
  have habove : ¬Above g g.cellCount c := by
    rintro ⟨p, hp, -⟩
    rw [parent?_of_le (Nat.le_refl _)] at hp
    cases hp
  refine ⟨hbeside.content c hc, hbeside.parent c hc, ?_⟩
  rw [Bool.eq_iff_iff]
  exact ⟨hbeside.unmarked c hc, hbeside.marked c hc habove⟩

/-- Work on new cells touches no old one. -/
theorem Edits.old (hedits : Edits K (g.cellCount ≤ ·) g g') (hc : c < g.cellCount) :
    Untouched g g' c :=
  hedits.outside (.new g) (Nat.not_le_of_lt hc)

/-! ### Operations on graphs -/

namespace Closed

/-- The cell that comes next is in the region. -/
theorem next (h : Closed R g) : R g.cellCount := h.fresh _ (Nat.le_refl _)

theorem edits_setSlot (h : Closed R g) (hi : R i) {new : Option Nat} (hnew : Within R new) :
    Edits K R g (g.setSlot i s new) :=
  .single (.setSlot hi hnew (h.slot? hi))

/-- A tree that is added is made of new cells. -/
theorem edits_build (h : Closed R g) (e : Expr α) :
    Edits K R g (g.build e).1 ∧ Within R (g.build e).2 := by
  induction e generalizing g with
  | hole => exact ⟨.refl, within_none⟩
  | const v => exact ⟨.single (.add rfl), within_some h.next⟩
  | var x => exact ⟨.single (.add rfl), within_some h.next⟩
  | unary op x ih =>
      obtain ⟨hx, hroot⟩ := ih h
      have h₁ := h.edits hx
      exact ⟨hx.trans (edits_newUnary op h₁.next hroot), within_some h₁.next⟩
  | binary op l r ihl ihr =>
      obtain ⟨hl, hleft⟩ := ihl h
      have h₁ := h.edits hl
      obtain ⟨hr, hright⟩ := ihr h₁
      have h₂ := h₁.edits hr
      exact ⟨hl.trans (hr.trans (edits_newBinary op h₂.next hleft hright)), within_some h₂.next⟩

theorem edits_replaceChild [Numeral α] (h : Closed R g) {owner : Nat} {old new : Option Nat}
    (howner : R owner) (hnew : Within R new) (hok : g.replaceChild owner old new = .ok g') :
    Edits K R g g' := by
  have hslot : ∀ {s}, Except.ok (ε := GraphError) (g.setSlot owner s new) = .ok g' → Edits K R g g' := by
    rintro s ⟨rfl⟩
    exact h.edits_setSlot howner hnew
  unfold replaceChild at hok
  split at hok
  · split at hok
    · exact hslot hok
    · cases hok
  · split at hok
    · exact hslot hok
    · split at hok
      · exact hslot hok
      · cases hok
  · cases hok

theorem edits_replaceNode [Numeral α] (h : Closed R g) {root target new j : Nat} (hroot : R root)
    (htarget : R target) (hnew : R new) (hok : g.replaceNode root target new = .ok (g', j)) :
    Edits K R g g' ∧ R j := by
  unfold replaceNode at hok
  split at hok
  · cases hok
    exact ⟨.refl, hnew⟩
  · split at hok
    · cases hok
    · next p hp =>
      cases hreplace : g.replaceChild p (some target) (some new) with
      | error e => simp [hreplace] at hok
      | ok g₁ =>
          obtain ⟨rfl, rfl⟩ : g₁ = g' ∧ root = j := by simpa [hreplace] using hok
          exact ⟨h.edits_replaceChild (h.parent _ _ htarget hp) (within_some hnew) hreplace, hroot⟩

end Closed

end Graph

/-! ### Work on graphs -/

namespace Editing

open Graph

variable {α β γ : Type} {R : Nat → Prop} {P : β → Prop} {Q : γ → Prop}

/-- In a closed region the work is a run of edits, whatever comes of it, and what it
gives has the property. -/
def Confined (R : Nat → Prop) (x : Editing α β) (P : β → Prop) : Prop :=
  ∀ g, Closed R g → Edits (fun _ _ => True) R g (x g).value.1 ∧ ∀ v, (x g).value.2 = .ok v → P v

namespace Confined

theorem pure {v : β} (hv : P v) : Confined R (Pure.pure v : Editing α β) P := fun _ _ =>
  ⟨.refl, fun _ h => Except.ok.inj h ▸ hv⟩

theorem bind {x : Editing α β} {f : β → Editing α γ} (hx : Confined R x P)
    (hf : ∀ v, P v → Confined R (f v) Q) : Confined R (x >>= f) Q := by
  intro g hg
  obtain ⟨hedits, hresult⟩ := hx g hg
  simp only [Bind.bind]
  split
  · next g' v events heq =>
    rw [heq] at hedits hresult
    obtain ⟨hedits', hresult'⟩ := hf v (hresult v rfl) g' (hg.edits hedits)
    exact ⟨hedits.trans hedits', hresult'⟩
  · next g' e events heq =>
    rw [heq] at hedits
    exact ⟨hedits, nofun⟩

/-- A graph that is looked at is closed. -/
theorem get : Confined R (get : Editing α (Graph α)) (Closed R) := fun _ hg =>
  ⟨.refl, fun _ h => Except.ok.inj h ▸ hg⟩

theorem fail (e : GraphError) : Confined R (fail e : Editing α β) P := fun _ _ => ⟨.refl, nofun⟩

theorem report (e : Event α) : Confined R (report e) fun _ => True := fun _ _ =>
  ⟨.refl, fun _ _ => trivial⟩

theorem edit {f : Graph α → Graph α}
    (hf : ∀ g, Closed R g → Edits (fun _ _ => True) R g (f g)) :
    Confined R (edit f) fun _ => True := fun g hg => ⟨hf g hg, fun _ _ => trivial⟩

theorem make {f : Graph α → Graph α × β}
    (hf : ∀ g, Closed R g → Edits (fun _ _ => True) R g (f g).1 ∧ P (f g).2) : Confined R (make f) P := by
  intro g hg
  obtain ⟨hedits, hresult⟩ := hf g hg
  exact ⟨hedits, fun _ h => Except.ok.inj h ▸ hresult⟩

theorem attempt {f : Graph α → Except GraphError (Graph α × β)}
    (hf : ∀ g g' v, Closed R g → f g = .ok (g', v) → Edits (fun _ _ => True) R g g' ∧ P v) :
    Confined R (attempt f) P := by
  intro g hg
  unfold Editing.attempt
  split
  · next g' v h =>
    obtain ⟨hedits, hresult⟩ := hf g g' v hg h
    exact ⟨hedits, fun _ h => Except.ok.inj h ▸ hresult⟩
  · exact ⟨.refl, nofun⟩

/-! ### Cells -/

variable {i : Nat}

/-- Some cell is at the end of a path, wherever that is. -/
theorem locate_any (i : Nat) (p : Path) : Confined R (locate i p : Editing α Nat) fun _ => True := by
  intro g _
  unfold Editing.locate
  split
  · exact ⟨.refl, fun _ _ => trivial⟩
  · exact ⟨.refl, nofun⟩

theorem locate (hi : R i) (p : Path) : Confined R (locate i p : Editing α Nat) R := by
  intro g hg
  unfold Editing.locate
  split
  · next x hx => exact ⟨.refl, fun _ h => Except.ok.inj h ▸ hg.follow hi hx⟩
  · exact ⟨.refl, nofun⟩

theorem parentOf (hi : R i) : Confined R (parentOf i : Editing α Nat) R := by
  intro g hg
  unfold Editing.parentOf
  split
  · next p hp => exact ⟨.refl, fun _ h => Except.ok.inj h ▸ hg.parent i p hi hp⟩
  · exact ⟨.refl, nofun⟩

theorem newConst (v : α) : Confined R (newConst v) R :=
  make fun _ hg => ⟨.single (.add rfl), hg.next⟩

theorem newUnary (op : UnaryOp) {x : Nat} (hx : R x) : Confined R (newUnary (α := α) op x) R :=
  make fun _ hg => ⟨edits_newUnary op hg.next (within_some hx), hg.next⟩

theorem newBinary (op : BinaryOp) {l r : Nat} (hl : R l) (hr : R r) :
    Confined R (newBinary (α := α) op l r) R :=
  make fun _ hg => ⟨edits_newBinary op hg.next (within_some hl) (within_some hr), hg.next⟩

/-- A copy is in the region wherever it is taken from. -/
theorem copy (i : Nat) (p : Path) : Confined R (copy (α := α) i p) R := by
  refine (locate_any i p).bind fun x _ => (make fun g hg => hg.edits_build (g.expr x)).bind fun y hy => ?_
  cases y with
  | none => exact fail _
  | some y => exact pure (hy y rfl)

theorem size (i : Nat) : Confined R (size (α := α) i) fun _ => True :=
  make fun _ _ => ⟨.single .size, trivial⟩

theorem setSlot (hi : R i) (s : Slot) {new : Option Nat} (hnew : Within R new) :
    Confined R (Editing.edit (α := α) (·.setSlot i s new)) fun _ => True :=
  edit fun _ hg => hg.edits_setSlot hi hnew

theorem setValue (hi : R i) (v : α) : Confined R (Editing.edit (·.setValue i v)) fun _ => True :=
  edit fun _ _ => .single (.setValue hi)

theorem detach (hi : R i) : Confined R (Editing.edit (α := α) (·.detach i)) fun _ => True :=
  edit fun _ _ => .single (.detach hi)

theorem mark (hi : R i) : Confined R (Editing.edit (α := α) (·.mark i)) fun _ => True :=
  edit fun _ _ => .single (.mark hi trivial)

variable [Numeral α]

theorem replaceChild {owner new : Nat} (howner : R owner) (old : Nat) (hnew : R new) :
    Confined R (replaceChild (α := α) owner old new) fun _ => True := by
  refine attempt fun g g' v hg h => ⟨?_, trivial⟩
  cases hreplace : g.replaceChild owner (some old) (some new) with
  | error e => simp [hreplace] at h
  | ok g₁ =>
      obtain rfl : g₁ = g' := by simpa [hreplace] using h
      exact hg.edits_replaceChild howner (within_some hnew) hreplace

theorem replaceNode {root target new : Nat} (hroot : R root) (htarget : R target) (hnew : R new) :
    Confined R (replaceNode (α := α) root target new) R :=
  attempt fun _ _ _ hg => hg.edits_replaceNode hroot htarget hnew

/-! ### Moves -/

variable [Arithmetic α]

omit [Numeral α] [Arithmetic α] in
theorem sketch (hi : R i) (sk : Sketch α) : Confined R (sketch i sk) R := by
  induction sk with
  | part p => exact locate hi p
  | const v => exact newConst v
  | unary op x ih => exact ih.bind fun x hx => newUnary op hx
  | binary op l r ihl ihr => exact ihl.bind fun l hl => ihr.bind fun r hr => newBinary op hl hr

omit [Arithmetic α] in
theorem rebuildAt {root target : Nat} (hroot : R root) (htarget : R target) (sk : Sketch α) :
    Confined R (rebuildAt root target sk) R :=
  (sketch htarget sk).bind fun _ hnew => replaceNode hroot htarget hnew

omit [Arithmetic α] in
theorem takeSign {factor : Nat} (hfactor : R factor) (change : SignChange α) :
    Confined R (takeSign factor change) fun _ => True := by
  cases change with
  | flip v => exact setValue hfactor v
  | unwrap | wrap =>
      exact (parentOf hfactor).bind fun _ howner => (sketch hfactor _).bind fun _ hnew =>
        replaceChild howner factor hnew

theorem spliceWithin (kind : ChainKind) {root term : Nat} (hroot : R root) (hterm : R term) (fuel : Nat) :
    Confined R (spliceWithin (α := α) kind root fuel term) R := by
  induction fuel generalizing term with
  | zero => exact fail _
  | succ fuel ih =>
      refine (parentOf hterm).bind fun owner howner => get.bind fun g _ => ?_
      split
      · cases kind with
        | additive => exact ih howner
        | multiplicative => exact rebuildAt hroot howner _
      · split
        · exact rebuildAt hroot howner _
        · split
          · exact rebuildAt hroot howner _
          · split
            · exact rebuildAt hroot howner _
            · exact rebuildAt hroot hterm _
      · exact fail _

theorem splice (kind : ChainKind) {root term : Nat} (hroot : R root) (hterm : R term) :
    Confined R (splice (α := α) kind root term) R :=
  get.bind fun g _ => spliceWithin kind hroot hterm g.cellCount

omit [Numeral α] [Arithmetic α] in
theorem graft (op : BinaryOp) {owner x : Nat} (howner : R owner) (slot : Slot) (hx : R x) :
    Confined R (graft (α := α) op owner slot x) fun _ => True :=
  (locate howner [slot]).bind fun _ hold => (newBinary op hold hx).bind fun _ hnew =>
    setSlot howner slot (within_some hnew)

theorem normalized (fromRoot : Bool) (hi : R i) : Confined R (normalized (α := α) fromRoot i) R := by
  unfold Editing.normalized
  split
  · exact (sketch hi _).bind fun _ hpower => (parentOf hi).bind fun _ howner =>
      (replaceChild howner i hpower).bind fun _ _ => pure hpower
  · exact pure hi

theorem perform (hi : R i) (m : Move α) : Confined R (perform i m) R := by
  cases m with
  | rebuild sk => exact sketch hi sk
  | pushSign factor change =>
      exact (locate hi _).bind fun _ hproduct => (locate hi factor).bind fun _ hfactor =>
        (takeSign hfactor change).bind fun _ _ => pure hproduct
  | collapse kind kept v removed =>
      exact (locate hi kept).bind fun _ hkept => (locate hi removed).bind fun _ hremoved =>
        (setValue hkept v).bind fun _ _ => splice kind hi hremoved
  | joinLogarithms op kept slot argument removed =>
      exact (locate hi kept).bind fun _ hkept => (locate hi argument).bind fun _ hargument =>
        (locate hi removed).bind fun _ hremoved => (splice _ hi hremoved).bind fun _ hroot =>
          (graft op hkept slot hargument).bind fun _ _ => pure hroot
  | joinPowers op kept fromRoot exponent removed =>
      exact (locate hi kept).bind fun _ hkept => (locate hi removed).bind fun _ hremoved =>
        (normalized fromRoot hkept).bind fun _ hkept => (splice _ hi hremoved).bind fun _ hroot =>
          (sketch hremoved exponent).bind fun _ hexponent =>
            (graft op hkept .right hexponent).bind fun _ _ => pure hroot

/-! ### Runs -/

variable {s : Settings α} {env : Environment α} {φ : Run α}

omit [Arithmetic α] in
theorem wholeTree (hφ : ∀ i, R i → (φ i).Confined R (Within R)) (hi : R i) :
    Confined R (wholeTree s φ i) R := by
  refine (size i).bind fun before _ => (hφ i hi).bind fun res hres => ?_
  have hroot : R (res.getD i) := by
    cases res with
    | none => exact hi
    | some j => exact hres j rfl
  refine (detach hroot).bind fun _ _ => (size _).bind fun after _ => (report _).bind fun _ _ =>
    get.bind fun g _ => ?_
  split
  · exact fail _
  · exact pure hroot

omit [Numeral α] [Arithmetic α] in
theorem productOfCopies (i : Nat) (p q : Path) : Confined R (productOfCopies (α := α) i p q) R :=
  (copy i p).bind fun _ hx => (copy i q).bind fun _ hy => newBinary .mul hx hy

omit [Arithmetic α] in
/-- Fractions are combined among copies, so the product itself may stand anywhere. -/
theorem combineFractions (hφ : ∀ i, R i → (φ i).Confined R (Within R)) (i : Nat) :
    Confined R (combineFractions s φ i) (Within R) := by
  refine get.bind fun g _ => ?_
  split
  · refine (productOfCopies i _ _).bind fun above habove =>
      (productOfCopies i _ _).bind fun below hbelow =>
        (size above).bind fun _ _ => (size below).bind fun _ _ =>
          (wholeTree hφ habove).bind fun above' habove' =>
            (wholeTree hφ hbelow).bind fun below' hbelow' =>
              (size above').bind fun _ _ => (size below').bind fun _ _ => ?_
    split
    · exact pure within_none
    · exact (newBinary .div habove' hbelow').bind fun j hj => pure (within_some hj)
  · exact pure within_none

theorem applyRule (hφ : ∀ i, R i → (φ i).Confined R (Within R)) (rule : Rule) (hi : R i) :
    Confined R (applyRule s φ rule i) (Within R) := by
  unfold Editing.applyRule
  split
  · exact combineFractions hφ i
  · refine get.bind fun g _ => ?_
    split
    · exact (perform hi _).bind fun j hj => pure (within_some hj)
    · exact pure within_none

theorem firstRule (hφ : ∀ i, R i → (φ i).Confined R (Within R)) (hi : R i) (rules : List Rule) :
    Confined R (firstRule s φ i rules) (Within R) := by
  induction rules with
  | nil => exact pure within_none
  | cons rule rest ih =>
      refine get.bind fun before _ => (applyRule hφ rule hi).bind fun res hres => ?_
      cases res with
      | some j => exact get.bind fun after _ => (report _).bind fun _ _ => pure hres
      | none => exact ih

omit [Numeral α] [Arithmetic α] in
theorem optimizeSlot (hφ : ∀ i, R i → (φ i).Confined R (Within R)) (hi : R i) (slot : Slot)
    {x : Option Nat} (hx : Within R x) : Confined R (optimizeSlot φ i slot x) fun _ => True := by
  cases x with
  | none => exact fail _
  | some x =>
      refine (hφ x (hx x rfl)).bind fun res hres => ?_
      cases res with
      | none => exact pure trivial
      | some y =>
          simp only
          split
          · exact (setSlot hi slot hres).bind fun _ _ => pure trivial
          · exact pure trivial

omit [Numeral α] [Arithmetic α] in
theorem optimizeSlots (hφ : ∀ i, R i → (φ i).Confined R (Within R)) (hi : R i)
    {slots : List (Slot × Option Nat)} (hslots : ∀ entry ∈ slots, Within R entry.2) :
    Confined R (optimizeSlots φ i slots) fun _ => True := by
  induction slots with
  | nil => exact pure trivial
  | cons entry rest ih =>
      obtain ⟨hentry, hrest⟩ := List.forall_mem_cons.mp hslots
      exact (optimizeSlot hφ hi entry.1 hentry).bind fun _ _ => (ih hrest).bind fun _ _ => pure trivial

theorem pass (hφ : ∀ i, R i → (φ i).Confined R (Within R)) (hi : R i) :
    Confined R (pass s φ i) (Within R) := by
  refine get.bind fun g hg => ?_
  -- what is in the slots is in the region, as long as the owner is
  have hslots : ∀ entry ∈ ((g.content? i).map Content.slots).getD [], Within R entry.2 := by
    intro entry hentry x hx
    refine hg.operand i hi x ?_
    cases hcontent : g.content? i with
    | none => simp [hcontent] at hentry
    | some content =>
        rw [operands, hcontent]
        refine List.mem_filterMap.mpr ⟨entry, ?_, hx⟩
        simpa [hcontent] using hentry
  refine (optimizeSlots hφ hi hslots).bind fun changed _ => get.bind fun g' _ => ?_
  have hbelow : Within R (if changed then some i else none) := by
    cases changed with
    | true => exact within_some hi
    | false => exact within_none
  split
  · exact pure hbelow
  · refine (firstRule hφ hi _).bind fun res hres => ?_
    cases res with
    | some j => exact pure hres
    | none => exact pure hbelow

theorem passes (hφ : ∀ i, R i → (φ i).Confined R (Within R)) (k : Nat) (hi : R i) :
    Confined R (passes s φ k i) fun res => R res.1 := by
  induction k generalizing i with
  | zero => exact get.bind fun g _ => (report _).bind fun _ _ => pure hi
  | succ k ih =>
      refine (pass hφ hi).bind fun res hres => ?_
      cases res with
      | none => exact pure hi
      | some j => exact (ih (hres j rfl)).bind fun root hroot => pure hroot

omit [Numeral α] in
theorem finish (hi : R i) (changed : Bool) : Confined R (finish env i changed) (Within R) := by
  have hroot : Within R (if changed then some i else none) := by
    cases changed with
    | true => exact within_some hi
    | false => exact within_none
  refine get.bind fun g _ => ?_
  split
  · exact (mark hi).bind fun _ _ => pure hroot
  · split
    · exact (newConst _).bind fun c hc => (mark hc).bind fun _ _ => pure (within_some hc)
    · exact (mark hi).bind fun _ _ => pure hroot

theorem optimizeWithin (fuel : Nat) (hi : R i) : Confined R (optimizeWithin s env fuel i) (Within R) := by
  induction fuel generalizing i with
  | zero => exact pure within_none
  | succ fuel ih =>
      refine get.bind fun g _ => ?_
      split
      · exact pure within_none
      · exact (passes (fun _ => ih) Node.maxPasses hi).bind fun res hres => finish hres res.2

theorem optimize (hi : R i) : Confined R (optimize s env i) (Within R) :=
  get.bind fun g _ => optimizeWithin (g.expr i).weight hi

theorem optimizeHere (hi : R i) : Confined R (optimizeHere s env i) fun _ => True := by
  refine (optimize hi).bind fun res hres => ?_
  simp only
  split
  · next new hnew =>
    have hin : R new := by
      cases res with
      | none => cases hnew
      | some j =>
          simp only [Outcome.ofRun] at hnew
          split at hnew
          · cases hnew
          · exact Outcome.replaced.inj hnew ▸ hres j rfl
    refine get.bind fun g hg => ?_
    split
    · exact (detach hin).bind fun _ _ => pure trivial
    · next p hp => exact (replaceChild (hg.parent i p hi hp) i hin).bind fun _ _ => pure trivial
  · exact pure trivial

end Confined

end Editing

end Formula
