/-
Formula/Proofs/Graph/Building.lean

Trees of new cells.

Building adds a cell for each node of an expression, operands first, and puts each
operand into one slot.  So what is added branches: every operand links back to its
owner, and only one path leads to it (`added_build`).  That is so for any expression,
also where slots stay empty.  The cells below the left operand of an operator are
older than those below the right one, and both are older than the operator itself,
so no cell is met twice.

What has been added reads out as the expression again (`Reads`), and its root has no
parent.
-/
import Formula.Proofs.Graph.Checking
import Formula.Proofs.Graph.Placing
import Formula.Proofs.Graph.Regions

namespace Formula

namespace Graph

/-! ### What is read -/

section

variable {α : Type} {g g' : Graph α} {i : Nat} {x : Option Nat} {e : Expr α}

/-- The nodes below what a slot holds are those of the expression. -/
inductive Reads (g : Graph α) : Option Nat → Expr α → Prop
  | hole : Reads g none .hole
  | const {i : Nat} {v : α} : g.content? i = some (.const v) → Reads g (some i) (.const v)
  | var {i : Nat} {y : String} : g.content? i = some (.var y) → Reads g (some i) (.var y)
  | unary {i : Nat} {op : UnaryOp} {x : Option Nat} {e : Expr α} :
      g.content? i = some (.unary op x) → Reads g x e → Reads g (some i) (.unary op e)
  | binary {i : Nat} {op : BinaryOp} {l r : Option Nat} {a b : Expr α} :
      g.content? i = some (.binary op l r) → Reads g l a → Reads g r b →
      Reads g (some i) (.binary op a b)

namespace Reads

theorem eq_hole (h : Reads g none e) : e = .hole := by
  cases h
  rfl

/-- Only the nodes below matter. -/
theorem congr (h : Reads g x e)
    (hcontent : ∀ i, x = some i → ∀ c ∈ g.below i, g'.content? c = g.content? c) : Reads g' x e := by
  have hself : ∀ {i}, x = some i → g'.content? i = g.content? i := fun {i} hi =>
    hcontent i hi i (mem_below_self g i)
  induction h with
  | hole => exact .hole
  | const hc => exact .const ((hself rfl).trans hc)
  | var hc => exact .var ((hself rfl).trans hc)
  | @unary i op x e hc _ ih =>
      have hx : g.slot? i .operand = x := by simp [slot?, hc]
      have hbelow : ∀ y, x = some y → ∀ c ∈ g.below y, g'.content? c = g.content? c :=
        fun y hy c hcy => hcontent i rfl c (mem_below_of_slot? (hx.trans hy) hcy)
      exact .unary ((hself rfl).trans hc) (ih hbelow fun {y} hy => hbelow y hy y (mem_below_self g y))
  | @binary i op l r a b hc _ _ ihl ihr =>
      have hl : g.slot? i .left = l := by simp [slot?, hc]
      have hr : g.slot? i .right = r := by simp [slot?, hc]
      have hleft : ∀ y, l = some y → ∀ c ∈ g.below y, g'.content? c = g.content? c :=
        fun y hy c hcy => hcontent i rfl c (mem_below_of_slot? (hl.trans hy) hcy)
      have hright : ∀ y, r = some y → ∀ c ∈ g.below y, g'.content? c = g.content? c :=
        fun y hy c hcy => hcontent i rfl c (mem_below_of_slot? (hr.trans hy) hcy)
      exact .binary ((hself rfl).trans hc)
        (ihl hleft fun {y} hy => hleft y hy y (mem_below_self g y))
        (ihr hright fun {y} hy => hright y hy y (mem_below_self g y))

theorem exprWithin_eq (h : Reads g x e) (fuel : Nat) (hfuel : e.depth ≤ fuel) :
    g.exprWithin fuel x = e := by
  induction h generalizing fuel with
  | hole => cases fuel <;> rfl
  | const hc | var hc =>
      cases fuel with
      | zero => simp [Expr.depth] at hfuel
      | succ fuel => simp [exprWithin, hc]
  | unary hc _ ih =>
      simp only [Expr.depth] at hfuel
      cases fuel with
      | zero => omega
      | succ fuel => simp only [exprWithin, hc, ih fuel (by omega)]
  | binary hc _ _ ihl ihr =>
      simp only [Expr.depth] at hfuel
      cases fuel with
      | zero => omega
      | succ fuel => simp only [exprWithin, hc, ihl fuel (by omega), ihr fuel (by omega)]

theorem operand {s : Slot} (h : Reads g (some i) e) (hs : g.hasSlot i s = true) :
    ∃ f, e.operand? s = some f ∧ Reads g (g.slot? i s) f := by
  cases h with
  | const hc | var hc => cases s <;> simp [hasSlot, hc, Content.hasSlot, Content.slots] at hs
  | unary hc h =>
      cases s with
      | operand => exact ⟨_, rfl, by simpa [slot?, hc] using h⟩
      | left | right => simp [hasSlot, hc, Content.hasSlot, Content.slots] at hs
  | binary hc hl hr =>
      cases s with
      | operand => simp [hasSlot, hc, Content.hasSlot, Content.slots] at hs
      | left => exact ⟨_, rfl, by simpa [slot?, hc] using hl⟩
      | right => exact ⟨_, rfl, by simpa [slot?, hc] using hr⟩

/-- Paths lead to the parts of the expression. -/
theorem follow {path : Path} {c : Nat} (h : Reads g (some i) e) (hpath : g.follow i path = some c) :
    ∃ f, e.at? path = some f ∧ Reads g (some c) f := by
  induction path generalizing i e with
  | nil => exact ⟨e, rfl, Option.some.inj hpath ▸ h⟩
  | cons s path ih =>
      obtain ⟨x, hx, hpath⟩ := Option.bind_eq_some_iff.mp hpath
      obtain ⟨f, hf, hread⟩ := h.operand (hasSlot_of_slot? hx)
      obtain ⟨a, ha, hc⟩ := ih (hx ▸ hread) hpath
      exact ⟨a, by rw [Expr.at?_cons, hf, Option.bind_some, ha], hc⟩

/-- Where a filled expression is read, no slot is empty. -/
theorem exists_slot? {path : Path} {c : Nat} {s : Slot} (h : Reads g (some i) e) (he : e.isFilled)
    (hpath : g.follow i path = some c) (hs : g.hasSlot c s = true) : ∃ y, g.slot? c s = some y := by
  obtain ⟨f, hf, hc⟩ := h.follow hpath
  obtain ⟨a, ha, hread⟩ := hc.operand hs
  have hfilled : a.isFilled :=
    Expr.isFilled_part (Expr.isFilled_part he hf) (p := [s]) (by rw [Expr.at?_cons, ha]; rfl)
  cases hy : g.slot? c s with
  | some y => exact ⟨y, rfl⟩
  | none =>
      rw [hy] at hread
      cases hread
      cases hfilled

end Reads

/-- What is read out is no deeper than the number of steps. -/
theorem depth_exprWithin_le (g : Graph α) (fuel : Nat) (x : Option Nat) :
    (g.exprWithin fuel x).depth ≤ fuel := by
  induction fuel generalizing x with
  | zero => exact Nat.le_refl _
  | succ fuel ih =>
      cases x with
      | none => exact Nat.zero_le _
      | some i =>
          rw [exprWithin]
          split
          · simp [Expr.depth]
          · simp [Expr.depth]
          · next op x _ =>
            have hx := ih x
            simp only [Expr.depth]
            omega
          · next op l r _ =>
            have hl := ih l
            have hr := ih r
            simp only [Expr.depth]
            omega
          · exact Nat.zero_le _

end

/-! ### What is added -/

section

variable {α : Type} {g g₁ g' : Graph α} {i x : Nat} {e : Expr α}

/-- A cell branches if its operands do, apart from each other and from it. -/
theorem Branches.of_operands
    (hoperand : ∀ s x, g.slot? i s = some x → g.parent? x = some i ∧ Branches g x ∧ i ∉ g.below x)
    (hapart : ∀ s t x y, s ≠ t → g.slot? i s = some x → g.slot? i t = some y →
      Disjoint (g.below x) (g.below y)) : Branches g i where
  linked path c s x hc hx := by
    cases path with
    | nil =>
        obtain rfl := Option.some.inj hc
        exact (hoperand s x hx).1
    | cons t path =>
        obtain ⟨y, hy, hc⟩ := Option.bind_eq_some_iff.mp hc
        exact (hoperand t y hy).2.1.linked path c s x hc hx
  once p q c hp hq := by
    cases p with
    | nil =>
        obtain rfl := Option.some.inj hp
        cases q with
        | nil => rfl
        | cons t q =>
            obtain ⟨y, hy, hq⟩ := Option.bind_eq_some_iff.mp hq
            exact absurd ⟨q, hq⟩ (hoperand t y hy).2.2
    | cons s p =>
        obtain ⟨x, hx, hp⟩ := Option.bind_eq_some_iff.mp hp
        cases q with
        | nil =>
            obtain rfl := Option.some.inj hq
            exact absurd ⟨p, hp⟩ (hoperand s x hx).2.2
        | cons t q =>
            obtain ⟨y, hy, hq⟩ := Option.bind_eq_some_iff.mp hq
            by_cases hst : s = t
            · subst hst
              obtain rfl := Option.some.inj (hx.symm.trans hy)
              rw [(hoperand s x hx).2.1.once p q c hp hq]
            · exact absurd ⟨q, hq⟩ (Set.disjoint_left.mp (hapart s t x y hst hx hy) ⟨p, hp⟩)

/-- Other links do not matter, not even that of the root. -/
theorem Branches.congr (h : Branches g i)
    (hcontent : ∀ c ∈ g.below i, g'.content? c = g.content? c)
    (hparent : ∀ c ∈ g.below i, c ≠ i → g'.parent? c = g.parent? c) :
    Branches g' i ∧ g'.below i = g.below i := by
  have hslot : ∀ c ∈ g.below i, ∀ s, g'.slot? c s = g.slot? c s := fun c hc s => by
    rw [slot?, slot?, hcontent c hc]
  have hfollow : ∀ path, g'.follow i path = g.follow i path := fun path =>
    follow_eq_of_slots fun p s c _ hc => hslot c ⟨p, hc⟩ s
  refine ⟨{ linked := fun path c s x hc hx => ?_, once := fun p q c hp hq => ?_ },
    Set.ext fun c => exists_congr fun path => by rw [hfollow]⟩
  · rw [hfollow] at hc
    rw [hslot c ⟨path, hc⟩] at hx
    have hpath : g.follow i (path ++ [s]) = some x := by
      rw [follow_append, hc, Option.bind_some, follow_cons hx]
      rfl
    have hne : x ≠ i := by
      rintro rfl
      simpa using h.once _ [] x hpath rfl
    rw [hparent x ⟨_, hpath⟩ hne]
    exact h.linked path c s x hc hx
  · rw [hfollow] at hp hq
    exact h.once p q c hp hq

/-- A tree of new cells has been added; nothing holds its root yet. -/
structure Added (g g' : Graph α) (i : Nat) : Prop where
  branches : Branches g' i
  free : g'.parent? i = none
  new : ∀ c ∈ g'.below i, g.cellCount ≤ c ∧ c < g'.cellCount

theorem Added.lt (h : Added g g' i) : i < g'.cellCount := (h.new i (mem_below_self g' i)).2

/-- What adds a new cell over trees that have been added, adds the whole. -/
theorem Added.operator {new : Content α} (hcount : g.cellCount ≤ g₁.cellCount) (hcell : NewCell g₁ new g')
    (hoperand : ∀ s x, new.get? s = some x → Added g g₁ x)
    (hapart : ∀ s t x y, s ≠ t → new.get? s = some x → new.get? t = some y →
      Disjoint (g₁.below x) (g₁.below y)) : Added g g' g₁.cellCount := by
  have hoperands : g'.operands g₁.cellCount = new.operands := by rw [operands, hcell.content_self]; rfl
  simp only [← hcell.slot?] at hoperand hapart
  have hparent := hcell.parent
  simp only [← hoperands] at hparent
  -- the trees of the operands stand, as only their roots get another parent
  have hstands : ∀ s x, g'.slot? g₁.cellCount s = some x →
      Branches g' x ∧ g'.below x = g₁.below x := by
    intro s x hx
    refine (hoperand s x hx).branches.congr (fun c hc => ?_) (fun c hc hcx => ?_)
    · exact hcell.content_old ((hoperand s x hx).new c hc).2
    · rw [hparent, if_neg]
      rintro ⟨hmem, -⟩
      obtain ⟨t, -, ht⟩ := exists_slotHolding hmem
      by_cases hst : s = t
      · subst hst
        exact hcx (Option.some.inj (ht.symm.trans hx))
      · exact Set.disjoint_left.mp (hapart s t x c hst hx ht) hc (mem_below_self g₁ c)
  have hnew : ∀ s x, g'.slot? g₁.cellCount s = some x →
      ∀ c ∈ g'.below x, g.cellCount ≤ c ∧ c < g₁.cellCount := by
    intro s x hx c hc
    rw [(hstands s x hx).2] at hc
    exact (hoperand s x hx).new c hc
  refine ⟨.of_operands (fun s x hx => ⟨?_, (hstands s x hx).1, fun hmem => ?_⟩) ?_, ?_, ?_⟩
  · rw [hparent, if_pos ⟨mem_operands_of_slot? hx, Nat.le_of_lt (hoperand s x hx).lt⟩]
  · exact Nat.lt_irrefl _ (hnew s x hx _ hmem).2
  · intro s t x y hst hx hy
    rw [(hstands s x hx).2, (hstands t y hy).2]
    exact hapart s t x y hst hx hy
  · rw [hparent, parent?_of_le (Nat.le_refl _), if_neg]
    rintro ⟨hmem, -⟩
    obtain ⟨s, -, hs⟩ := exists_slotHolding hmem
    exact Nat.lt_irrefl _ (hoperand s _ hs).lt
  · rintro c ⟨path, hpath⟩
    rw [hcell.count]
    cases path with
    | nil =>
        obtain rfl := Option.some.inj hpath
        exact ⟨hcount, Nat.lt_succ_self _⟩
    | cons s path =>
        obtain ⟨x, hx, hpath⟩ := Option.bind_eq_some_iff.mp hpath
        obtain ⟨hle, hlt⟩ := hnew s x hx c ⟨path, hpath⟩
        exact ⟨hle, hlt.trans (Nat.lt_succ_self _)⟩

/-- What has been added stands beside more that is added. -/
theorem Added.beside (h : Added g g₁ i) {K : Graph α → Nat → Prop}
    (hedits : Edits K (g₁.cellCount ≤ ·) g₁ g') : Added g g' i ∧ g'.below i = g₁.below i := by
  have hold : ∀ c ∈ g₁.below i, Untouched g₁ g' c := fun c hc => hedits.old (h.new c hc).2
  obtain ⟨hbranches, hbelow⟩ :=
    h.branches.congr (fun c hc => (hold c hc).content) (fun c hc _ => (hold c hc).parent)
  refine ⟨⟨hbranches, ?_, fun c hc => ?_⟩, hbelow⟩
  · rw [(hold i (mem_below_self g₁ i)).parent, h.free]
  · rw [hbelow] at hc
    exact ⟨(h.new c hc).1, (h.new c hc).2.trans_le hedits.cellCount_le⟩

theorem Added.leaf {new : Content α} (hempty : new.operands = []) :
    Added g (g.add new).1 g.cellCount := by
  have hget : ∀ s x, new.get? s ≠ some x := by
    intro s x hx
    simpa [hempty] using Content.mem_operands_of_get? hx
  exact .operator (Nat.le_refl _) (newCell_add hempty) (fun s x hx => absurd hx (hget s x))
    fun s _ x _ _ hx => absurd hx (hget s x)

/-- A new unary operator over an operand that has been added. -/
theorem added_newUnary (op : UnaryOp) {x : Option Nat} (hcount : g.cellCount ≤ g₁.cellCount)
    (hread : Reads g₁ x e) (hx : ∀ i, x = some i → Added g g₁ i) :
    Reads (g₁.newUnary op x).1 (some g₁.cellCount) (.unary op e) ∧
      Added g (g₁.newUnary op x).1 g₁.cellCount := by
  have hcell := newCell_newUnary g₁ op x
  have hget : ∀ {s y}, (Content.unary op x : Content α).get? s = some y → s = .operand ∧ x = some y := by
    intro s y hy
    cases s with
    | operand => exact ⟨rfl, by simpa using hy⟩
    | left | right => cases hy
  refine ⟨.unary hcell.content_self (hread.congr fun i hi c hc => hcell.content_old ((hx i hi).new c hc).2),
    .operator hcount hcell (fun s y hy => hx y (hget hy).2) fun s t y z hst hy hz => ?_⟩
  exact absurd ((hget hy).1.trans (hget hz).1.symm) hst

/-- A new binary operator over operands that have been added one after the other. -/
theorem added_newBinary (op : BinaryOp) {g₂ : Graph α} {l r : Option Nat} {a b : Expr α}
    {K : Graph α → Nat → Prop} (hcount : g.cellCount ≤ g₁.cellCount)
    (hedits : Edits K (g₁.cellCount ≤ ·) g₁ g₂) (ha : Reads g₁ l a)
    (hl : ∀ i, l = some i → Added g g₁ i) (hb : Reads g₂ r b) (hr : ∀ i, r = some i → Added g₁ g₂ i) :
    Reads (g₂.newBinary op l r).1 (some g₂.cellCount) (.binary op a b) ∧
      Added g (g₂.newBinary op l r).1 g₂.cellCount := by
  have hcell := newCell_newBinary g₂ op l r
  have hget : ∀ {s y}, (Content.binary op l r : Content α).get? s = some y →
      s = .left ∧ l = some y ∨ s = .right ∧ r = some y := by
    intro s y hy
    cases s with
    | operand => cases hy
    | left => exact .inl ⟨rfl, by simpa using hy⟩
    | right => exact .inr ⟨rfl, by simpa using hy⟩
  have hapart : ∀ {y z}, l = some y → r = some z → Disjoint (g₂.below y) (g₂.below z) := by
    intro y z hy hz
    rw [Set.disjoint_left, ((hl y hy).beside hedits).2]
    exact fun c hc hc' => Nat.not_le_of_lt ((hl y hy).new c hc).2 ((hr z hz).new c hc').1
  refine ⟨.binary hcell.content_self (ha.congr fun i hi c hc => ?_)
      (hb.congr fun i hi c hc => hcell.content_old ((hr i hi).new c hc).2),
    .operator (hcount.trans hedits.cellCount_le) hcell (fun s y hy => ?_) fun s t y z hst hy hz => ?_⟩
  · have hlt := ((hl i hi).new c hc).2
    exact (hcell.content_old (hlt.trans_le hedits.cellCount_le)).trans (hedits.old hlt).content
  · rcases hget hy with ⟨-, hy⟩ | ⟨-, hy⟩
    · exact ((hl y hy).beside hedits).1
    · have h := hr y hy
      exact ⟨h.branches, h.free, fun c hc => ⟨hcount.trans (h.new c hc).1, (h.new c hc).2⟩⟩
  · rcases hget hy with ⟨hs, hy'⟩ | ⟨hs, hy'⟩ <;> rcases hget hz with ⟨ht, hz'⟩ | ⟨ht, hz'⟩
    · exact absurd (hs.trans ht.symm) hst
    · exact hapart hy' hz'
    · exact (hapart hz' hy').symm
    · exact absurd (hs.trans ht.symm) hst

/-- What is built reads out as the expression, and is added. -/
theorem added_build (g : Graph α) (e : Expr α) :
    Reads (g.build e).1 (g.build e).2 e ∧ ∀ i, (g.build e).2 = some i → Added g (g.build e).1 i := by
  have hedits : ∀ (g : Graph α) e,
      Edits (fun _ _ => True) (g.cellCount ≤ ·) g (g.build e).1 := fun g e =>
    ((Closed.new g).edits_build e).1
  induction e generalizing g with
  | hole => exact ⟨.hole, nofun⟩
  | const v =>
      refine ⟨.const ((content?_add g _ _).trans (if_pos rfl)), ?_⟩
      rintro i ⟨⟩
      exact .leaf rfl
  | var y =>
      refine ⟨.var ((content?_add g _ _).trans (if_pos rfl)), ?_⟩
      rintro i ⟨⟩
      exact .leaf rfl
  | unary op x ih =>
      obtain ⟨hread, hx⟩ := ih g
      obtain ⟨hread', hadded⟩ := added_newUnary op (hedits g x).cellCount_le hread hx
      refine ⟨hread', ?_⟩
      rintro i ⟨⟩
      exact hadded
  | binary op l r ihl ihr =>
      obtain ⟨ha, hl⟩ := ihl g
      obtain ⟨hb, hr⟩ := ihr (g.build l).1
      obtain ⟨hread', hadded⟩ := added_newBinary op (hedits g l).cellCount_le (hedits _ r) ha hl hb hr
      refine ⟨hread', ?_⟩
      rintro i ⟨⟩
      exact hadded

end

end Graph

end Formula
