/-
Formula/Proofs/Graph/Placing.lean

Parts of a tree are rebuilt where they stand.  `Turns` says what has become of
a tree: another tree, of its cells and of new ones, after edits within these.
`Rebuilt` is the case of one part that has been rebuilt by a sketch.  It tells
where other parts are found now, and that what the sketch does not use still
stands beside the new tree.

The new tree is made first (`MadeOf`) and then put into the slot of the old one
(`Makes.place`); a tree as a whole needs the first step only.
-/
import Formula.Proofs.Graph.Making

namespace Formula

open Path (Apart)

namespace Graph

variable {α : Type} {K : Graph α → Nat → Prop} {g g' g'' : Graph α} {i j k x : Nat}
  {n m m' a : Node α} {A E E' F : Finset Nat} {sk : Sketch α} {p : Path}

/-! ### What becomes of a tree -/

/-- The tree of the cells `F` below `i` has become the tree `m` of the cells `E`
below `j`. -/
structure Turns (K : Graph α → Nat → Prop) (g : Graph α) (i : Nat) (F : Finset Nat) (g' : Graph α)
    (j : Nat) (m : Node α) (E : Finset Nat) : Prop where
  holds : Holds g' j m E
  cells : ∀ c ∈ E, g.Region F c
  edits : Edits K (g.Region F) g g'
  parent : j = i → g'.parent? i = g.parent? i
  dropped : j ≠ i → i ∉ E

namespace Turns

theorem refl (h : Holds g i n F) : Turns K g i F g i n F :=
  ⟨h, fun _ => .inl, .refl, fun _ => rfl, fun hne => absurd rfl hne⟩

theorem region_trans (h : Turns K g i F g' j m E) {c : Nat} (hc : g'.Region E c) : g.Region F c := by
  rcases hc with hc | hc
  · exact h.cells c hc
  · exact .inr (h.edits.cellCount_le.trans hc)

theorem trans (hi : i < g.cellCount) (h : Turns K g i F g' j m E)
    (h' : Turns K g' j E g'' k m' E') : Turns K g i F g'' k m' E' := by
  -- the old root is in the last tree only if it has been the root all the time
  have hroot : i ∈ E' → j = i ∧ k = i := by
    intro hmem
    have hiE : i ∈ E := (h'.cells i hmem).resolve_right
      (Nat.not_le_of_lt (hi.trans_le h.edits.cellCount_le))
    have hji : j = i := by
      by_contra hne
      exact h.dropped hne hiE
    refine ⟨hji, ?_⟩
    by_contra hne
    exact h'.dropped (fun hkj => hne (hkj.trans hji)) (hji ▸ hmem)
  refine ⟨h'.holds, fun c hc => h.region_trans (h'.cells c hc),
    h.edits.trans (h'.edits.mono (fun _ _ hK => hK) fun c hc => h.region_trans hc),
    fun hki => ?_, fun hki hmem => hki (hroot hmem).2⟩
  obtain ⟨rfl, -⟩ := hroot (hki ▸ h'.holds.root_mem)
  rw [h'.parent hki, h.parent rfl]

end Turns

/-- The part at a path has been rebuilt. -/
structure Rebuilt (K : Graph α → Nat → Prop) (g : Graph α) (i : Nat) (n : Node α) (F : Finset Nat)
    (p : Path) (sk : Sketch α) (g' : Graph α) (j : Nat) (E : Finset Nat) : Prop
    extends Turns K g i F g' j (n.rebuildAt p sk) E where
  outside : ∀ q b, Apart p q → n.at? q = some b → g'.follow j q = g.follow i q
  inside : ∀ q r t b, sk.Puts q r → n.at? (p ++ (q ++ t)) = some b →
    g'.follow j (p ++ (r ++ t)) = g.follow i (p ++ (q ++ t))
  freed : ∀ q b z D, (∀ r ∈ sk.parts, Apart q r) → n.at? (p ++ q) = some b →
    g.follow i (p ++ q) = some z → Holds g z b D →
      Holds g' z b D ∧ Disjoint D E ∧ ∀ c ∈ D, g'.content? c = g.content? c

/-! ### Rebuilding the whole tree -/

theorem follow_append (g : Graph α) (i : Nat) (p q : Path) :
    g.follow i (p ++ q) = (g.follow i p).bind (g.follow · q) := by
  induction p generalizing i with
  | nil => rfl
  | cons s p ih => cases h : g.slot? i s <;> simp [follow, h, ih]

/-- A path leads where it did if the slots on the way hold what they did. -/
theorem follow_eq_of_slots {path : Path}
    (h : ∀ p s c, p ++ [s] <+: path → g.follow i p = some c → g'.slot? c s = g.slot? c s) :
    g'.follow i path = g.follow i path := by
  induction path using List.reverseRecOn with
  | nil => rfl
  | append_singleton p s ih =>
      have hp : g'.follow i p = g.follow i p :=
        ih fun q t c hq => h q t c (hq.trans (List.prefix_append p [s]))
      rw [follow_append, follow_append, hp]
      cases hc : g.follow i p with
      | none => rfl
      | some c => simp [follow, h p s c (List.prefix_refl _) hc]

/-- A tree has been made of the cells of parts of another one, which is not needed any
more.  The parts are where they are put, and what has not been used stands beside the
new tree.  Unless the old tree itself is used, its root is left alone. -/
structure MadeOf [Arithmetic α] (K : Graph α → Nat → Prop) (R : Nat → Prop) (g : Graph α) (x : Nat)
    (a : Node α) (A : Finset Nat) (sk : Sketch α) (g' : Graph α) (y : Nat) (E : Finset Nat) : Prop
    extends Makes K R (· ∈ A) (· ∈ A) g g' y (a.build sk) E where
  root : [] ∉ sk.parts → g'.parent? x = g.parent? x ∧ x ∉ E
  inside : ∀ q r t b, sk.Puts q r → a.at? (q ++ t) = some b →
    g'.follow y (r ++ t) = g.follow x (q ++ t)
  freed : ∀ q b z D, (∀ r ∈ sk.parts, Apart q r) → a.at? q = some b → g.follow x q = some z →
    Holds g z b D → Holds g' z b D ∧ Disjoint D E ∧ ∀ c ∈ D, g'.content? c = g.content? c

/-- What a sketch that fits makes of the cells of a tree. -/
theorem Sketched.madeOf [Arithmetic α] {R : Nat → Prop} {y : Nat} {cell : Path → Nat}
    {cells : Path → Finset Nat} (ha : Holds g x a A) (hfits : sk.Fits a.expr)
    (hparts : ∀ p m, a.at? p = some m →
      g.follow x p = some (cell p) ∧ Holds g (cell p) m (cells p) ∧ cells p ⊆ A)
    (h : Sketched K R cell cells sk g g' y (a.build sk) E) : MadeOf K R g x a A sk g' y E := by
  have hused : ∀ p ∈ sk.parts, ∃ b, a.at? p = some b ∧ g.follow x p = some (cell p) ∧
      Holds g (cell p) b (cells p) ∧ cells p ⊆ A := by
    intro p hp
    obtain ⟨b, hb⟩ := hfits.exists_at? hp
    exact ⟨b, hb, hparts p b hb⟩
  refine ⟨⟨h.holds, ?_, h.keeps.mono ?_, h.edits⟩, ?_, ?_, ?_⟩
  · rintro c hc
    rcases h.cells c hc with ⟨p, hp, hcp⟩ | hle
    · obtain ⟨b, -, -, -, hsub⟩ := hused p hp
      exact .inl (hsub hcp)
    · exact .inr hle
  · rintro c - ⟨p, hp, rfl⟩
    obtain ⟨b, -, -, hholds, hsub⟩ := hused p hp
    exact hsub hholds.root_mem
  · intro hnil
    -- the root is in no proper part
    have hroot : ∀ p ∈ sk.parts, cell p ≠ x ∧ x ∉ cells p := by
      intro p hp
      obtain ⟨b, hb, hfollow, hholds, -⟩ := hused p hp
      obtain ⟨s, q, rfl⟩ := List.exists_cons_of_ne_nil fun heq => hnil (heq ▸ hp)
      have hx := ha.not_mem_part hb hfollow hholds
      exact ⟨fun heq => hx (heq ▸ hholds.root_mem), hx⟩
    have hlt := ha.lt x ha.root_mem
    refine ⟨h.keeps.parent x hlt fun ⟨p, hp, heq⟩ => (hroot p hp).1 heq, fun hxE => ?_⟩
    rcases h.cells x hxE with ⟨p, hp, hxp⟩ | hle
    · exact (hroot p hp).2 hxp
    · exact Nat.not_le_of_lt hlt hle
  · intro q r t b hqr hb
    rw [Node.at?_append] at hb
    obtain ⟨c, hc, hb⟩ := Option.bind_eq_some_iff.mp hb
    obtain ⟨hfollow, hholds, -⟩ := hparts q c hc
    rw [follow_append, follow_append, h.puts q r hqr, hfollow]
    refine hholds.follow_congr (fun d hd t => ?_) hb
    rw [slot?, slot?, h.keeps.content d (hholds.lt d hd)]
  · intro q b z D hapart hb hz hD
    have hdisj : ∀ r ∈ sk.parts, cell r ∈ cells r ∧ Disjoint D (cells r) := by
      intro r hr
      obtain ⟨c, hc, hfollow, hholds, -⟩ := hused r hr
      exact ⟨hholds.root_mem,
        ha.disjoint_of_apart (hapart r hr).1 (hapart r hr).2 hb hc hz hfollow hD hholds⟩
    refine ⟨?_, ?_, fun c hc => h.keeps.content c (hD.lt c hc)⟩
    · refine h.keeps.holds hD ?_
      rintro c hc ⟨r, hr, rfl⟩
      exact absurd (hdisj r hr).1 (Finset.disjoint_left.mp (hdisj r hr).2 hc)
    · rw [Finset.disjoint_left]
      intro c hcD hcE
      rcases h.cells c hcE with ⟨r, hr, hcr⟩ | hle
      · exact Finset.disjoint_left.mp (hdisj r hr).2 hcD hcr
      · exact Nat.not_le_of_lt (hD.lt c hcD) hle

/-- The tree of a sketch of a tree, made of the cells of the parts. -/
theorem sketch_of_fits [Arithmetic α] {R : Nat → Prop} (ha : Holds g x a A) (hfits : sk.Fits a.expr)
    (hR : ∀ c ∈ A, R c) (hnew : ∀ c, g.cellCount ≤ c → R c) :
    ∃ g' y E, (Editing.sketch x sk).Runs g [] g' y ∧ MadeOf K R g x a A sk g' y E := by
  obtain ⟨cell, cells, hparts⟩ := ha.exists_parts
  have hpartAt : ∀ p ∈ sk.parts, PartAt g x a cell cells p := by
    intro p hp
    obtain ⟨b, hb⟩ := hfits.exists_at? hp
    obtain ⟨hfollow, hholds, -⟩ := hparts p b hb
    rw [PartAt, Node.part_of_at? hb]
    exact ⟨hfollow, hholds⟩
  have hdisj : sk.parts.Pairwise fun p q => Disjoint (cells p) (cells q) := by
    refine hfits.apart.imp_of_mem fun {p q} hp hq hpq => ?_
    obtain ⟨b, hb⟩ := hfits.exists_at? hp
    obtain ⟨c, hc⟩ := hfits.exists_at? hq
    obtain ⟨hfp, hp, -⟩ := hparts p b hb
    obtain ⟨hfq, hq, -⟩ := hparts q c hc
    exact ha.disjoint_of_apart hpq.1 hpq.2 hb hc hfp hfq hp hq
  have hregion : ∀ p ∈ sk.parts, ∀ c ∈ cells p, R c := by
    intro p hp c hc
    obtain ⟨b, hb⟩ := hfits.exists_at? hp
    exact hR c ((hparts p b hb).2.2 hc)
  obtain ⟨g', y, E, hrun, hsketched⟩ := sketch_spec (K := K) sk hpartAt hdisj hregion hnew
  exact ⟨g', y, E, hrun, hsketched.madeOf ha hfits hparts⟩

/-- A tree as a whole is rebuilt of proper parts. -/
theorem rebuild_whole [Arithmetic α] (hn : Holds g i n F) (hfits : sk.Fits n.expr)
    (hproper : ∀ p ∈ sk.parts, p ≠ []) :
    ∃ g' y E, (Editing.sketch i sk).Runs g [] g' y ∧ Rebuilt K g i n F [] sk g' y E := by
  obtain ⟨g', y, E, hrun, hmade⟩ := sketch_of_fits (K := K) (R := g.Region F) hn hfits
    (fun c => .inl) (fun c => .inr)
  obtain ⟨-, hi⟩ := hmade.root fun hnil => hproper [] hnil rfl
  refine ⟨g', y, E, hrun, ⟨?_, hmade.cells, hmade.edits,
    fun hyi => absurd (hyi ▸ hmade.holds.root_mem) hi, fun _ => hi⟩, ?_, hmade.inside, hmade.freed⟩
  · rw [Node.rebuildAt, Node.put_nil]
    exact hmade.holds
  · exact fun q b hapart => absurd rfl hapart.ne_nil

/-! ### Rebuilding a proper part -/

theorem replaceChild_of_slot? [Numeral α] {o : Nat} {s : Slot} (hslot : g.slot? o s = some x)
    (hleft : s = .right → g.slot? o .left ≠ some x) (new : Option Nat) :
    g.replaceChild o (some x) new = .ok (g.setSlot o s new) := by
  obtain ⟨c, hc, hget⟩ := Option.bind_eq_some_iff.mp hslot
  simp only [slot?, hc, Option.bind_some] at hleft
  cases c with
  | const | var => cases s <;> cases hget
  | unary op z =>
      cases s with
      | left | right => cases hget
      | operand =>
          have hz : z = some x := hget
          simp [Graph.replaceChild, hc, hz]
  | binary op l r =>
      cases s with
      | operand => cases hget
      | left =>
          have hl : l = some x := hget
          simp [Graph.replaceChild, hc, hl]
      | right =>
          have hr : r = some x := hget
          have hl : l ≠ some x := hleft rfl
          simp [Graph.replaceChild, hc, hl, hr]

theorem replaceChild_run [Numeral α] {C : Finset Nat} {o y : Nat} {s : Slot}
    (hctx : Context g i n (p ++ [s]) x C) (hlead : Leads g i p o) (hslot : g.slot? o s = some x)
    (hx : x ∉ C) : (Editing.replaceChild o x y).Runs g [] (g.setSlot o s (some y)) () := by
  have hleft : s = .right → g.slot? o .left ≠ some x := by
    rintro rfl hleft
    obtain ⟨z, hz, hz'⟩ := hctx.exists_left hlead.follow
    obtain rfl : x = z := Option.some.inj (hleft.symm.trans hz')
    exact hx hz
  simp only [Editing.Runs, Editing.replaceChild, Editing.attempt, replaceChild_of_slot? hslot hleft]
  rfl

/-- Old cells have their operands, but for the slot that gets another one. -/
theorem Keeps.slot?_setSlot {S : Nat → Prop} {o c : Nat} {s t : Slot} {new : Option Nat}
    (h : Keeps S g g') (hc : c < g.cellCount) (hne : ¬(c = o ∧ t = s)) :
    (g'.setSlot o s new).slot? c t = g.slot? c t := by
  rw [slot?_setSlot_of_ne hne, Graph.slot?, Graph.slot?, h.content c hc]

/-- A tree that has been made of what is not around a proper part takes its place.  What
is not below the part keeps its cell. -/
theorem Makes.place {R S old : Nat → Prop} {C : Finset Nat} {o y z : Nat} {s : Slot} {m : Node α}
    (hg : Honest g) (hn : Holds g i n (C ∪ A)) (hat : n.at? (p ++ [s]) = some a)
    (hctx : Context g i n (p ++ [s]) z C) (hlead : Leads g i p o) (hslot : g.slot? o s = some z)
    (hz : z ∉ C) (h : Makes K R S old g g' y m E) (hS : ∀ c ∈ C, ¬S c) (hold : ∀ c ∈ C, ¬old c)
    (hR : R o ∧ R z ∧ R y) :
    Holds (g'.setSlot o s (some y)) i (n.put (p ++ [s]) m) (C ∪ E) ∧ Disjoint C E ∧
      Edits K R g (g'.setSlot o s (some y)) ∧ (g'.setSlot o s (some y)).parent? i = g.parent? i ∧
      (g'.setSlot o s (some y)).follow i (p ++ [s]) = some y ∧
      ∀ q b, ¬(p ++ [s]) <+: q → n.at? q = some b →
        (g'.setSlot o s (some y)).follow i q = g.follow i q := by
  have hi : i ∈ C := hctx.root_mem_concat
  have hlt : ∀ c ∈ C, c < g.cellCount := fun c hc => hn.lt c (Finset.mem_union_left A hc)
  have hCE : Disjoint C E := by
    rw [Finset.disjoint_left]
    intro c hcC hcE
    rcases h.cells c hcE with hc | hle
    · exact hold c hcC hc
    · exact Nat.not_le_of_lt (hlt c hcC) hle
  have hy : y ∉ C := Finset.disjoint_right.mp hCE h.holds.root_mem
  have hctx' := h.keeps.context hctx hlt hS
  have hlead' := h.keeps.leads hctx hlead hlt hS
  have hslot' := h.keeps.slot? hslot
  have hg' := h.edits.honest hg
  obtain ⟨-, hplace⟩ := hctx'.setSlot hlead' hslot' (hg'.setSlot o s (some y)) hz hy
    (h.holds.lt y h.holds.root_mem)
  refine ⟨hctx'.put hlead' hslot' hg' hz h.holds hCE, hCE,
    h.edits.trans (.single (.setSlot hR.1 ?_ ?_)), ?_, hplace.follow, ?_⟩
  · rintro _ ⟨rfl⟩
    exact hR.2.2
  · intro x hx
    obtain rfl := Option.some.inj (hslot'.symm.trans hx)
    exact hR.2.1
  · exact (parent?_setSlot_of_ne hslot' (by rintro rfl; exact hz hi) (by rintro rfl; exact hy hi)).trans
      (h.keeps.parent i (hlt i hi) (hS i hi))
  · -- only the slot above the part is another
    intro q b hpq hb
    obtain ⟨c, hc⟩ : ∃ c, n.at? p = some c := by
      rw [Node.at?_append] at hat
      exact Option.isSome_iff_exists.mp (Option.isSome_of_isSome_bind (Option.isSome_of_eq_some hat))
    exact hn.follow_beside hlead hc hb hpq fun d hd t => h.keeps.slot?_setSlot (hn.lt d hd)

namespace MadeOf

variable [Arithmetic α] {R : Nat → Prop} {o y : Nat} {s : Slot}

/-- The parts are where they are put also when an owner has got the new tree. -/
theorem inside_setSlot (h : MadeOf K R g x a A sk g' y E) (ho : o ∉ E) {q r t : Path} {b : Node α}
    (hqr : sk.Puts q r) (hb : a.at? (q ++ t) = some b) {new : Option Nat} :
    (g'.setSlot o s new).follow y (r ++ t) = g.follow x (q ++ t) := by
  obtain ⟨c, hc, hbt⟩ := Option.bind_eq_some_iff.mp (Node.at?_append a q t ▸ hb)
  have hbuilt : (a.build sk).at? (r ++ t) = some b := by
    rw [Node.at?_append, hqr.at?_build, Node.part_of_at? hc]
    exact hbt
  rw [← h.inside q r t b hqr hb]
  refine h.holds.follow_congr (fun c hcE t => ?_) hbuilt
  exact slot?_setSlot_of_ne fun hco => ho (hco.1 ▸ hcE)

/-- So does what has not been used stand beside it. -/
theorem freed_setSlot (h : MadeOf K R g x a A sk g' y E) (ha : Holds g x a A) (ho : o ∉ A)
    (hg' : Honest (g'.setSlot o s (some y))) {q : Path} {b : Node α} {z : Nat} {D : Finset Nat}
    (hapart : ∀ r ∈ sk.parts, Apart q r) (hb : a.at? q = some b) (hz : g.follow x q = some z)
    (hD : Holds g z b D) :
    Holds (g'.setSlot o s (some y)) z b D ∧ Disjoint D E ∧ D ⊆ A ∧
      ∀ c ∈ D, (g'.setSlot o s (some y)).content? c = g.content? c := by
  obtain ⟨hD', hDE, hcontent⟩ := h.freed q b z D hapart hb hz hD
  have hDA : D ⊆ A := by
    obtain ⟨w, B, hw, hB, hsub⟩ := ha.follow_of_at? hb
    obtain rfl : z = w := Option.some.inj (hz.symm.trans hw)
    rwa [(hD.unique hB).2]
  have hoD : o ∉ D := fun hoD => ho (hDA hoD)
  refine ⟨hD'.setSlot_of_not_mem hg' hoD (Finset.disjoint_right.mp hDE h.holds.root_mem), hDE, hDA,
    fun c hc => ?_⟩
  rw [content?_setSlot_of_ne (by rintro rfl; exact hoD hc), hcontent c hc]

end MadeOf

/-- A proper part is rebuilt: its new cells are made, and its owner gets them. -/
theorem rebuild_below [Arithmetic α] [Numeral α] (hg : Honest g) (hn : Holds g i n F) {s : Slot}
    (hat : n.at? (p ++ [s]) = some a) (hx : g.follow i (p ++ [s]) = some x)
    (hfits : sk.Fits a.expr) :
    ∃ o g₁ y g₂ E, g.parent? x = some o ∧ x ≠ i ∧ (Editing.sketch x sk).Runs g [] g₁ y ∧
      ([] ∉ sk.parts → g₁.parent? x = some o) ∧ (Editing.replaceChild o x y).Runs g₁ [] g₂ () ∧
      Rebuilt K g i n F (p ++ [s]) sk g₂ i E ∧ g₂.follow i (p ++ [s]) = some y ∧
      ∀ q b, ¬(p ++ [s]) <+: q → n.at? q = some b → g₂.follow i q = g.follow i q := by
  obtain ⟨k, C, A, hctx, hlead, hA, hCA, rfl⟩ := hn.exists_context hat
  obtain rfl : k = x := Option.some.inj (hlead.follow.symm.trans hx)
  obtain ⟨o, hlead', hslot, hparent⟩ := leads_concat.mp hlead
  have hoC := hctx.follow_mem hlead'.follow
  have hkC : k ∉ C := Finset.disjoint_right.mp hCA hA.root_mem
  have hltC : ∀ c ∈ C, c < g.cellCount := fun c hc => hn.lt c (Finset.mem_union_left A hc)
  -- the cells around the part are neither used nor adopted
  have hS : ∀ c ∈ C, c ∉ A := fun c hc => Finset.disjoint_left.mp hCA hc
  obtain ⟨g₁, y, E, hrun, hmade⟩ := sketch_of_fits (K := K) (R := g.Region (C ∪ A)) hA hfits
    (fun c hc => .inl (Finset.mem_union_right C hc)) (fun c => .inr)
  have hregion : ∀ c ∈ E, g.Region (C ∪ A) c := fun c hc =>
    (hmade.cells c hc).imp_left (Finset.mem_union_right C)
  obtain ⟨hholds, hCE, hedits, hroot, hplace, hbeside⟩ := hmade.place hg hn hat hctx hlead' hslot hkC
    hS hS ⟨.inl (Finset.mem_union_left A hoC), .inl (Finset.mem_union_right C hA.root_mem),
      hregion y hmade.holds.root_mem⟩
  have hreplace := replaceChild_run (y := y) (hmade.keeps.context hctx hltC hS)
    (hmade.keeps.leads hctx hlead' hltC hS) (hmade.keeps.slot? hslot) hkC
  have hbelow : ∀ {q b}, n.at? (p ++ [s] ++ q) = some b → a.at? q = some b := fun {q b} hb => by
    rwa [Node.at?_append, hat] at hb
  refine ⟨o, g₁, y, g₁.setSlot o s (some y), C ∪ E, hparent, ?_, hrun,
    fun hnil => (hmade.root hnil).1.trans hparent, hreplace,
    ⟨⟨?_, ?_, hedits, fun _ => hroot, fun hne => absurd rfl hne⟩,
      fun q b hapart => hbeside q b hapart.1, ?_, ?_⟩, hplace, hbeside⟩
  · rintro rfl
    exact hkC hctx.root_mem_concat
  · rw [Node.rebuildAt, Node.part_of_at? hat]
    exact hholds
  · intro c hc
    rcases Finset.mem_union.mp hc with hc | hc
    · exact .inl (Finset.mem_union_left A hc)
    · exact hregion c hc
  · intro q r t b hqr hb
    rw [follow_append, follow_append _ _ _ (q ++ t), hplace, hx, Option.bind_some,
      Option.bind_some, hmade.inside_setSlot (Finset.disjoint_left.mp hCE hoC) hqr (hbelow hb)]
  · intro q b z D hapart hb hz hD
    rw [follow_append, hx, Option.bind_some] at hz
    obtain ⟨hD₂, hDE, hDA, hcontent⟩ := hmade.freed_setSlot hA (hS o hoC)
      ((hmade.edits.honest hg).setSlot o s (some y)) hapart (hbelow hb) hz hD
    have hDC : Disjoint D C := (Finset.disjoint_of_subset_right hDA hCA).symm
    exact ⟨hD₂, Finset.disjoint_union_right.mpr ⟨hDC, hDE⟩, hcontent⟩

end Graph

end Formula
