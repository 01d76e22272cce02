/-
Formula/Proofs/Graph/Performing.lean

Carrying out moves in a graph.  A move that fits the tree below a cell can be
carried out by edits, and these turn the tree into what the move makes of it
(`perform_spec`).  The root of the new tree may be another cell.
-/
import Formula.Proofs.Graph.Splicing

namespace Formula

open Path (Apart)

namespace Editing.Runs

variable {α : Type} {g : Graph α}

theorem edit (f : Graph α → Graph α) : (Editing.edit f).Runs g [] (f g) () := rfl

end Editing.Runs

namespace Graph

variable {α : Type} {K : Graph α → Nat → Prop} {g g' : Graph α} {i j k x : Nat}
  {n m a b : Node α} {B E F : Finset Nat} {p : Path}

/-! ### Changing a constant -/

theorem follow_congr_slots (h : ∀ c t, g'.slot? c t = g.slot? c t) (i : Nat) (p : Path) :
    g'.follow i p = g.follow i p := by
  induction p generalizing i with
  | nil => rfl
  | cons s p ih => simp only [follow, h, ih]

theorem Leads.congr (h : Leads g i p k) (hslot : ∀ c t, g'.slot? c t = g.slot? c t)
    (hparent : ∀ c, g'.parent? c = g.parent? c) : Leads g' i p k := by
  induction p generalizing i with
  | nil => exact h
  | cons s p ih =>
      obtain ⟨x, hx, hxi, hrest⟩ := h
      exact ⟨x, by rw [hslot, hx], by rw [hparent, hxi], ih hrest⟩

/-- A constant gets another value where it stands. -/
theorem setValue_spec {t : Tag} {w : α} (v : α) (hg : Honest g) (hn : Holds g i n F)
    (hat : n.at? p = some (.const t w)) (hx : g.follow i p = some x) :
    Turns K g i F (g.setValue x v) i (n.put p (Node.newConst v)) F ∧
      ∀ q, (g.setValue x v).follow i q = g.follow i q := by
  obtain ⟨k, C, A, hctx, hlead, hA, hCA, rfl⟩ := hn.exists_context hat
  obtain rfl : k = x := Option.some.inj (hlead.follow.symm.trans hx)
  cases hA with | const hw =>
  have hkC : k ∉ C := by simpa using hCA
  have hparent : ∀ c, (g.setValue k v).parent? c = g.parent? c := parent?_setValue v
  have hcontent : (g.setValue k v).content? k = some (.const v) := by
    rw [content?_setValue hw, if_pos rfl]
  have hother : ∀ c, c ≠ k → (g.setValue k v).content? c = g.content? c := by
    intro c hc
    rw [content?_setValue hw, if_neg hc.symm]
  have hslot : ∀ c t, (g.setValue k v).slot? c t = g.slot? c t := by
    intro c t
    by_cases hck : c = k
    · rw [hck, slot?, slot?, hcontent, hw]
      cases t <;> rfl
    · rw [slot?, slot?, hother c hck]
  -- all marks above the constant are gone
  have hunmarked : ∀ c, g.Up k c → (g.setValue k v).isSettled c = false := by
    intro c hup
    rw [Bool.eq_false_iff]
    exact fun hc => ((isSettled_setValue hw v c).mp hc).2 hup
  have hctx' : Context (g.setValue k v) i n p k C := by
    refine hctx.congr (fun c hc => hother c ?_) (fun c _ _ => hparent c) (fun hB hb => ?_)
    · rintro rfl
      exact hkC hc
    · exact hb.setValue hg v fun hk => hkC (hB hk)
  have hnew : Holds (g.setValue k v) k (Node.newConst v) {k} := by
    have htag : (g.setValue k v).tag k = .fresh := by
      rw [tag, hunmarked k .refl, Tag.fresh]
    have h := Holds.const hcontent
    rwa [htag] at h
  refine ⟨⟨?_, fun _ => .inl, .single (.setValue (.inl (by simp))), fun _ => hparent i,
    fun hne => absurd rfl hne⟩, follow_congr_slots hslot i⟩
  refine hctx'.fill (hlead.congr hslot hparent) (fun o ho c hup => hunmarked c ?_) hnew hCA
  rw [hparent] at ho
  exact Relation.ReflTransGen.head ho ((up_congr hparent o c).mp hup)

/-! ### Grafts -/

/-- An operator is made of a part and of a tree beside the tree. -/
theorem graft_spec {R : Nat → Prop} {s : Slot} (op : BinaryOp) (hg : Honest g) (hn : Holds g i n F)
    (hat : n.at? (p ++ [s]) = some a) (hk : g.follow i p = some k) (hx : Holds g x b B)
    (hdisj : Disjoint B F) (hRF : ∀ c ∈ F, R c) (hRB : ∀ c ∈ B, R c)
    (hnew : ∀ c, g.cellCount ≤ c → R c) :
    ∃ g' E, (Editing.graft op k s x).Runs g [] g' () ∧ Holds g' i (n.graft op (p ++ [s]) b) E ∧
      (∀ c ∈ E, c ∈ F ∨ c ∈ B ∨ g.cellCount ≤ c) ∧ Edits K R g g' ∧ g'.parent? i = g.parent? i ∧
      ∀ q b, ¬(p ++ [s]) <+: q → n.at? q = some b → g'.follow i q = g.follow i q := by
  obtain ⟨z, C, A, hctx, hlead, hA, hCA, rfl⟩ := hn.exists_context hat
  obtain ⟨o, hlead', hslot, hparent⟩ := leads_concat.mp hlead
  obtain rfl : o = k := Option.some.inj (hlead'.follow.symm.trans hk)
  rw [Finset.disjoint_union_right] at hdisj
  have hoC := hctx.follow_mem hk
  have hzC : z ∉ C := Finset.disjoint_right.mp hCA hA.root_mem
  have hxC : x ∉ C := Finset.disjoint_left.mp hdisj.1 hx.root_mem
  obtain ⟨g₁, D, hrun, hmakes, -⟩ := newBinary_spec (K := K) (R := R) op hA hx hdisj.2.symm
    (fun c hc => hRF c (Finset.mem_union_right C hc)) hRB hnew
  -- the cells around the part are neither adopted nor used
  have hS : ∀ c ∈ C, ¬(c = z ∨ c = x) := by
    rintro c hc (rfl | rfl)
    · exact hzC hc
    · exact hxC hc
  have hold : ∀ c ∈ C, ¬(c ∈ A ∨ c ∈ B) := by
    rintro c hc (hcA | hcB)
    · exact Finset.disjoint_left.mp hCA hc hcA
    · exact Finset.disjoint_left.mp hdisj.1 hcB hc
  obtain ⟨hholds, -, hedits, hparent, -, hbeside⟩ := hmakes.place hg hn hat hctx hlead' hslot hzC
    hS hold ⟨hRF o (Finset.mem_union_left A hoC), hRF z (Finset.mem_union_right C hA.root_mem),
      hnew _ (Nat.le_refl _)⟩
  refine ⟨_, C ∪ D, .silent (.locate ?_) (.silent hrun (.edit _)), ?_, ?_, hedits, hparent, hbeside⟩
  · simp [follow, hslot]
  · rw [Node.graft, Node.part_of_at? hat]
    exact hholds
  · intro c hc
    rcases Finset.mem_union.mp hc with hc | hc
    · exact .inl (Finset.mem_union_left A hc)
    · rcases hmakes.cells c hc with (hc | hc) | hle
      · exact .inl (Finset.mem_union_right C hc)
      · exact .inr (.inl hc)
      · exact .inr (.inr hle)

/-! ### Moves -/

/-- What becomes of an operand becomes of the tree if the operand takes its
place. -/
theorem Turns.of_part {y : Nat} {A : Finset Nat} (h : Turns K g y A g' j m E) (hi : i < g.cellCount)
    (hA : A ⊆ F) (hiA : i ∉ A) : Turns K g i F g' j m E := by
  have hiE : i ∉ E := by
    intro hmem
    rcases h.cells i hmem with hmem | hle
    · exact hiA hmem
    · exact Nat.not_le_of_lt hi hle
  refine ⟨h.holds, fun c hc => (h.cells c hc).imp_left (@hA c), h.edits.mono (fun _ _ hK => hK)
    fun c hc => hc.imp_left (@hA c), ?_, fun _ => hiE⟩
  rintro rfl
  exact absurd h.holds.root_mem hiE

/-- What is made beside the tree leaves it as it is. -/
theorem Turns.beside {S : Nat → Prop} {g'' : Graph α} (h : Turns K g i F g' j m E) (hkeeps : Keeps S g' g'')
    (hedits : Edits K (g.Region F) g' g'') (hS : ∀ c ∈ E, ¬S c) : Turns K g i F g'' j m E := by
  have hroot := h.holds.root_mem
  refine ⟨hkeeps.holds h.holds fun c hc hSc => absurd hSc (hS c hc), h.cells, h.edits.trans hedits, ?_,
    h.dropped⟩
  rintro rfl
  rw [hkeeps.parent j (h.holds.lt j hroot) (hS j hroot), h.parent rfl]

/-- A tree beside it is grafted onto the tree.  Nothing of it has been the old root. -/
theorem Turns.graft {s : Slot} {g' : Graph α} (op : BinaryOp) (h : Turns K g i F g' j m E)
    (hi : i < g.cellCount) (hg : Honest g) (hat : m.at? (p ++ [s]) = some a)
    (hk : g'.follow j p = some k) (hx : Holds g' x b B) (hdisj : Disjoint B E)
    (hB : ∀ c ∈ B, g.Region F c) (hiB : i ∉ B) :
    ∃ g'' E', (Editing.graft op k s x).Runs g' [] g'' () ∧
      Turns K g i F g'' j (m.graft op (p ++ [s]) b) E' ∧
      ∀ q c, ¬(p ++ [s]) <+: q → m.at? q = some c → g''.follow j q = g'.follow j q := by
  have hnew : ∀ c, g'.cellCount ≤ c → g.Region F c := fun c hc => .inr (h.edits.cellCount_le.trans hc)
  obtain ⟨g'', E', hrun, hholds, hcells, hedits, hparent, hbeside⟩ := graft_spec (K := K) (R := g.Region F)
    op (h.edits.honest hg) h.holds hat hk hx hdisj h.cells hB hnew
  refine ⟨g'', E', hrun, ⟨hholds, fun c hc => ?_, h.edits.trans hedits, ?_, fun hji hmem => ?_⟩, hbeside⟩
  · rcases hcells c hc with hc | hc | hle
    · exact h.cells c hc
    · exact hB c hc
    · exact hnew c hle
  · rintro rfl
    rw [hparent, h.parent rfl]
  · rcases hcells i hmem with hmem | hmem | hle
    · exact h.dropped hji hmem
    · exact hiB hmem
    · exact Nat.not_le_of_lt hi (h.edits.cellCount_le.trans hle)

variable [Arithmetic α] [Numeral α]

/-- A factor takes up a minus sign where it stands.  What is not below it keeps
its cell. -/
theorem takeSign_spec {f : Node α} {s : Slot} {change : SignChange α} (hg : Honest g)
    (hn : Holds g i n F) (hf : n.at? (s :: p) = some f) (hx : g.follow i (s :: p) = some x)
    (hfits : change.Fits f.expr) :
    ∃ g' E, (Editing.takeSign x change).Runs g [] g' () ∧
      Turns K g i F g' i (n.rebuildAt (s :: p) change.sketch) E ∧
      ∀ q b, ¬(s :: p) <+: q → n.at? q = some b → g'.follow i q = g.follow i q := by
  -- a factor that is no constant is replaced below its parent
  have hrest : (∀ v, change ≠ .flip v) → ∃ g' E, (Editing.takeSign x change).Runs g [] g' () ∧
      Turns K g i F g' i (n.rebuildAt (s :: p) change.sketch) E ∧
      ∀ q b, ¬(s :: p) <+: q → n.at? q = some b → g'.follow i q = g.follow i q := by
    intro hflip
    have hsketch : change.sketch.Fits f.expr := by
      cases change with
      | flip v => exact absurd rfl (hflip v)
      | unwrap =>
          obtain ⟨w, hw⟩ := hfits
          exact fits_part (b := w) (by rw [hw]; rfl)
      | wrap => exact ⟨by simp [SignChange.sketch, Sketch.parts],
          by simp [SignChange.sketch, Sketch.parts]⟩
    obtain ⟨q, u, hq⟩ := (List.eq_nil_or_concat (s :: p)).resolve_left (by simp)
    rw [List.concat_eq_append] at hq
    rw [hq] at hf hx ⊢
    obtain ⟨o, g₁, w, g₂, E, ho, -, hrun, -, hreplace, hrebuilt, -, hbeside⟩ :=
      rebuild_below (K := K) hg hn hf hx hsketch
    refine ⟨g₂, E, ?_, hrebuilt.toTurns, hbeside⟩
    cases change with
    | flip v => exact absurd rfl (hflip v)
    | unwrap => exact .silent (.parentOf ho) (.silent hrun hreplace)
    | wrap => exact .silent (.parentOf ho) (.silent hrun hreplace)
  cases change with
  | flip v =>
      obtain ⟨w, hw⟩ := hfits
      obtain ⟨t', rfl⟩ : ∃ t', f = .const t' w := by
        cases f <;> simp_all [Node.expr]
      obtain ⟨hturns, hfollow⟩ := setValue_spec (K := K) v hg hn hf hx
      exact ⟨_, F, .edit _, hturns, fun q _ _ _ => hfollow q⟩
  | unwrap => exact hrest (by simp)
  | wrap => exact hrest (by simp)

theorem pushSign_spec {t : Tag} {y f : Node α} {s : Slot} {change : SignChange α} (hg : Honest g)
    (hn : Holds g i (.unary t .neg y) F) (hf : y.at? (s :: p) = some f) (hfits : change.Fits f.expr) :
    ∃ g' j E, (Editing.perform i (.pushSign (.operand :: s :: p) change)).Runs g [] g' j ∧
      Turns K g i F g' j (y.rebuildAt (s :: p) change.sketch) E := by
  cases hn with | @unary _ z _ _ A hc hz hiA hA =>
  obtain ⟨x, -, hx, -⟩ := hA.follow_of_at? hf
  have hproduct : g.follow i [.operand] = some z := by simp [follow, slot?, hc]
  have hfactor : g.follow i (.operand :: s :: p) = some x := by simpa [follow, slot?, hc] using hx
  obtain ⟨g', E, hrun, hturns, -⟩ := takeSign_spec (K := K) hg hA hf hx hfits
  -- the product and its factor are found first, whatever is done to the factor
  exact ⟨g', z, E, .silent (.locate hproduct) (.silent (.locate hfactor) (.silent hrun .pure)),
    hturns.of_part (lt_of_content? hc) (Finset.subset_insert i A) hiA⟩

theorem collapse_spec {kind : ChainKind} {kept removed : Path} {v w : α} (hg : Honest g)
    (hn : Holds g i n F) (hkept : n.expr.at? kept = some (.const w))
    (hrem : Removable kind n.expr kept removed) :
    ∃ g' j E, (Editing.perform i (.collapse kind kept v removed)).Runs g [] g' j ∧
      Turns K g i F g' j (n.perform (.collapse kind kept v removed)) E := by
  obtain ⟨c, hc, hce⟩ := Node.exists_at?_of_expr hkept
  obtain ⟨t, rfl⟩ : ∃ t, c = .const t w := by
    cases c <;> simp_all [Node.expr]
  have hremoved := hrem.isSome
  rw [Node.isSome_at?_expr] at hremoved
  obtain ⟨u, hu⟩ := Option.isSome_iff_exists.mp hremoved
  obtain ⟨k, -, hk, -⟩ := hn.follow_of_at? hc
  obtain ⟨x, -, hx, -⟩ := hn.follow_of_at? hu
  obtain ⟨sp, hsp⟩ := hrem.exists_splice (Option.isSome_of_eq_some hkept)
  obtain ⟨hturns, hfollow⟩ := setValue_spec (K := K) v hg hn hc hk
  -- the chain is the same but for the value
  have hu' : (n.put kept (Node.newConst v)).at? removed = some u := by
    rw [Node.at?_put_of_apart _ _ hrem.apart.symm, hu]
  have hc' : (n.put kept (Node.newConst v)).at? kept = some (Node.newConst v) := Node.at?_put_self hc _
  have hsp' : (n.put kept (Node.newConst v)).expr.splice? kind removed = some sp := by
    rw [Node.expr_put, Expr.splice?_put hrem.apart.symm, hsp]
  have hrem' : Removable kind (n.put kept (Node.newConst v)).expr kept removed := by
    refine ⟨?_, ?_, hrem.apart⟩
    · rw [Node.expr_put]
      exact Expr.chainPath_put hrem.chain hrem.apart.symm
    · rw [Node.isSome_at?_expr, hu']
      rfl
  have hx' := (hfollow removed).trans hx
  obtain ⟨x', D, hx'', hD, -⟩ := hturns.holds.follow_of_at? hu'
  obtain rfl : x = x' := Option.some.inj (hx'.symm.trans hx'')
  obtain ⟨g', j, E, hrun, hspliced, -⟩ := splice_spec (K := K) (hturns.edits.honest hg) hturns.holds
    hrem' hsp' hu' hx' hD
  refine ⟨g', j, E, .silent (.locate hk) (.silent (.locate hx) (.silent (.edit _) hrun)), ?_⟩
  rw [Node.perform, hsp]
  exact hturns.trans (hn.lt i hn.root_mem) hspliced

/-- A logarithm joins another one.  The parts that stay have the cells that they
had. -/
theorem joinLogarithms_spec (op : BinaryOp) {kept removed : Path} {slot s : Slot}
    {e t b : Expr α} (hg : Honest g) (hn : Holds g i n F)
    (hkept : n.expr.at? (kept ++ [slot]) = some e) (hrem : Removable .additive n.expr kept removed)
    (ht : n.expr.at? removed = some t) (hb : t.operand? s = some b) :
    ∃ g' j E, (Editing.perform i (.joinLogarithms op kept slot (removed ++ [s]) removed)).Runs
        g [] g' j ∧
      Turns K g i F g' j (n.perform (.joinLogarithms op kept slot (removed ++ [s]) removed)) E ∧
      ∀ sp, n.expr.splice? .additive removed = some sp → ∀ q b, Apart removed q →
        Apart kept q ∨ q = kept → n.at? q = some b → g'.follow j (sp.shift q) = g.follow i q := by
  obtain ⟨c, hc, -⟩ := Node.exists_at?_of_expr hkept
  obtain ⟨u, hu, rfl⟩ := Node.exists_at?_of_expr ht
  rw [Node.expr_operand?] at hb
  obtain ⟨d, hd, rfl⟩ := Option.map_eq_some_iff.mp hb
  have hkeptAt := hc
  rw [Node.at?_append] at hkeptAt
  obtain ⟨r, hr, -⟩ := Option.bind_eq_some_iff.mp hkeptAt
  obtain ⟨k, -, hk, -⟩ := hn.follow_of_at? hr
  obtain ⟨x, D, hx, hD, hDF⟩ := hn.follow_of_at? hu
  obtain ⟨y, B, hy, hB, hBD, -⟩ := hD.slot?_of_operand? hd
  have hyi : g.follow i (removed ++ [s]) = some y := by
    rw [follow_append, hx, Option.bind_some]
    simp [follow, hy]
  have hkeptSome : (n.expr.at? kept).isSome := by
    rw [Node.isSome_at?_expr, hr]
    rfl
  obtain ⟨sp, hsp⟩ := hrem.exists_splice hkeptSome
  obtain ⟨g₁, j, E, hrun, hturns, hshift, hD₁, hDE, hcontent⟩ :=
    splice_spec (K := K) hg hn hrem hsp hu hx hD
  have hk₁ := (hshift kept r hrem.apart hr).trans hk
  -- the argument still hangs below the term that has gone
  obtain ⟨y', B', hy', hB', hBD', -⟩ := hD₁.slot?_of_operand? hd
  rw [slot?, hcontent x hD.root_mem] at hy'
  obtain rfl : y = y' := Option.some.inj (hy.symm.trans hy')
  obtain ⟨q₀, l, rfl⟩ := List.exists_cons_of_ne_nil hrem.apart.ne_nil
  obtain ⟨g₂, E₂, hgraft, hgrafted, hbeside⟩ := hturns.graft op (hn.lt i hn.root_mem) hg
    (Node.at?_splice_kept hrem hsp hc) hk₁ hB' (Finset.disjoint_of_subset_left hBD' hDE)
    (fun c hc => .inl (hDF (hBD' hc))) fun hmem => hn.not_mem_part hu hx hD (hBD' hmem)
  refine ⟨g₂, j, E₂, .silent (.locate hk) (.silent (.locate hyi) (.silent (.locate hx)
    (.silent hrun (.silent hgraft .pure)))), ?_, ?_⟩
  · rw [Node.perform, hsp, Node.part_of_at? (a := d)]
    · exact hgrafted
    · rw [Node.at?_append, hu, Option.bind_some, Node.at?_cons, hd]
      rfl
  · intro sp' hsp' q a hrq hkq ha
    obtain rfl : sp = sp' := Option.some.inj (hsp.symm.trans hsp')
    have hsplices := Expr.splices_of_splice? hsp hrem.isSome
    have hremoved := Option.isSome_of_eq_some hu
    have hq := Option.isSome_of_eq_some ha
    have hat := Node.at?_splice_shift hsplices hremoved hq hrq
    rw [← hshift q a hrq ha]
    refine hbeside (sp.shift q) a ?_ (hat.trans ha)
    exact hsplices.not_prefix_shift hrem.isSome hkeptSome (Node.isSome_at?_expr n q ▸ hq) hrem.apart
      hrq hkq

/-- A root is turned into a power where it stands, if there is one. -/
theorem normalized_run {kept removed : Path} {fromRoot : Bool} {l r : Expr α} (hg : Honest g)
    (hn : Holds g i n F)
    (hkept : n.expr.at? kept = some (.binary (if fromRoot then .root else .pow) l r))
    (hrem : Removable .multiplicative n.expr kept removed) (hk : g.follow i kept = some k) :
    ∃ g' k' E, (Editing.normalized fromRoot k).Runs g [] g' k' ∧
      Turns K g i F g' i (n.normalized fromRoot kept) E ∧ g'.follow i kept = some k' ∧
      ∀ q b, Apart kept q ∨ q = kept ∧ fromRoot = false → n.at? q = some b →
        g'.follow i q = g.follow i q := by
  cases fromRoot with
  | false => exact ⟨g, k, F, .pure, .refl hn, hk, fun _ _ _ _ => rfl⟩
  | true =>
      obtain ⟨c, hc, hce⟩ := Node.exists_at?_of_expr hkept
      have hfits : Expr.rootAsPower.Fits c.expr := by
        rw [hce]
        refine ⟨by simp [Expr.rootAsPower, Sketch.parts, Expr.at?_cons, Expr.operand?], ?_⟩
        simpa [Expr.rootAsPower, Sketch.parts] using (Expr.apart_operands [] []).symm
      obtain ⟨q, s, rfl⟩ :=
        (List.eq_nil_or_concat kept).resolve_left hrem.apart.symm.ne_nil
      rw [List.concat_eq_append] at hc hk hrem ⊢
      obtain ⟨o, g₁, y, g₂, E, -, -, hrun, hparent, hreplace, hrebuilt, hy, -⟩ :=
        rebuild_below (K := K) hg hn hc hk hfits
      have ho := hparent (by simp [Expr.rootAsPower, Sketch.parts])
      exact ⟨g₂, y, E, .silent hrun (.silent (.parentOf ho) (.silent hreplace .pure)),
        hrebuilt.toTurns, hy, fun r b hr hb => hrebuilt.outside r b (hr.resolve_right (by simp)) hb⟩

/-- A factor joins a power.  The parts that stay have the cells that they had, but
for a root that becomes a power. -/
theorem joinPowers_spec (op : BinaryOp) {kept removed : Path} {fromRoot : Bool}
    {exponent : Sketch α} {l r t : Expr α} (hg : Honest g) (hn : Holds g i n F)
    (hkept : n.expr.at? kept = some (.binary (if fromRoot then .root else .pow) l r))
    (hrem : Removable .multiplicative n.expr kept removed) (ht : n.expr.at? removed = some t)
    (hfits : exponent.Fits t) :
    ∃ g' j E, (Editing.perform i (.joinPowers op kept fromRoot exponent removed)).Runs g [] g' j ∧
      Turns K g i F g' j (n.perform (.joinPowers op kept fromRoot exponent removed)) E ∧
      ∀ sp, n.expr.splice? .multiplicative removed = some sp → ∀ q b, Apart removed q →
        Apart kept q ∨ q = kept ∧ fromRoot = false → n.at? q = some b →
        g'.follow j (sp.shift q) = g.follow i q := by
  have hi := hn.lt i hn.root_mem
  obtain ⟨c, hc, -⟩ := Node.exists_at?_of_expr hkept
  obtain ⟨u, hu, rfl⟩ := Node.exists_at?_of_expr ht
  obtain ⟨k, -, hk, -⟩ := hn.follow_of_at? hc
  obtain ⟨x, D₀, hx, hD₀, hD₀F⟩ := hn.follow_of_at? hu
  obtain ⟨sp, hsp⟩ := hrem.exists_splice (Option.isSome_of_eq_some hkept)
  -- the root becomes a power, and the factor is where it was
  obtain ⟨⟨z, hz⟩, hu₁, hsp₁, hrem₁⟩ := Node.normalized_spec hkept hrem
  rw [hu] at hu₁
  rw [hsp] at hsp₁
  obtain ⟨g₁, k₁, E₁, hrun₁, hturns₁, hk₁, hbeside₁⟩ := normalized_run (K := K) hg hn hkept hrem hk
  have hx₁ := (hbeside₁ removed u (.inl hrem.apart.symm) hu).trans hx
  have hkeptAt := hz
  rw [Node.at?_append] at hkeptAt
  obtain ⟨b, hb, -⟩ := Option.bind_eq_some_iff.mp hkeptAt
  obtain ⟨x', D, hx', hD, hDE₁⟩ := hturns₁.holds.follow_of_at? hu₁
  obtain rfl : x = x' := Option.some.inj (hx₁.symm.trans hx')
  -- the factor is taken out
  obtain ⟨g₂, j, E₂, hrun₂, hturns₂, hshift₂, hD₂, hDE₂, -⟩ :=
    splice_spec (K := K) (hturns₁.edits.honest hg) hturns₁.holds hrem₁ hsp₁ hu₁ hx₁ hD
  have hk₂ := (hshift₂ kept b hrem.apart hb).trans hk₁
  have hturns := hturns₁.trans hi hturns₂
  have hregion : ∀ c ∈ D, g.Region F c := fun c hc => hturns₁.cells c (hDE₁ hc)
  have hnew : ∀ c, g₂.cellCount ≤ c → g.Region F c := fun c hc =>
    .inr (hturns.edits.cellCount_le.trans hc)
  -- the exponent is made of the factor
  obtain ⟨g₃, y, B, hrun₃, hmade⟩ := sketch_of_fits (K := K) (R := g.Region F) hD₂ hfits hregion hnew
  have hturns₃ := hturns.beside hmade.keeps hmade.edits fun c hc hcD =>
    Finset.disjoint_left.mp hDE₂ hcD hc
  have hiB : i ∉ B := by
    intro hmem
    rcases hmade.cells i hmem with hmem | hle
    · obtain ⟨q, s, rfl⟩ := List.exists_cons_of_ne_nil hrem.apart.ne_nil
      exact hturns₁.holds.not_mem_part hu₁ hx₁ hD hmem
    · exact Nat.not_le_of_lt hi (hturns.edits.cellCount_le.trans hle)
  -- and grafted onto the power
  obtain ⟨g₄, E₄, hgraft, hgrafted, hbeside⟩ := hturns₃.graft op hi hg (Node.at?_splice_kept hrem₁ hsp₁ hz)
    (hmade.keeps.follow hk₂) hmade.holds (hmade.disjoint hturns₂.holds.lt hDE₂.symm).symm
    (fun c hc => (hmade.cells c hc).elim (hregion c) (hnew c)) hiB
  refine ⟨g₄, j, E₄, .silent (.locate hk) (.silent (.locate hx) (.silent hrun₁ (.silent hrun₂
    (.silent hrun₃ (.silent hgraft .pure))))), ?_, ?_⟩
  · rw [Node.perform, hsp, Node.part_of_at? hu]
    exact hgrafted
  · intro sp' hsp' q a hrq hkq ha
    obtain rfl : sp = sp' := Option.some.inj (hsp.symm.trans hsp')
    have hsplices := Expr.splices_of_splice? hsp₁ hrem₁.isSome
    have hremoved := Option.isSome_of_eq_some hu₁
    have ha₁ := (Node.at?_normalized hkq).trans ha
    have hq := Option.isSome_of_eq_some ha₁
    have hat := (Node.at?_splice_shift hsplices hremoved hq hrq).trans ha₁
    rw [← hbeside₁ q a hkq ha, ← hshift₂ q a hrq ha₁]
    have hfollow : g₂.follow j (sp.shift q) = g₃.follow j (sp.shift q) := by
      obtain ⟨c, -, hc, -⟩ := hturns₂.holds.follow_of_at? hat
      rw [hc, hmade.keeps.follow hc]
    rw [hfollow]
    refine hbeside (sp.shift q) a ?_ hat
    have hkeptSome := Option.isSome_of_eq_some hb
    exact hsplices.not_prefix_shift hrem₁.isSome (Node.isSome_at?_expr _ kept ▸ hkeptSome)
      (Node.isSome_at?_expr _ q ▸ hq) hrem.apart hrq (hkq.imp_right And.left)

/-- A move that fits the tree below a cell can be carried out, and turns it into
what the move makes of it. -/
theorem perform_spec {m : Move α} (hg : Honest g) (hn : Holds g i n F) (hm : m.Fits n.expr) :
    ∃ g' j E, (Editing.perform i m).Runs g [] g' j ∧ Turns K g i F g' j (n.perform m) E := by
  generalize he : n.expr = e at hm
  cases hm with
  | @rebuild sk hsk =>
      subst he
      obtain ⟨g', j, E, hrun, hrebuilt⟩ := rebuild_whole (K := K) hn hsk.toFits hsk.proper
      refine ⟨g', j, E, hrun, ?_⟩
      simpa [Node.rebuildAt, Node.part, Node.perform] using hrebuilt.toTurns
  | @pushSign x f s p change hx hf hfits =>
      obtain ⟨t, y, rfl, rfl⟩ : ∃ t y, n = .unary t .neg y ∧ y.expr = x := by
        subst hx
        cases n <;> simp_all [Node.expr]
      obtain ⟨f', hf', rfl⟩ := Node.exists_at?_of_expr hf
      obtain ⟨g', j, E, hrun, hturns⟩ := pushSign_spec (K := K) hg hn hf' hfits
      refine ⟨g', j, E, hrun, ?_⟩
      have hpart : (Node.unary t .neg y).part (.operand :: s :: p) = f' := by
        exact Node.part_of_at? hf'
      have hperform : (Node.unary t .neg y).perform (.pushSign (.operand :: s :: p) change)
          = y.rebuildAt (s :: p) change.sketch := by
        rw [Node.perform, Node.rebuildAt, hpart, Node.rebuildAt, Node.part_of_at? hf']
        rfl
      rw [hperform]
      exact hturns
  | collapse hkept hrem =>
      subst he
      exact collapse_spec hg hn hkept hrem
  | joinLogarithms _ hkept hrem ht hb _ =>
      subst he
      obtain ⟨g', j, E, hrun, hturns, -⟩ := joinLogarithms_spec (K := K) _ hg hn hkept hrem ht hb
      exact ⟨g', j, E, hrun, hturns⟩
  | joinPowers _ hkept hrem _ ht hfits _ =>
      subst he
      obtain ⟨g', j, E, hrun, hturns, -⟩ := joinPowers_spec (K := K) _ hg hn hkept hrem ht hfits
      exact ⟨g', j, E, hrun, hturns⟩

end Graph

end Formula
