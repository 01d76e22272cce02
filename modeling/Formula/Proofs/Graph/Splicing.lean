/-
Formula/Proofs/Graph/Splicing.lean

Taking a term out of a chain in a graph.  The way goes up from the cell of the
term to the first operator that can answer; on trees the same operator is found
on the way down (`splice?`).  There a part is rebuilt, so the tree becomes the
spliced tree, the parts that stay are found where `shift` says, and the term
stands beside the new tree.
-/
import Formula.Proofs.Graph.Placing
import Formula.Proofs.Simplify.Performing

namespace Formula

open Path (Apart)

/-! ### The operator above a part -/

section

variable {α : Type} {kind : ChainKind} {e : Expr α} {s : Slot} {p : Path}

/-- The way of a chain goes through the parts above. -/
theorem ChainPath.of_append {q : Path} (h : ChainPath kind e (p ++ q)) {o : Expr α}
    (ho : e.at? p = some o) : ChainPath kind e p ∧ ChainPath kind o q := by
  induction p generalizing e with
  | nil =>
      obtain rfl := Option.some.inj ho
      exact ⟨.here, h⟩
  | cons t p ih =>
      cases h with
      | operand h =>
          obtain ⟨hpath, hrest⟩ := ih h ho
          exact ⟨.operand hpath, hrest⟩
      | left hop h =>
          obtain ⟨hpath, hrest⟩ := ih h ho
          exact ⟨.left hop hpath, hrest⟩
      | right hop h =>
          obtain ⟨hpath, hrest⟩ := ih h ho
          exact ⟨.right hop hpath, hrest⟩

/-- What is right above a part on the way of a chain. -/
theorem ChainPath.concat (h : ChainPath kind e (p ++ [s])) {o : Expr α} (ho : e.at? p = some o) :
    ChainPath kind e p ∧ ((s = .operand ∧ ∃ x, o = .unary .neg x) ∨
      (s = .left ∨ s = .right) ∧ ∃ op l r, o = .binary op l r ∧ (kind.flips? op).isSome) := by
  obtain ⟨hpath, hlast⟩ := h.of_append ho
  refine ⟨hpath, ?_⟩
  cases hlast with
  | operand => exact .inl ⟨rfl, _, rfl⟩
  | left hop => exact .inr ⟨.inl rfl, _, _, _, rfl, hop⟩
  | right hop => exact .inr ⟨.inr rfl, _, _, _, rfl, hop⟩

/-- What a splice puts back are proper parts of what was at the place. -/
theorem Splices.fits {sp : Splice α} (h : Splices e p sp) {o : Expr α} (ho : e.at? sp.place = some o) :
    sp.sketch.Fits o ∧ ∀ q ∈ sp.sketch.parts, q ≠ [] := by
  cases h with
  | promote k hat hs =>
      obtain rfl := Option.some.inj (ho.symm.trans hat)
      refine ⟨⟨?_, by simp [Splice.sketch, Sketch.parts]⟩, by simp [Splice.sketch, Sketch.parts]⟩
      rcases hs with ⟨-, rfl⟩ | ⟨-, rfl⟩ <;>
        simp [Splice.sketch, Sketch.parts, Expr.at?_cons, Expr.operand?]
  | negate k hat =>
      obtain rfl := Option.some.inj (ho.symm.trans hat)
      exact ⟨⟨by simp [Splice.sketch, Sketch.parts, Expr.at?_cons, Expr.operand?],
        by simp [Splice.sketch, Sketch.parts]⟩, by simp [Splice.sketch, Sketch.parts]⟩
  | fill k _ => exact ⟨Sketch.fits_const _ _, by simp [Splice.sketch, Sketch.parts]⟩

end

namespace Graph

variable {α : Type} [Arithmetic α] [Numeral α] {K : Graph α → Nat → Prop} {g : Graph α} {i x : Nat}
  {n a : Node α} {F : Finset Nat} {sk : Sketch α} {p : Path}

/-- A part of a tree is rebuilt below the root. -/
theorem rebuildAt_spec (hg : Honest g) (hn : Holds g i n F) (hat : n.at? p = some a)
    (hx : g.follow i p = some x) (hfits : sk.Fits a.expr) (hproper : ∀ q ∈ sk.parts, q ≠ []) :
    ∃ g' j E, (Editing.rebuildAt i x sk).Runs g [] g' j ∧ Rebuilt K g i n F p sk g' j E := by
  rcases List.eq_nil_or_concat p with rfl | ⟨q, s, rfl⟩
  · obtain rfl := Option.some.inj hat
    obtain rfl := Option.some.inj hx
    obtain ⟨g', y, E, hrun, hrebuilt⟩ := rebuild_whole (K := K) hn hfits hproper
    refine ⟨g', y, E, hrun.silent ?_, hrebuilt⟩
    simp [Editing.Runs, Editing.replaceNode, Editing.attempt, Graph.replaceNode]
  · rw [List.concat_eq_append] at hat hx ⊢
    obtain ⟨o, g₁, y, g₂, E, -, hxi, hrun, hparent, hreplace, hrebuilt, -⟩ :=
      rebuild_below (K := K) hg hn hat hx hfits
    refine ⟨g₂, i, E, hrun.silent ?_, hrebuilt⟩
    have ho := hparent fun hnil => hproper [] hnil rfl
    have hok : g₁.replaceChild o (some x) (some y) = .ok g₂ := by
      simp only [Editing.Runs, Editing.replaceChild, Editing.attempt] at hreplace
      cases h : g₁.replaceChild o (some x) (some y) with
      | error => simp [h] at hreplace
      | ok g => simpa [h] using hreplace
    simp [Editing.Runs, Editing.replaceNode, Editing.attempt, Graph.replaceNode, hxi, ho, hok]

/-! ### The way up -/

omit [Arithmetic α] [Numeral α] in
/-- The owner of a part. -/
theorem Holds.exists_owner (hn : Holds g i n F) {s : Slot} (hat : n.at? (p ++ [s]) = some a)
    (hx : g.follow i (p ++ [s]) = some x) :
    ∃ o b E, n.at? p = some b ∧ g.follow i p = some o ∧ Holds g o b E ∧ g.parent? x = some o ∧
      g.slot? o s = some x ∧ b.operand? s = some a := by
  obtain ⟨k, C, A, hctx, hlead, -⟩ := hn.exists_context hat
  obtain rfl : k = x := Option.some.inj (hlead.follow.symm.trans hx)
  obtain ⟨o, hlead', hslot, hparent⟩ := leads_concat.mp hlead
  rw [Node.at?_append] at hat
  obtain ⟨b, hb, hab⟩ := Option.bind_eq_some_iff.mp hat
  obtain ⟨c, hc, hab⟩ := Option.bind_eq_some_iff.mp hab
  obtain rfl := Option.some.inj hab
  obtain ⟨o', E, ho', hE, -⟩ := hn.follow_of_at? hb
  obtain rfl : o = o' := Option.some.inj (hlead'.follow.symm.trans ho')
  exact ⟨o, b, E, hb, ho', hE, hparent, hslot, hc⟩

omit [Arithmetic α] [Numeral α] in
theorem fits_part {e b : Expr α} {s : Slot} (h : e.operand? s = some b) :
    (Sketch.part [s] : Sketch α).Fits e where
  isSome := by simp [Sketch.parts, Expr.at?_cons, h]
  apart := by simp [Sketch.parts]

/-- An operator above a term that answers on trees answers in a graph, and has the same
part rebuilt. -/
theorem runs_spliceWithin_here {kind : ChainKind} {sp : Splice α} {s : Slot} {o : Nat} {b : Node α}
    {E : Finset Nat} (fuel : Nat) (hE : Holds g o b E) (hchain : ChainPath kind b.expr [s])
    (hparent : g.parent? x = some o) (hslot : g.slot? o s = some x)
    (hsp : b.expr.spliceHere? kind s = some sp) :
    ∃ y, g.follow o sp.place = some y ∧ ∀ g' j, (Editing.rebuildAt i y sp.sketch).Runs g [] g' j →
      (Editing.spliceWithin kind i (fuel + 1) x).Runs g [] g' j := by
  rw [Editing.spliceWithin]
  cases hE with
  | const | var => cases hchain
  | unary hc =>
      cases hchain with | operand =>
      cases kind <;> cases hsp
      refine ⟨o, rfl, fun g' j hrun => .silent (.parentOf hparent) (.silent .get ?_)⟩
      simpa only [hc, Splice.sketch] using hrun
  | @binary _ c d op _ _ A B hc _ _ _ _ hAB hA hB =>
      have hcd : c ≠ d := by
        rintro rfl
        exact Finset.disjoint_left.mp hAB hA.root_mem hB.root_mem
      cases hchain with
      | left hop =>
          obtain rfl : c = x := by simpa [slot?, hc] using hslot
          have hops : (op = .add ∨ op = .mul) ∨ op = .sub ∨ op = .div := by
            cases kind <;> cases op <;> simp_all [ChainKind.flips?]
          rcases hops with hkeep | rfl | rfl
          · obtain rfl : sp = .promote [] .right := by
              rcases hkeep with rfl | rfl <;> cases hsp <;> rfl
            refine ⟨o, rfl, fun g' j hrun => .silent (.parentOf hparent) (.silent .get ?_)⟩
            simpa only [hc, if_pos hkeep, if_true, Splice.sketch] using hrun
          · cases hsp
            refine ⟨o, rfl, fun g' j hrun => .silent (.parentOf hparent) (.silent .get ?_)⟩
            simpa [hc, hcd.symm, Splice.sketch] using hrun
          · cases hsp
            -- in a quotient the numerator itself is rebuilt
            refine ⟨c, by simp [follow, Splice.place, hslot], fun g' j hrun =>
              .silent (.parentOf hparent) (.silent .get ?_)⟩
            simpa [hc, hcd.symm, Splice.sketch] using hrun
      | right =>
          obtain rfl : d = x := by simpa [slot?, hc] using hslot
          cases hsp
          refine ⟨o, rfl, fun g' j hrun => .silent (.parentOf hparent) (.silent .get ?_)⟩
          simpa only [hc, if_neg hcd, if_true, ite_self, Splice.sketch] using hrun

/-- An operator without an answer is a negation that goes with the term. -/
theorem runs_spliceWithin_above {kind : ChainKind} {s : Slot} {o : Nat} {b : Node α} {E : Finset Nat}
    {fuel : Nat} (hE : Holds g o b E) (hchain : ChainPath kind b.expr [s])
    (hparent : g.parent? x = some o) (hnone : b.expr.spliceHere? kind s = none) {g' : Graph α} {j : Nat}
    (hrun : (Editing.spliceWithin kind i fuel o).Runs g [] g' j) :
    (Editing.spliceWithin kind i (fuel + 1) x).Runs g [] g' j := by
  cases hE with
  | const | var => cases hchain
  | unary hc =>
      cases hchain with | operand =>
      cases kind <;> cases hnone
      rw [Editing.spliceWithin]
      refine .silent (.parentOf hparent) (.silent .get ?_)
      simpa only [hc] using hrun
  | binary =>
      cases hchain with
      | left | right => exact absurd (Expr.eq_operand_of_spliceHere? hnone rfl) (by decide)

theorem spliceWithin_spec {kind : ChainKind} {sp : Splice α} (fuel : Nat) (hg : Honest g)
    (hn : Holds g i n F) (hpath : ChainPath kind n.expr p) (hat : n.at? p = some a)
    (hx : g.follow i p = some x) (hsp : n.expr.splice? kind p = some sp) (hfuel : p.length ≤ fuel) :
    ∃ g' j E, (Editing.spliceWithin kind i fuel x).Runs g [] g' j ∧
      Rebuilt K g i n F sp.place sp.sketch g' j E := by
  induction fuel generalizing p a x with
  | zero =>
      obtain rfl := List.eq_nil_of_length_eq_zero (Nat.le_zero.mp hfuel)
      cases hsp
  | succ fuel ih =>
      rcases List.eq_nil_or_concat p with rfl | ⟨q, s, rfl⟩
      · cases hsp
      rw [List.concat_eq_append] at hpath hat hx hsp hfuel
      have hsplices := Expr.splices_of_splice? hsp (by rw [Node.isSome_at?_expr, hat]; rfl)
      obtain ⟨o, b, E, hb, ho, hE, hparent, hslot, hop⟩ := hn.exists_owner hat hx
      have hbe : n.expr.at? q = some b.expr := by rw [Node.expr_at?, hb, Option.map_some]
      obtain ⟨hpath', hchain⟩ := hpath.of_append hbe
      rw [Expr.splice?_concat hbe (by rw [Node.expr_operand?, hop]; rfl)] at hsp
      cases hhere : b.expr.spliceHere? kind s with
      | none =>
          rw [hhere, Option.map_none, Option.none_or] at hsp
          obtain ⟨g', j, E', hrun, hrebuilt⟩ := ih hpath' hb ho hsp (by simpa using hfuel)
          exact ⟨g', j, E', runs_spliceWithin_above hE hchain hparent hhere hrun, hrebuilt⟩
      | some here =>
          obtain rfl : here.below q = sp := by simpa [hhere] using hsp
          obtain ⟨y, hy, hturn⟩ := runs_spliceWithin_here (i := i) fuel hE hchain hparent hslot hhere
          obtain ⟨c, hc⟩ := Option.isSome_iff_exists.mp hsplices.isSome_place
          obtain ⟨d, hd, rfl⟩ := Node.exists_at?_of_expr hc
          obtain ⟨hfits, hproper⟩ := hsplices.fits hc
          have hsketch : (here.below q).sketch = here.sketch := by cases here <;> rfl
          have hplace : g.follow i (here.below q).place = some y := by
            rw [Splice.place_below, follow_append, ho]
            exact hy
          obtain ⟨g', j, E', hrun, hrebuilt⟩ := rebuildAt_spec (K := K) hg hn hd hplace hfits hproper
          exact ⟨g', j, E', hturn g' j (hsketch ▸ hrun), hrebuilt⟩

/-- A term is taken out of a chain.  What stays is found where it has been
shifted to, and the term stands beside the new tree. -/
theorem splice_spec {kind : ChainKind} {kept removed : Path} {t : Node α} {D : Finset Nat}
    {sp : Splice α} (hg : Honest g) (hn : Holds g i n F) (hrem : Removable kind n.expr kept removed)
    (hsp : n.expr.splice? kind removed = some sp) (ht : n.at? removed = some t)
    (hx : g.follow i removed = some x) (hD : Holds g x t D) :
    ∃ g' j E, (Editing.splice kind i x).Runs g [] g' j ∧ Turns K g i F g' j (n.splice sp) E ∧
      (∀ q b, Apart removed q → n.at? q = some b → g'.follow j (sp.shift q) = g.follow i q) ∧
      Holds g' x t D ∧ Disjoint D E ∧ ∀ c ∈ D, g'.content? c = g.content? c := by
  have hlength : removed.length ≤ g.cellCount :=
    (Nat.le_of_add_right_le (Expr.length_add_depth_le (by rw [Node.expr_at?, ht]; rfl))).trans
      (hn.depth_le.trans hn.card_le)
  obtain ⟨g', j, E, hrun, hrebuilt⟩ :=
    spliceWithin_spec (K := K) g.cellCount hg hn hrem.chain ht hx hsp hlength
  have hsplices := Expr.splices_of_splice? hsp hrem.isSome
  obtain ⟨q, hq, hapart⟩ := hsplices.exists_below
  refine ⟨g', j, E, .silent .get hrun, hrebuilt.toTurns, fun r b hrapart hb => ?_,
    hrebuilt.freed q t x D hapart (hq ▸ ht) (hq ▸ hx) hD⟩
  have hsome : (n.expr.at? r).isSome := by
    rw [Node.isSome_at?_expr, hb]
    rfl
  rcases hsplices.located hrem.isSome hsome hrapart with
    ⟨hbeside, hshift⟩ | ⟨c, c', u, hputs, rfl, hshift⟩
  · rw [hshift, hrebuilt.outside r b hbeside hb]
  · rw [hshift, hrebuilt.inside c c' u b hputs hb]

end Graph

end Formula
