/-
Formula/Proofs/Graph/Running.lean

A run of the optimizer in a graph does what a run on trees does.  `Mirrors φ f`
says so for runs `φ` on cells and `f` on trees: the run succeeds, reports the
same events, and turns the tree below the cell into the one that `f` gives.
Parts of runs inherit this from the runs that they call, one lemma for each
part, and so `optimizeWithin` inherits it from itself by induction on the bound
(`mirrors_optimizeWithin`).  The limit of passes does not matter for this
(`mirrors_optimizeCapped`).

All statements are relative to a property `J` of marked trees, which a run has
to keep, and to a set of events that are allowed to happen in it.

In the middle of a run the tag of a root says nothing: on trees an operator is
made anew when its operands have been optimized, in a graph it stays.
-/
import Formula.Proofs.Graph.Copying
import Formula.Proofs.Graph.Performing
import Formula.Proofs.Graph.WellFormed
import Formula.Proofs.Simplify.Alike
import Formula.Proofs.Simplify.Bound

namespace Formula

namespace Editing

variable {α : Type}

theorem Runs.report {g : Graph α} (e : Event α) : (Editing.report e).Runs g [e] g () := rfl

variable [Arithmetic α] [Numeral α]

/-- The optimizer with a given limit of passes. -/
def optimizeCapped (s : Settings α) (env : Environment α) (cap : Nat) : Nat → Run α
  | 0, _ => return none
  | fuel + 1, i => do
    let g ← get
    if g.isSettled i then return none
    else
      let (root, changed) ← passes s (optimizeCapped s env cap fuel) cap i
      finish env root changed

/-- With its own limit it is the optimizer. -/
theorem optimizeCapped_maxPasses (s : Settings α) (env : Environment α) (fuel : Nat) :
    optimizeCapped s env Node.maxPasses fuel = optimizeWithin s env fuel := by
  induction fuel with
  | zero => rfl
  | succ fuel ih =>
      funext i
      rw [optimizeCapped, optimizeWithin, ih]

end Editing

/-- The change as a truth value. -/
def Change.isChanged : Change → Bool
  | unchanged => false
  | changed => true

@[simp] theorem Change.isChanged_andThen (c d : Change) :
    (c.andThen d).isChanged = (c.isChanged || d.isChanged) := by
  cases c <;> rfl

namespace Graph

variable {α : Type} {J : Expr α → Prop} {clear : Event α → Prop}
  {φ : Editing.Run α} {f : Node.Run α} {s : Settings α} {env : Environment α} {g g' : Graph α}
  {K : Graph α → Nat → Prop} {i j k x w : Nat} {n m a : Node α} {A B C E F : Finset Nat} {slot : Slot}
  {p : Path}

/-- The run on cells does what the run on trees does, for trees up to a weight
and as long as all events are allowed. -/
def Mirrors (J : Expr α → Prop) (clear : Event α → Prop) (w : Nat) (φ : Editing.Run α)
    (f : Node.Run α) : Prop :=
  ∀ g i n F, Sound J g → Holds g i n F → n.expr.weight ≤ w → (∀ e ∈ (f n).trace, clear e) →
    ∃ g' res E, (φ i).Runs g (f n).trace g' res ∧
      Turns (Justified J) g i F g' (res.getD i) (f n).value.node E ∧
      res.isSome = (f n).value.change.isChanged

/-- The tag of the root is the mark of the cell. -/
theorem Turns.retag {t : Tag} (h : Turns K g i F g' j (n.withTag t) E) :
    Turns K g i F g' j (n.withTag (g'.tag j)) E := by
  have htag := h.holds.tag_eq
  rw [Node.tag_withTag] at htag
  rwa [← htag]

theorem Turns.retag_root (h : Turns K g i F g' j n E) :
    Turns K g i F g' j (n.withTag (g'.tag j)) E := by
  rwa [← h.holds.tag_eq, Node.withTag_tag]

/-! ### Operands -/

/-- Another tree fills the gap below a root. -/
theorem Context.fill_root (h : Context g i n [slot] k F) (hk : g.parent? k = some i)
    (hm : Holds g k m E) (hdisj : Disjoint F E) :
    Holds g i ((n.put [slot] m).withTag (g.tag i)) (F ∪ E) := by
  cases h with
  | operand hc hi hctx =>
      cases hctx
      rw [Finset.disjoint_insert_left] at hdisj
      rw [Finset.insert_union, Finset.empty_union]
      simpa [Node.put, Node.withTag] using Holds.unary hc hk hdisj.1 hm
  | left hc hr hiA hiB hAB hctx hb =>
      cases hctx
      rw [Finset.disjoint_insert_left, Finset.empty_union] at hdisj
      rw [Finset.insert_union, Finset.empty_union, Finset.union_comm]
      simpa [Node.put, Node.withTag] using
        Holds.binary hc hk hr (fun hi => hdisj.1 (by simpa using hi)) hiB hdisj.2.symm hm hb
  | right hc hl hiA hiB hAB ha hctx =>
      cases hctx
      rw [Finset.disjoint_insert_left, Finset.union_empty] at hdisj
      rw [Finset.insert_union, Finset.union_empty]
      simpa [Node.put, Node.withTag] using
        Holds.binary hc hl hk hiA (fun hi => hdisj.1 (by simpa using hi)) hdisj.2 ha hm

/-- Another tree takes the place of an operand of the root. -/
theorem Context.put_root (h : Context g i n [slot] k F) (hold : g.slot? i slot = some k)
    (hg : Honest g) (hk : k ∉ F) (hm : Holds g j m E) (hdisj : Disjoint F E) :
    Holds (g.setSlot i slot (some j)) i
      ((n.put [slot] m).withTag ((g.setSlot i slot (some j)).tag i)) (F ∪ E) := by
  have hg' := hg.setSlot i slot (some j)
  obtain ⟨h', hlead⟩ := h.setSlot_root hold hg' hk (Finset.disjoint_right.mp hdisj hm.root_mem)
    (hm.lt j hm.root_mem)
  obtain ⟨_, rfl, -, hlink⟩ := leads_concat (p := []).mp hlead
  have hi : i ∉ E := Finset.disjoint_left.mp hdisj h.root_mem
  exact h'.fill_root hlink (hm.setSlot hg' hi fun c _ heq => (Option.some.inj heq).symm) hdisj

/-- Beside the tree of a run, what is around a gap stands as it did. -/
theorem Context.beside {r : Nat} (h : Context g i n p k F) (hg : Honest g)
    (hb : Beside g r (g.Region A) g') (hr : r ∈ A) (hFA : Disjoint F A) (hF : ∀ c ∈ F, ¬g.Region A c) :
    Context g' i n p k F :=
  h.congr (fun c hc => hb.content c (hF c hc)) (fun c hc _ => hb.parent c (hF c hc))
    fun hB hm => hm.beside hg hb hr (Finset.disjoint_of_subset_left hB hFA)

/-- What is around an operand stays as it is when the operand turns into another tree. -/
theorem Turns.around (h : Turns K g k A g' j m E) (hg : Honest g) (hn : Holds g i n (C ∪ A))
    (hctx : Context g i n [slot] k C) (hA : Holds g k a A) (hCA : Disjoint C A) :
    Context g' i n [slot] k C ∧ Disjoint C E ∧ (∀ c ∈ C ∪ E, g.Region (C ∪ A) c) ∧
      Edits K (g.Region (C ∪ A)) g g' ∧ g'.parent? i = g.parent? i ∧
      ∀ t, g'.slot? i t = g.slot? i t := by
  have hbeside := h.edits.beside hA
  have hiC : i ∈ C := hctx.root_mem
  have hout : ∀ c ∈ C, ¬g.Region A c := by
    rintro c hc (hcA | hle)
    · exact Finset.disjoint_left.mp hCA hc hcA
    · exact Nat.not_le_of_lt (hn.lt c (Finset.mem_union_left A hc)) hle
  have hregion : ∀ c, g.Region A c → g.Region (C ∪ A) c := fun c hc =>
    hc.imp_left (Finset.mem_union_right C)
  refine ⟨hctx.beside hg hbeside hA.root_mem hCA hout, ?_, fun c hc => ?_,
    h.edits.mono (fun _ _ hK => hK) hregion, hbeside.parent i (hout i hiC), fun t => ?_⟩
  · rw [Finset.disjoint_left]
    exact fun c hcC hcE => hout c hcC (h.cells c hcE)
  · rcases Finset.mem_union.mp hc with hc | hc
    · exact .inl (Finset.mem_union_left A hc)
    · exact hregion c (h.cells c hc)
  · rw [slot?, slot?, hbeside.content i (hout i hiC)]

/-- An operand is optimized where it stands. -/
theorem optimizeSlot_spec (slot : Slot) (hφ : Mirrors J clear w φ f) (hg : Sound J g) (hn : Holds g i n F)
    (ha : n.operand? slot = some a) (hx : g.slot? i slot = some x) (hw : a.expr.weight ≤ w)
    (hclear : ∀ e ∈ (f a).trace, clear e) :
    ∃ g' E, (Editing.optimizeSlot φ i slot (some x)).Runs g (f a).trace g'
        (f a).value.change.isChanged ∧
      Turns (Justified J) g i F g' i ((n.put [slot] (f a).value.node).withTag (g'.tag i)) E ∧
      ∀ t, t ≠ slot → g'.slot? i t = g.slot? i t := by
  have hat : n.at? ([] ++ [slot]) = some a := by simp [Node.at?_cons, ha]
  obtain ⟨k, C, A, hctx, hlead, hA, hCA, rfl⟩ := hn.exists_context hat
  obtain ⟨o, rfl, hslot, hparent⟩ := leads_concat.mp hlead
  obtain rfl : k = x := Option.some.inj (hslot.symm.trans hx)
  have hiC : i ∈ C := hctx.root_mem
  have hkC : k ∉ C := Finset.disjoint_right.mp hCA hA.root_mem
  obtain ⟨g₁, res, E, hrun, hturns, hres⟩ := hφ g k a A hg hA hw hclear
  obtain ⟨hctx₁, hCE, hcells, hedits, hroot, hslots⟩ := hturns.around hg.honest hn hctx hA hCA
  by_cases hy : res.getD k = k
  case pos =>
    -- the operand is still where it was
    have hlink : g₁.parent? k = some i := by rw [hturns.parent hy, hparent]
    have hholds := hctx₁.fill_root hlink (hy ▸ hturns.holds) hCE
    refine ⟨g₁, C ∪ E, ?_, ⟨hholds, hcells, hedits, fun _ => hroot, fun hne => absurd rfl hne⟩,
      fun t _ => hslots t⟩
    rw [← hres]
    refine hrun.beforeSilent ?_
    cases res with
    | none => exact .pure
    | some y =>
        obtain rfl : y = k := hy
        simpa using .pure
  case neg =>
    cases res with
    | none => exact absurd rfl hy
    | some y =>
        replace hy : y ≠ k := hy
        have hold := (hslots slot).trans hslot
        have hyE : y ∈ E := hturns.holds.root_mem
        have hyC : y ∉ C := Finset.disjoint_right.mp hCE hyE
        have hholds := hctx₁.put_root hold (hg.edits hturns.edits).honest hkC hturns.holds hCE
        refine ⟨g₁.setSlot i slot (some y), C ∪ E, ?_,
          ⟨hholds, hcells, ?_, fun _ => ?_, fun hne => absurd rfl hne⟩, ?_⟩
        · rw [← hres]
          refine hrun.beforeSilent ?_
          simp only [ne_eq, hy, not_false_eq_true, if_true]
          exact .silent (.edit _) .pure
        · refine hedits.trans (.single (.setSlot (hcells i (Finset.mem_union_left E hiC)) ?_ ?_))
          · rintro z ⟨rfl⟩
            exact hcells y (Finset.mem_union_right C hyE)
          · intro z hz
            obtain rfl := Option.some.inj (hold.symm.trans hz)
            exact .inl (Finset.mem_union_right C hA.root_mem)
        · exact (parent?_setSlot_of_ne hold (by rintro rfl; exact hkC hiC)
            (by rintro rfl; exact hyC hiC)).trans hroot
        · exact fun t ht => (slot?_setSlot_of_ne fun h => ht h.2).trans (hslots t)

/-- All operands are optimized. -/
theorem optimizeOperands_spec (hφ : Mirrors J clear w φ f) (hg : Sound J g)
    (hn : Holds g i (n.withTag (g.tag i)) F) (hw : n.expr.weight ≤ w + 1)
    (hclear : ∀ e ∈ (Node.optimizeOperands f n).trace, clear e) :
    ∃ g' E, (Editing.optimizeSlots φ i (((g.content? i).map Content.slots).getD [])).Runs g
        (Node.optimizeOperands f n).trace g'
        (Node.optimizeOperands f n).value.change.isChanged ∧
      Turns (Justified J) g i F g' i
        ((Node.optimizeOperands f n).value.node.withTag (g'.tag i)) E := by
  cases n with
  | const t v =>
      have hslots : ((g.content? i).map Content.slots).getD [] = [] := by
        cases hn with | const hc => simp [hc, Content.slots]
      rw [hslots]
      exact ⟨g, F, .pure, .refl hn⟩
  | var t v =>
      have hslots : ((g.content? i).map Content.slots).getD [] = [] := by
        cases hn with | var hc => simp [hc, Content.slots]
      rw [hslots]
      exact ⟨g, F, .pure, .refl hn⟩
  | unary t op a =>
      obtain ⟨x, A, hx, hA, -⟩ := hn.slot?_of_operand? (s := .operand) (m := a) rfl
      have hslots : ((g.content? i).map Content.slots).getD [] = [(.operand, some x)] := by
        cases hn with | unary hc _ _ _ => simp_all [slot?, Content.slots]
      simp only [Node.expr, Expr.weight] at hw
      have hwa : a.expr.weight ≤ w := by split at hw <;> omega
      simp only [Node.optimizeOperands, Traced.trace_bind, Traced.trace_pure, List.append_nil] at hclear
      obtain ⟨g', E, hrun, hturns, -⟩ := optimizeSlot_spec .operand hφ hg hn rfl hx hwa hclear
      rw [hslots]
      refine ⟨g', E, ?_, by simpa [Node.withTag, Node.put, Node.optimizeOperands] using hturns⟩
      simp only [Node.optimizeOperands, Traced.trace_bind, Traced.trace_pure, Traced.value_bind,
        Traced.value_pure, List.append_nil]
      exact hrun.beforeSilent (.silent .pure (by simpa using .pure))
  | binary t op a b =>
      obtain ⟨x, A, hx, hA, -⟩ := hn.slot?_of_operand? (s := .left) (m := a) rfl
      obtain ⟨y, B, hy, hB, -⟩ := hn.slot?_of_operand? (s := .right) (m := b) rfl
      have hslots : ((g.content? i).map Content.slots).getD []
          = [(.left, some x), (.right, some y)] := by
        cases hn with | binary hc _ _ _ _ _ _ _ => simp_all [slot?, Content.slots]
      simp only [Node.expr, Expr.weight] at hw
      have hwab : a.expr.weight ≤ w ∧ b.expr.weight ≤ w := by split at hw <;> omega
      simp only [Node.optimizeOperands, Traced.trace_bind, Traced.trace_pure, List.append_nil,
        List.mem_append] at hclear
      obtain ⟨g₁, E₁, hrun₁, hturns₁, hkeep⟩ := optimizeSlot_spec .left hφ hg hn rfl hx
        hwab.1 fun e he => hclear e (.inl he)
      have hy₁ : g₁.slot? i .right = some y := by rw [hkeep .right (by decide), hy]
      obtain ⟨g₂, E₂, hrun₂, hturns₂, -⟩ := optimizeSlot_spec .right hφ (hg.edits hturns₁.edits)
        hturns₁.holds (a := b) rfl hy₁ hwab.2 fun e he => hclear e (.inr he)
      have hlast : (Editing.optimizeSlots φ i [(.right, some y)]).Runs g₁ (f b).trace g₂
          (f b).value.change.isChanged :=
        hrun₂.beforeSilent (.silent .pure (by simpa using .pure))
      have hturns := hturns₁.trans (hn.lt i hn.root_mem) hturns₂
      rw [hslots]
      refine ⟨g₂, E₂, ?_, by simpa [Node.withTag, Node.put, Node.optimizeOperands] using hturns⟩
      simp only [Node.optimizeOperands, Traced.trace_bind, Traced.trace_pure, Traced.value_bind,
        Traced.value_pure, List.append_nil]
      rw [Change.isChanged_andThen]
      exact hrun₁.bind (hlast.beforeSilent .pure)

/-! ### Whole trees -/

variable [Numeral α]

/-- A whole tree is optimized: the result has no parent, and it passes the
check. -/
theorem wholeTree_spec (hφ : Mirrors J clear w φ f) (hg : Sound J g) (hn : Holds g i n F)
    (hw : n.expr.weight ≤ w) (hclear : ∀ e ∈ (Node.wholeTree f n).trace, clear e) :
    ∃ g' j E, (Editing.wholeTree s φ i).Runs g (Node.wholeTree f n).trace g' j ∧
      Holds g' j (Node.wholeTree f n).value E ∧ (∀ c ∈ E, g.Region F c) ∧
      Edits (Justified J) (g.Region F) g g' ∧ g'.parent? j = none := by
  have hsame := sameTrees_size g i
  have hsized : Edits (Justified J) (g.Region F) g (g.size i).1 := .single .size
  obtain ⟨g₁, res, E, hrun, hturns, -⟩ := hφ (g.size i).1 i n F (hg.edits hsized) (hn.sameTrees hsame)
    hw fun e he => hclear e (List.mem_append_left _ he)
  have hregion : ∀ c, (g.size i).1.Region F c → g.Region F c := fun c hc =>
    hc.imp_right fun hle => hsame.cellCount ▸ hle
  generalize hj : res.getD i = j at hturns
  have hmem := hturns.holds.root_mem
  have hdetached : Edits (Justified J) (g.Region F) g (g₁.detach j) :=
    (hsized.trans (hturns.edits.mono (fun _ _ hK => hK) hregion)).trans
      (.single (.detach (hregion j (hturns.cells j hmem))))
  have hholds : Holds (g₁.detach j) j (f n).value.node E := hturns.holds.detach fun _ => rfl
  have hsame' := sameTrees_size (g₁.detach j) j
  have hholds' := hholds.sameTrees hsame'
  refine ⟨((g₁.detach j).size j).1, j, E, ?_, hholds', fun c hc => hregion c (hturns.cells c hc),
    hdetached.trans (.single .size), ?_⟩
  · have hbefore := hn.size_eq hg.sizes
    have hafter := hholds.size_eq (hg.edits hdetached).sizes
    have hwell := isWellFormed_iff.mpr ⟨_, _, hholds'⟩
    rw [Node.wholeTree, Traced.trace_bind, Traced.trace_bind, ← hbefore]
    refine .silent (.size i) (hrun.bind ?_)
    rw [hj]
    refine .silent (.edit _) (.silent (.size j) ?_)
    rw [hafter]
    refine .bind (.report _) (.silent .get ?_)
    rw [hwell]
    simpa using .pure
  · rw [hsame'.parent?, parent?_detach, if_pos rfl]

/-- Another tree stands beside. -/
theorem wholeTree_beside (hφ : Mirrors J clear w φ f) (hg : Sound J g) (hn : Holds g i n F)
    (hm : Holds g k m A) (hdisj : Disjoint A F) (hw : n.expr.weight ≤ w)
    (hclear : ∀ e ∈ (Node.wholeTree f n).trace, clear e) :
    ∃ g' j E, (Editing.wholeTree s φ i).Runs g (Node.wholeTree f n).trace g' j ∧
      Holds g' j (Node.wholeTree f n).value E ∧ Holds g' k m A ∧ Disjoint A E ∧
      (∀ c ∈ E, g.Region F c) ∧ Edits (Justified J) (g.Region F) g g' := by
  obtain ⟨g', j, E, hrun, hholds, hcells, hedits, -⟩ := wholeTree_spec (s := s) hφ hg hn hw hclear
  refine ⟨g', j, E, hrun, hholds, hm.beside hg.honest (hedits.beside hn) hn.root_mem hdisj, ?_, hcells,
    hedits⟩
  rw [Finset.disjoint_left]
  intro c hcA hcE
  rcases hcells c hcE with hcF | hle
  · exact Finset.disjoint_left.mp hdisj hcA hcF
  · exact Nat.not_le_of_lt (hm.lt c hcA) hle

/-! ### Rules -/

omit [Numeral α] in
/-- Work on new cells leaves a tree as it is. -/
theorem Turns.of_new (hn : Holds g i n F) (hedits : Edits K (g.cellCount ≤ ·) g g') :
    Turns K g i F g' i n F where
  holds := hn.beside_new hedits
  cells _ := .inl
  edits := hedits.mono (fun _ _ hK => hK) fun _ => .inr
  parent _ := (hedits.old (hn.lt i hn.root_mem)).parent
  dropped hne := absurd rfl hne

omit [Numeral α] in
/-- A tree of new cells takes the place of a tree. -/
theorem Turns.by_new (hi : i < g.cellCount) (hm : Holds g' j m E) (hcells : ∀ c ∈ E, g.cellCount ≤ c)
    (hedits : Edits K (g.cellCount ≤ ·) g g') : Turns K g i F g' j m E where
  holds := hm
  cells c hc := .inr (hcells c hc)
  edits := hedits.mono (fun _ _ hK => hK) fun _ => .inr
  parent hji := absurd (hcells j hm.root_mem) (hji ▸ Nat.not_le_of_lt hi)
  dropped _ hmem := Nat.not_le_of_lt hi (hcells i hmem)

omit [Numeral α] in
/-- The sizes of two trees are asked for. -/
theorem size_pair {R : Nat → Prop} (hg : Sound J g) (hx : Holds g j n A) (hy : Holds g k m B) :
    (g.size j).2 = n.size ∧ ((g.size j).1.size k).2 = m.size ∧
      Holds ((g.size j).1.size k).1 j n A ∧ Holds ((g.size j).1.size k).1 k m B ∧
      Edits (Justified J) R g ((g.size j).1.size k).1 := by
  have hsame := sameTrees_size g j
  have hsame' := sameTrees_size (g.size j).1 k
  have hedits : Edits (Justified J) R g (g.size j).1 := .single .size
  have hy' := hy.sameTrees hsame
  exact ⟨hx.size_eq hg.sizes, hy'.size_eq (hg.edits hedits).sizes,
    (hx.sameTrees hsame).sameTrees hsame', hy'.sameTrees hsame', hedits.trans (.single .size)⟩

/-- Two trees of new cells are optimized, one beside the other. -/
theorem wholeTree_pair {base : Nat} (hφ : Mirrors J clear w φ f) (hg : Sound J g)
    (hx : Holds g j n A) (hy : Holds g k m B) (hdisj : Disjoint A B) (hA : ∀ c ∈ A, base ≤ c)
    (hB : ∀ c ∈ B, base ≤ c) (hbase : base ≤ g.cellCount) (hwn : n.expr.weight ≤ w)
    (hwm : m.expr.weight ≤ w) (hclear : ∀ e ∈ (Node.wholeTree f n).trace, clear e)
    (hclear' : ∀ e ∈ (Node.wholeTree f m).trace, clear e) :
    ∃ g₁ g₂ x y A' B', (Editing.wholeTree s φ j).Runs g (Node.wholeTree f n).trace g₁ x ∧
      (Editing.wholeTree s φ k).Runs g₁ (Node.wholeTree f m).trace g₂ y ∧
      Holds g₂ x (Node.wholeTree f n).value A' ∧ Holds g₂ y (Node.wholeTree f m).value B' ∧
      Disjoint A' B' ∧ (∀ c ∈ A', base ≤ c) ∧ (∀ c ∈ B', base ≤ c) ∧
      Edits (Justified J) (base ≤ ·) g g₂ := by
  obtain ⟨g₁, x, A', hrun, hx₁, hy₁, hBA', hcells, hedits⟩ :=
    wholeTree_beside (s := s) hφ hg hx hy hdisj.symm hwn hclear
  have hnew : ∀ c, g.Region A c → base ≤ c := fun c hc => hc.elim (hA c) hbase.trans
  have hedits' := hedits.mono (fun _ _ hK => hK) hnew
  obtain ⟨g₂, y, B', hrun₂, hy₂, hx₂, hAB', hcells₂, hedits₂⟩ :=
    wholeTree_beside (s := s) hφ (hg.edits hedits) hy₁ hx₁ hBA'.symm hwm hclear'
  have hnew₂ : ∀ c, g₁.Region B c → base ≤ c := fun c hc =>
    hc.elim (hB c) (hbase.trans hedits.cellCount_le).trans
  exact ⟨g₁, g₂, x, y, A', B', hrun, hrun₂, hx₂, hy₂, hAB', fun c hc => hnew c (hcells c hc),
    fun c hc => hnew₂ c (hcells₂ c hc), hedits'.trans (hedits₂.mono (fun _ _ hK => hK) hnew₂)⟩

/-- What is no operator on two fractions is left alone. -/
theorem combineFractions_of_not_fractions (hexpr : g.expr i = n.expr)
    (hn : ∀ t op u a b v c d, n ≠ .binary t op (.binary u .div a b) (.binary v .div c d)) :
    Node.combineFractions f n = pure none ∧ (Editing.combineFractions s φ i).Runs g [] g none := by
  constructor
  · unfold Node.combineFractions
    split
    · exact (hn _ _ _ _ _ _ _ _ rfl).elim
    · rfl
  · refine .silent .get ?_
    rw [hexpr]
    split
    · next h =>
      cases n with
      | binary t op l r =>
          cases l <;> cases r <;> simp [Node.expr] at h
          obtain ⟨-, ⟨rfl, -⟩, rfl, -⟩ := h
          exact (hn _ _ _ _ _ _ _ _ rfl).elim
      | _ => simp [Node.expr] at h
    · exact .pure

/-- Fractions are combined on trial.  All work is done on copies. -/
theorem combineFractions_spec (hφ : Mirrors J clear w φ f) (hg : Sound J g)
    (hn : Holds g i (n.withTag (g.tag i)) F) (hw : n.expr.weight ≤ w + 1)
    (hclear : ∀ e ∈ (Node.combineFractions f n).trace, clear e) :
    ∃ g' res E, (Editing.combineFractions s φ i).Runs g (Node.combineFractions f n).trace g' res ∧
      res.isSome = (Node.combineFractions f n).value.isSome ∧
      Turns (Justified J) g i F g' (res.getD i)
        (((Node.combineFractions f n).value.getD n).withTag (g'.tag (res.getD i))) E := by
  have hexpr : g.expr i = n.expr := by rw [hn.expr_eq, Node.expr_withTag]
  by_cases hshape : ∃ t op u a b v c d,
      n = .binary t op (.binary u .div a b) (.binary v .div c d)
  case neg =>
    obtain ⟨hnone, hrun⟩ := combineFractions_of_not_fractions (s := s) (φ := φ) (f := f) hexpr
      fun t op u a b v c d heq => hshape ⟨t, op, u, a, b, v, c, d, heq⟩
    rw [hnone]
    exact ⟨g, none, F, hrun, rfl, .refl hn⟩
  obtain ⟨t, op, u, a, b, v, c, d, rfl⟩ := hshape
  generalize habove : Node.newBinary .mul a.clean c.clean = above at *
  generalize hbelow : Node.newBinary .mul b.clean d.clean = below at *
  have hweight : above.expr.weight ≤ w ∧ below.expr.weight ≤ w := by
    have hlt := Node.weight_fractions op a.expr c.expr b.expr d.expr
    simp only [Node.expr] at hw
    subst habove hbelow
    simp only [Node.newBinary, Node.expr, Node.expr_clean]
    omega
  simp only [Node.combineFractions, habove, hbelow, Traced.trace_bind, Traced.trace_pure,
    Traced.value_bind, Traced.value_pure, List.append_nil, List.mem_append] at hclear ⊢
  -- the products of copies
  obtain ⟨g₁, x, A, hrun₁, h₁⟩ := productOfCopies_spec (K := Justified J) (R := (g.cellCount ≤ ·))
    (p := [.left, .left]) (q := [.right, .left]) hn (a := a) (b := c) rfl rfl fun _ hc => hc
  obtain ⟨g₂, y, B, hrun₂, h₂⟩ := productOfCopies_spec (K := Justified J) (R := (g.cellCount ≤ ·))
    (p := [.left, .right]) (q := [.right, .right]) (hn.beside_new h₁.edits) (a := b) (b := d) rfl rfl fun _ hc => h₁.keeps.count.trans hc
  rw [habove] at h₁
  rw [hbelow] at h₂
  have hA : ∀ c ∈ A, g.cellCount ≤ c := fun c hc => (h₁.cells c hc).resolve_left id
  have hB : ∀ c ∈ B, g₁.cellCount ≤ c := fun c hc => (h₂.cells c hc).resolve_left id
  have hAB : Disjoint A B := by
    rw [Finset.disjoint_left]
    exact fun c hcA hcB => Nat.not_le_of_lt (h₁.holds.lt c hcA) (hB c hcB)
  have hedits₂ := h₁.edits.trans h₂.edits
  -- their sizes, what the optimizer makes of them, and the sizes of that
  obtain ⟨hsizex, hsizey, hx, hy, hsized⟩ := size_pair (R := (g.cellCount ≤ ·)) (hg.edits hedits₂)
    (h₂.keeps.holds h₁.holds fun _ _ hc => hc.elim) h₂.holds
  have hedits₄ := hedits₂.trans hsized
  obtain ⟨g₅, g₆, x', y', A', B', hrun₅, hrun₆, hx', hy', hAB', hA', hB', hedits₆⟩ :=
    wholeTree_pair (s := s) hφ (hg.edits hedits₄) hx hy hAB hA
      (fun c hc => h₁.keeps.count.trans (hB c hc)) hedits₄.cellCount_le hweight.1 hweight.2
      (fun e he => hclear e (.inl he)) fun e he => hclear e (.inr he)
  obtain ⟨hsizex', hsizey', hx₈, hy₈, hsized'⟩ := size_pair (R := (g.cellCount ≤ ·))
    (hg.edits (hedits₄.trans hedits₆)) hx' hy'
  have hedits₈ := (hedits₄.trans hedits₆).trans hsized'
  have hrun : ∀ {g' res}, (do
        if above.size ≤ (Node.wholeTree f above).value.size ∧
            below.size ≤ (Node.wholeTree f below).value.size then return none
        else return some (← Editing.newBinary .div x' y') : Editing α (Option Nat)).Runs
          ((g₆.size x').1.size y').1 [] g' res →
      (Editing.combineFractions s φ i).Runs g
        ((Node.wholeTree f above).trace ++ (Node.wholeTree f below).trace) g' res := by
    intro g' res hrest
    refine .silent .get ?_
    rw [hexpr]
    refine .silent hrun₁ (.silent hrun₂ (.silent (.size x) (.silent (.size y) (hrun₅.bind
      (hrun₆.beforeSilent (.silent (.size x') (.silent (.size y') ?_)))))))
    rw [hsizex, hsizey, hsizex', hsizey']
    exact hrest
  by_cases hpays : above.size ≤ (Node.wholeTree f above).value.size ∧
      below.size ≤ (Node.wholeTree f below).value.size
  case pos =>
    rw [if_pos hpays] at hrun ⊢
    exact ⟨_, none, F, hrun .pure, rfl, (Turns.of_new hn hedits₈).retag⟩
  case neg =>
    obtain ⟨g₉, E, hrun₉, h₉, -⟩ := newBinary_spec (K := Justified J) (R := (g.cellCount ≤ ·)) .div
      hx₈ hy₈ hAB' hA' hB' fun c hc => hedits₈.cellCount_le.trans hc
    have hcells : ∀ c ∈ E, g.cellCount ≤ c := by
      intro c hc
      rcases h₉.cells c hc with (hc | hc) | hle
      · exact hA' c hc
      · exact hB' c hc
      · exact hedits₈.cellCount_le.trans hle
    have hturns := Turns.by_new (F := F) (hn.lt i hn.root_mem) h₉.holds hcells (hedits₈.trans h₉.edits)
    rw [if_neg hpays] at hrun ⊢
    exact ⟨g₉, some _, E, hrun (hrun₉.silent .pure), rfl, hturns.retag_root⟩

variable [Arithmetic α]

/-- A rule whose move is carried out. -/
theorem applyRule_of_move {optimize : Editing.Run α} {rule : Rule} {m : Move α}
    (hrule : rule ≠ .combineFractions) (hm : rule.move? s (g.expr i) = some m)
    (h : (Editing.perform i m).Runs g [] g' j) :
    (Editing.applyRule s optimize rule i).Runs g [] g' (some j) := by
  rw [Editing.applyRule, if_neg hrule]
  refine .silent .get ?_
  rw [hm]
  exact h.silent .pure

/-- A rule that does not apply. -/
theorem applyRule_of_none {optimize : Editing.Run α} {rule : Rule}
    (hrule : rule ≠ .combineFractions) (hm : rule.move? s (g.expr i) = none) :
    (Editing.applyRule s optimize rule i).Runs g [] g none := by
  rw [Editing.applyRule, if_neg hrule]
  refine .silent .get ?_
  rw [hm]
  exact .pure

theorem applyRule_spec {rule : Rule} (hφ : Mirrors J clear w φ f) (hg : Sound J g)
    (hn : Holds g i (n.withTag (g.tag i)) F) (hw : n.expr.weight ≤ w + 1)
    (hrule : rule ∈ n.expr.rules)
    (hclear : ∀ e ∈ (Node.applyRule s f rule n).trace, clear e) :
    ∃ g' res E, (Editing.applyRule s φ rule i).Runs g (Node.applyRule s f rule n).trace g' res ∧
      res.isSome = (Node.applyRule s f rule n).value.isSome ∧
      Turns (Justified J) g i F g' (res.getD i)
        (((Node.applyRule s f rule n).value.getD n).withTag (g'.tag (res.getD i))) E := by
  have hexpr : g.expr i = n.expr := by rw [hn.expr_eq, Node.expr_withTag]
  by_cases hcombine : rule = .combineFractions
  case pos =>
    simp only [Node.applyRule, if_pos hcombine] at hclear ⊢
    obtain ⟨g', res, E, hrun, hres, hturns⟩ := combineFractions_spec (s := s) hφ hg hn hw hclear
    refine ⟨g', res, E, ?_, hres, hturns⟩
    rw [Editing.applyRule, if_pos hcombine]
    exact hrun
  simp only [Node.applyRule, if_neg hcombine]
  cases hmove : rule.move? s n.expr with
  | none =>
      exact ⟨g, none, F, applyRule_of_none hcombine (hexpr ▸ hmove), rfl, .refl hn⟩
  | some m =>
      have hfits := fits_of_move? n.isFilled_expr hrule hmove
      obtain ⟨g', j, E, hrun, hturns⟩ := perform_spec (K := Justified J) hg.honest hn
        (by rwa [Node.expr_withTag])
      rw [Node.perform_withTag hfits] at hturns
      exact ⟨g', some j, E, applyRule_of_move hcombine (hexpr ▸ hmove) hrun, rfl, hturns.retag_root⟩

theorem firstRule_spec {rules : List Rule} (hφ : Mirrors J clear w φ f) (hg : Sound J g)
    (hn : Holds g i (n.withTag (g.tag i)) F) (hw : n.expr.weight ≤ w + 1)
    (hrules : ∀ r ∈ rules, r ∈ n.expr.rules)
    (hclear : ∀ e ∈ (Node.firstRule s f n rules).trace, clear e) :
    ∃ g' res E, (Editing.firstRule s φ i rules).Runs g (Node.firstRule s f n rules).trace g' res ∧
      res.isSome = (Node.firstRule s f n rules).value.isSome ∧
      Turns (Justified J) g i F g' (res.getD i)
        (((Node.firstRule s f n rules).value.getD n).withTag (g'.tag (res.getD i))) E := by
  induction rules generalizing g F with
  | nil => exact ⟨g, none, F, .pure, rfl, .refl hn⟩
  | cons rule rest ih =>
      simp only [Node.firstRule, Traced.trace_bind, Traced.value_bind, List.mem_append] at hclear ⊢
      obtain ⟨g₁, res, E₁, hrun, hres, hturns⟩ := applyRule_spec hφ hg hn hw (hrules rule (by simp))
        fun e he => hclear e (.inl he)
      have hexpr : g.expr i = n.expr := by rw [hn.expr_eq, Node.expr_withTag]
      cases hvalue : (Node.applyRule s f rule n).value with
      | some m =>
          rw [hvalue] at hres hturns
          obtain ⟨j, rfl⟩ := Option.isSome_iff_exists.mp hres
          have hexpr' : g₁.expr j = m.expr := by simpa using hturns.holds.expr_eq
          refine ⟨g₁, some j, E₁, .silent .get (hrun.bind (.silent .get ?_)), rfl, hturns⟩
          rw [hexpr, hexpr']
          exact .bind (.report _) .pure
      | none =>
          rw [hvalue] at hres hturns hclear
          obtain rfl : res = none := by simpa using hres
          obtain ⟨g₂, res, E₂, hrun', hres', hturns'⟩ := ih (hg.edits hturns.edits) hturns.holds
            (fun r hr => hrules r (by simp [hr])) fun e he => hclear e (.inr he)
          exact ⟨g₂, res, E₂, .silent .get (hrun.bind hrun'), hres',
            hturns.trans (hn.lt i hn.root_mem) hturns'⟩

/-! ### Passes -/

omit [Numeral α] [Arithmetic α] in
theorem isConst_eq (h : Holds g i n F) : g.isConst i = n.isConst := by
  cases h with
  | const hc | var hc => simp [Graph.isConst, hc, Node.isConst]
  | unary hc | binary hc => simp [Graph.isConst, hc, Node.isConst]

omit [Numeral α] [Arithmetic α] in
theorem hasConstantOperands_eq (h : Holds g i n F) :
    g.hasConstantOperands i = n.hasConstantOperands := by
  cases h with
  | const hc | var hc =>
      simp [Graph.hasConstantOperands, operands, hc, Content.operands, Content.slots,
        Node.hasConstantOperands, Node.operands]
  | unary hc _ _ hx =>
      simp [Graph.hasConstantOperands, operands, hc, Content.operands, Content.slots,
        Node.hasConstantOperands, Node.operands, isConst_eq hx]
  | binary hc _ _ _ _ _ hl hr =>
      simp [Graph.hasConstantOperands, operands, hc, Content.operands, Content.slots,
        Node.hasConstantOperands, Node.operands, isConst_eq hl, isConst_eq hr]

omit [Numeral α] [Arithmetic α] in
@[simp] theorem hasConstantOperands_withTag (n : Node α) (t : Tag) :
    (n.withTag t).hasConstantOperands = n.hasConstantOperands := by
  cases n <;> rfl

theorem pass_spec (hφ : Mirrors J clear w φ f) (hlight : Node.Lightens f) (hg : Sound J g)
    (hn : Holds g i (n.withTag (g.tag i)) F) (hw : n.expr.weight ≤ w + 1)
    (hclear : ∀ e ∈ (Node.pass s f n).trace, clear e) :
    ∃ g' res E, (Editing.pass s φ i).Runs g (Node.pass s f n).trace g' res ∧
      res.isSome = (Node.pass s f n).value.change.isChanged ∧
      Turns (Justified J) g i F g' (res.getD i)
        ((Node.pass s f n).value.node.withTag (g'.tag (res.getD i))) E := by
  simp only [Node.pass, Traced.trace_bind, Traced.value_bind, List.mem_append] at hclear ⊢
  obtain ⟨g₁, E₁, hrun₁, hturns₁⟩ := optimizeOperands_spec hφ hg hn hw fun e he => hclear e (.inl he)
  have hbelow := hlight.optimizeOperands n
  generalize Node.optimizeOperands f n = below at *
  have hconst : g₁.hasConstantOperands i = below.value.node.hasConstantOperands := by
    rw [hasConstantOperands_eq hturns₁.holds, hasConstantOperands_withTag]
  have hexpr : g₁.expr i = below.value.node.expr := by rw [hturns₁.holds.expr_eq, Node.expr_withTag]
  have hsome : (if below.value.change.isChanged then some i else none).isSome
      = below.value.change.isChanged := by split <;> simp_all
  have hroot : (if below.value.change.isChanged then some i else none).getD i = i := by
    split <;> rfl
  by_cases hall : below.value.node.hasConstantOperands
  case pos =>
    simp only [if_pos hall]
    refine ⟨g₁, _, E₁, .silent .get (hrun₁.bind (.silent .get ?_)), hsome, ?_⟩
    · rw [if_pos (hconst.trans hall)]
      exact .pure
    · rw [hroot]
      exact hturns₁
  simp only [if_neg hall, Traced.trace_bind, Traced.value_bind] at hclear ⊢
  obtain ⟨g₂, res, E₂, hrun₂, hres, hturns₂⟩ := firstRule_spec hφ (hg.edits hturns₁.edits)
    hturns₁.holds (hbelow.trans hw) (fun _ hr => hr) fun e he =>
      hclear e (.inr (List.mem_append_left _ he))
  have hturns := hturns₁.trans (hn.lt i hn.root_mem) hturns₂
  have hmatch : ¬g₁.hasConstantOperands i = true := by rw [hconst]; exact hall
  cases hvalue : (Node.firstRule s f below.value.node below.value.node.expr.rules).value with
  | some m =>
      rw [hvalue] at hres hturns
      obtain ⟨j, rfl⟩ := Option.isSome_iff_exists.mp hres
      simp only [Traced.trace_pure, Traced.value_pure, List.append_nil]
      refine ⟨g₂, some j, E₂, .silent .get (hrun₁.bind (.silent .get ?_)), rfl, hturns⟩
      rw [if_neg hmatch, hexpr]
      exact hrun₂.beforeSilent .pure
  | none =>
      rw [hvalue] at hres hturns
      obtain rfl : res = none := by simpa using hres
      simp only [Traced.trace_pure, Traced.value_pure, List.append_nil]
      refine ⟨g₂, _, E₂, .silent .get (hrun₁.bind (.silent .get ?_)), hsome, ?_⟩
      · rw [if_neg hmatch, hexpr]
        exact hrun₂.beforeSilent .pure
      · rw [hroot]
        exact hturns

theorem passes_spec {k : Nat} (hφ : Mirrors J clear w φ f) (hlight : Node.Lightens f)
    (hg : Sound J g) (hn : Holds g i (n.withTag (g.tag i)) F) (hw : n.expr.weight ≤ w + 1)
    (hclear : ∀ e ∈ (Node.passes s f k n).trace, clear e) :
    ∃ g' j E, (Editing.passes s φ k i).Runs g (Node.passes s f k n).trace g'
        (j, (Node.passes s f k n).value.change.isChanged) ∧
      ((Node.passes s f k n).value.change.isChanged = false → j = i) ∧
      Turns (Justified J) g i F g' j ((Node.passes s f k n).value.node.withTag (g'.tag j)) E := by
  induction k generalizing g i n F with
  | zero =>
      refine ⟨g, i, F, .silent .get ?_, fun _ => rfl, .refl hn⟩
      rw [hn.expr_eq, Node.expr_withTag]
      exact .bind (.report _) .pure
  | succ k ih =>
      simp only [Node.passes, Traced.trace_bind, Traced.value_bind, List.mem_append] at hclear ⊢
      obtain ⟨g₁, res, E₁, hrun₁, hres, hturns₁⟩ := pass_spec hφ hlight hg hn hw fun e he =>
        hclear e (.inl he)
      have hweight := hlight.pass (s := s) n
      generalize Node.pass s f n = first at *
      cases hchange : first.value.change with
      | unchanged =>
          obtain rfl : res = none := by simpa [hchange, Change.isChanged] using hres
          simp only [if_true, Traced.trace_pure, Traced.value_pure, List.append_nil, hchange]
          exact ⟨g₁, i, E₁, hrun₁.beforeSilent .pure, fun _ => rfl, hturns₁⟩
      | changed =>
          obtain ⟨j, rfl⟩ : ∃ j, res = some j := by
            simpa [hchange, Change.isChanged, Option.isSome_iff_exists] using hres
          simp only [hchange, reduceCtorEq, if_false, Traced.trace_bind, Traced.value_bind,
            Traced.trace_pure, Traced.value_pure, List.append_nil] at hclear ⊢
          obtain ⟨g₂, j', E₂, hrun₂, -, hturns₂⟩ := ih (hg.edits hturns₁.edits) hturns₁.holds
            (hweight.trans hw) fun e he => hclear e (.inr he)
          exact ⟨g₂, j', E₂, hrun₁.bind (hrun₂.beforeSilent .pure), fun h => absurd h (by decide),
            hturns₁.trans (hn.lt i hn.root_mem) hturns₂⟩

/-! ### The end of a run -/

omit [Numeral α] [Arithmetic α] in
theorem Turns.mark (hn : Holds g i n F) (hJ : J n.expr) :
    Turns (Justified J) g i F (g.mark i) i n.settle F where
  holds := hn.mark_root
  cells _ := .inl
  edits := .single (.mark (.inl hn.root_mem) ⟨n, F, hn, hJ⟩)
  parent _ := parent?_mark g i i
  dropped hne := absurd rfl hne

omit [Numeral α] in
/-- A node is folded or stays, and is marked. -/
theorem finish_spec {st : Step α} (hn : Holds g i (st.node.withTag (g.tag i)) F)
    (hJ : J (Node.finish env st).node.expr) :
    ∃ g' res E, (Editing.finish env i st.change.isChanged).Runs g [] g' res ∧
      res.isSome = (Node.finish env st).change.isChanged ∧
      Turns (Justified J) g i F g' (res.getD i) (Node.finish env st).node E := by
  have hexpr : g.expr i = st.node.expr := by rw [hn.expr_eq, Node.expr_withTag]
  have hsome : (if st.change.isChanged then some i else none).isSome = st.change.isChanged := by
    split <;> simp_all
  have hroot : (if st.change.isChanged then some i else none).getD i = i := by split <;> rfl
  have hmark : J st.node.expr → Turns (Justified J) g i F (g.mark i) i st.node.settle F := fun hJ => by
    simpa [Node.settle] using Turns.mark hn (by rwa [Node.expr_withTag])
  by_cases hconst : st.node.isConst
  case pos =>
    obtain ⟨v, hv⟩ : ∃ v, st.node.expr = .const v := by
      cases h : st.node <;> simp_all [Node.isConst, Node.expr]
    simp only [Node.finish, if_pos hconst, Node.expr_settle] at hJ ⊢
    refine ⟨g.mark i, _, F, .silent .get ?_, hsome, by rw [hroot]; exact hmark hJ⟩
    rw [hexpr, hv]
    exact .silent (.edit _) .pure
  have hnot : ∀ v, st.node.expr ≠ .const v := by
    intro v hv
    cases h : st.node <;> simp_all [Node.isConst, Node.expr]
  simp only [Node.finish, if_neg hconst] at hJ ⊢
  cases heval : st.node.expr.eval env with
  | ok v =>
      simp only [heval, Node.expr_settle] at hJ ⊢
      obtain ⟨g₁, E, hrun, hmakes⟩ := newConst_spec (K := Justified J) (R := (g.cellCount ≤ ·))
        (g := g) v
      have hturns : Turns (Justified J) g i F g₁ g.cellCount (Node.newConst v) E :=
        .by_new (hn.lt i hn.root_mem) hmakes.holds (fun c hc => (hmakes.cells c hc).resolve_left id)
          hmakes.edits
      refine ⟨g₁.mark g.cellCount, some g.cellCount, E, .silent .get ?_, rfl,
        hturns.trans (hn.lt i hn.root_mem) (.mark hmakes.holds hJ)⟩
      rw [hexpr]
      split
      · next w hw => exact absurd hw (hnot w)
      · rw [heval]
        exact hrun.silent (.silent (.edit _) .pure)
  | error err =>
      simp only [heval, Node.expr_settle] at hJ ⊢
      refine ⟨g.mark i, _, F, .silent .get ?_, hsome, by rw [hroot]; exact hmark hJ⟩
      rw [hexpr]
      split
      · next w hw => exact absurd hw (hnot w)
      · rw [heval]
        exact .silent (.edit _) .pure

omit [Numeral α] in
theorem unchanged_of_finish {st : Step α} (h : (Node.finish env st).change.isChanged = false) :
    st.change.isChanged = false := by
  unfold Node.finish at h
  split at h
  · exact h
  · split at h
    · cases h
    · exact h

/-! ### Runs -/

omit [Numeral α] [Arithmetic α] in
/-- The marks of a tree in a sound graph are justified. -/
theorem Holds.justified (h : Holds g i n F) (hg : MarksRight J g) : n.Justified J := by
  induction h with
  | const hc => exact .const fun ht => hg _ _ _ (.const hc) ht
  | var hc => exact .var fun ht => hg _ _ _ (.var hc) ht
  | unary hc hx hi hn ih => exact .unary (fun ht => hg _ _ _ (.unary hc hx hi hn) ht) ih
  | binary hc hl hr hiE hiF hEF hm hn ihl ihr =>
      exact .binary (fun ht => hg _ _ _ (.binary hc hl hr hiE hiF hEF hm hn) ht) ihl ihr

/-- The optimizer marks only trees that have the property, as long as all events
are allowed. -/
def MarksOnly (J : Expr α → Prop) (clear : Event α → Prop) (s : Settings α) (env : Environment α) :
    Prop :=
  ∀ fuel n, Node.Justified J n → n.expr.weight ≤ fuel →
    (∀ e ∈ (Node.optimizeWithin s env fuel n).trace, clear e) →
    J (Node.optimizeWithin s env fuel n).value.node.expr

/-- The optimizer on graphs does what the optimizer on trees does, whatever the
limit of passes is. -/
theorem mirrors_optimizeCapped {cap : Nat}
    (hJ : ∀ fuel n, Node.Justified J n → n.expr.weight ≤ fuel →
      (∀ e ∈ (Node.optimizeCapped s env cap fuel n).trace, clear e) →
      J (Node.optimizeCapped s env cap fuel n).value.node.expr) (fuel : Nat) :
    Mirrors J clear fuel (Editing.optimizeCapped s env cap fuel) (Node.optimizeCapped s env cap fuel) := by
  induction fuel with
  | zero => exact fun g i n F _ hn _ _ => ⟨g, none, F, .pure, .refl hn, rfl⟩
  | succ fuel ih =>
      intro g i n F hg hn hw hclear
      have hresult := hJ (fuel + 1) n (hn.justified hg.marks) hw hclear
      have hmarked : n.tag.settled = g.isSettled i := congrArg Tag.settled hn.tag_eq
      by_cases hsettled : n.tag.settled
      case pos =>
        simp only [Node.optimizeCapped, if_pos hsettled]
        refine ⟨g, none, F, .silent .get ?_, .refl hn, rfl⟩
        rw [if_pos (hmarked ▸ hsettled)]
        exact .pure
      simp only [Node.optimizeCapped, if_neg hsettled, Traced.trace_bind, Traced.value_bind,
        Traced.trace_pure, Traced.value_pure, List.append_nil] at hclear hresult ⊢
      have hn' : Holds g i (n.withTag (g.tag i)) F := by rwa [← hn.tag_eq, Node.withTag_tag]
      obtain ⟨g₁, j, E₁, hrun₁, hroot, hturns₁⟩ := passes_spec (s := s) (k := cap) ih
        (Node.weight_optimizeCapped s env cap fuel) hg hn' hw hclear
      obtain ⟨g₂, res, E₂, hrun₂, hres, hturns₂⟩ := finish_spec hturns₁.holds hresult
      refine ⟨g₂, res, E₂, .silent .get ?_, ?_, hres⟩
      · rw [if_neg (hmarked ▸ hsettled)]
        exact hrun₁.beforeSilent hrun₂
      · have hturns := hturns₁.trans (hn.lt i hn.root_mem) hturns₂
        cases res with
        | some y => exact hturns
        | none =>
            -- nothing has changed, so the root is the same cell
            rw [hroot (unchanged_of_finish hres.symm)] at hturns
            exact hturns

theorem mirrors_optimizeWithin (hJ : MarksOnly J clear s env) (fuel : Nat) :
    Mirrors J clear fuel (Editing.optimizeWithin s env fuel) (Node.optimizeWithin s env fuel) := by
  rw [← Editing.optimizeCapped_maxPasses, ← Node.optimizeCapped_maxPasses]
  refine mirrors_optimizeCapped (fun fuel n => ?_) fuel
  rw [Node.optimizeCapped_maxPasses]
  exact hJ fuel n

/-- A run on a whole tree succeeds.  Its result is the one of the run on trees,
and has no parent. -/
theorem optimizeTree_spec (hJ : MarksOnly J clear s env) (hg : Sound J g) (hn : Holds g i n F)
    (hclear : ∀ e ∈ (n.optimizeTree s env).trace, clear e) :
    ∃ g' j E, g.optimizeTree s env i = ⟨(g', .ok j), (n.optimizeTree s env).trace⟩ ∧
      Holds g' j (n.optimizeTree s env).value E ∧ (∀ c ∈ E, g.Region F c) ∧
      Edits (Justified J) (g.Region F) g g' ∧ g'.parent? j = none := by
  refine wholeTree_spec (w := n.expr.weight) ?_ hg hn (Nat.le_refl _) hclear
  intro g i n F hg hn _ hclear
  obtain ⟨g', res, E, hrun, hturns, hres⟩ := mirrors_optimizeWithin hJ n.expr.weight g i n F hg hn
    (Nat.le_refl _) hclear
  refine ⟨g', res, E, .silent .get ?_, hturns, hres⟩
  rw [hn.expr_eq]
  exact hrun

end Graph

end Formula
