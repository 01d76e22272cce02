/-
Formula/Proofs/Graph/Making.lean

New cells over old trees.  A new operator adopts the roots of its operands and
leaves everything else as it is (`Keeps`), so the cells of a sketch can be made
one after the other: trees that are still to be used stand until they are.
-/
import Formula.Graph.Optimize
import Formula.Proofs.Graph.Gap
import Formula.Proofs.Graph.NewCells
import Formula.Proofs.Simplify.Parts

namespace Formula

open Graph

variable {α β γ : Type}

/-! ### Work that succeeds -/

/-- The work succeeds: it reports the events, leaves the graph and gives the
value. -/
def Editing.Runs (x : Editing α β) (g : Graph α) (events : List (Event α)) (g' : Graph α) (v : β) :
    Prop :=
  x g = ⟨(g', .ok v), events⟩

namespace Editing.Runs

variable {g g' g'' : Graph α} {v : β} {w : γ} {s t : List (Event α)}

theorem bind {x : Editing α β} {f : β → Editing α γ} (h : x.Runs g s g' v)
    (h' : (f v).Runs g' t g'' w) : (x >>= f).Runs g (s ++ t) g'' w := by
  unfold Runs at h h' ⊢
  simp only [Bind.bind, h, h']

theorem pure : (Pure.pure v : Editing α β).Runs g [] g v := rfl

/-- The first part reports nothing. -/
theorem silent {x : Editing α β} {f : β → Editing α γ} (h : x.Runs g [] g' v)
    (h' : (f v).Runs g' t g'' w) : (x >>= f).Runs g t g'' w := h.bind h'

/-- What is left of the work after a first part that reports nothing. -/
theorem bind_eq {x : Editing α β} (h : x.Runs g [] g' v) (f : β → Editing α γ) :
    (x >>= f) g = f v g' := by
  unfold Runs at h
  simp only [Bind.bind, h, List.nil_append]

/-- The second part reports nothing. -/
theorem beforeSilent {x : Editing α β} {f : β → Editing α γ} (h : x.Runs g s g' v)
    (h' : (f v).Runs g' [] g'' w) : (x >>= f).Runs g s g'' w := by
  simpa using h.bind h'

theorem parentOf {i p : Nat} (h : g.parent? i = some p) :
    (Editing.parentOf i).Runs g [] g p := by
  simp [Runs, Editing.parentOf, h]

theorem locate {i x : Nat} {p : Path} (h : g.follow i p = some x) :
    (Editing.locate i p).Runs g [] g x := by
  simp [Runs, Editing.locate, h]

theorem get : (Editing.get : Editing α (Graph α)).Runs g [] g g := rfl

end Editing.Runs

namespace Graph

variable {K : Graph α → Nat → Prop} {R : Nat → Prop} {g g' g'' : Graph α}

/-! ### What new cells leave alone -/

/-- Everything is kept but the parents of some cells. -/
structure Keeps (S : Nat → Prop) (g g' : Graph α) : Prop where
  count : g.cellCount ≤ g'.cellCount
  content : ∀ c < g.cellCount, g'.content? c = g.content? c
  settled : ∀ c < g.cellCount, g'.isSettled c = g.isSettled c
  parent : ∀ c < g.cellCount, ¬S c → g'.parent? c = g.parent? c

namespace Keeps

variable {S S' : Nat → Prop} {i k : Nat} {n : Node α} {p : Path} {E F : Finset Nat}

theorem refl : Keeps S g g := ⟨Nat.le_refl _, fun _ _ => rfl, fun _ _ => rfl, fun _ _ _ => rfl⟩

theorem trans (h : Keeps S g g') (h' : Keeps S' g' g'') : Keeps (fun c => S c ∨ S' c) g g'' where
  count := h.count.trans h'.count
  content c hc := (h'.content c (hc.trans_le h.count)).trans (h.content c hc)
  settled c hc := (h'.settled c (hc.trans_le h.count)).trans (h.settled c hc)
  parent c hc hS := by
    rw [not_or] at hS
    exact (h'.parent c (hc.trans_le h.count) hS.2).trans (h.parent c hc hS.1)

theorem mono (h : Keeps S g g') (hS : ∀ c < g.cellCount, S c → S' c) : Keeps S' g g' where
  count := h.count
  content := h.content
  settled := h.settled
  parent c hc hS' := h.parent c hc fun hc' => hS' (hS c hc hc')

/-- A tree stands if none of its cells but its root gets another parent. -/
theorem holds (h : Keeps S g g') (hn : Holds g i n E) (hS : ∀ c ∈ E, S c → c = i) :
    Holds g' i n E :=
  hn.congr (fun c hc => h.content c (hn.lt c hc)) (fun c hc => h.settled c (hn.lt c hc))
    (fun c hc hne => h.parent c (hn.lt c hc) fun hSc => hne (hS c hc hSc))

theorem context (h : Keeps S g g') (hctx : Context g i n p k F) (hlt : ∀ c ∈ F, c < g.cellCount)
    (hS : ∀ c ∈ F, ¬S c) : Context g' i n p k F :=
  hctx.congr (fun c hc => h.content c (hlt c hc)) (fun c hc _ => h.parent c (hlt c hc) (hS c hc))
    (fun hB hb => h.holds hb fun c hc hSc => absurd hSc (hS c (hB hc)))

theorem leads (h : Keeps S g g') {s : Slot} {o : Nat} (hctx : Context g i n (p ++ [s]) k F)
    (hlead : Leads g i p o) (hlt : ∀ c ∈ F, c < g.cellCount) (hS : ∀ c ∈ F, ¬S c) :
    Leads g' i p o := by
  induction p generalizing i n F with
  | nil => exact hlead
  | cons t p ih =>
      obtain ⟨x, hx, hparent, hrest⟩ := hlead
      have hnext : ∀ {a : Node α} {A : Finset Nat}, A ⊆ F → i < g.cellCount →
          Context g x a (p ++ [s]) k A → Leads g' i (t :: p) o := by
        intro a A hsub hi hctx
        have hxA : x ∈ A := hctx.root_mem_concat
        refine ⟨x, by rwa [Graph.slot?, h.content i hi], ?_, ih hctx hrest
          (fun c hc => hlt c (hsub hc)) (fun c hc => hS c (hsub hc))⟩
        rw [h.parent x (hlt x (hsub hxA)) (hS x (hsub hxA)), hparent]
      have hi := hlt i hctx.root_mem
      cases hctx with
      | operand hc _ hctx =>
          obtain rfl : _ = x := by simpa [Graph.slot?, hc] using hx
          exact hnext (Finset.subset_insert _ _) hi hctx
      | left hc _ _ _ _ hctx _ =>
          obtain rfl : _ = x := by simpa [Graph.slot?, hc] using hx
          exact hnext (Finset.subset_union_left.trans (Finset.subset_insert _ _)) hi hctx
      | right hc _ _ _ _ _ hctx =>
          obtain rfl : _ = x := by simpa [Graph.slot?, hc] using hx
          exact hnext (Finset.subset_union_right.trans (Finset.subset_insert _ _)) hi hctx

theorem slot? (h : Keeps S g g') {s : Slot} {x : Nat} (hx : g.slot? i s = some x) :
    g'.slot? i s = some x := by
  obtain ⟨c, hc, -⟩ := Option.bind_eq_some_iff.mp hx
  rwa [Graph.slot?, h.content i (lt_of_content? hc)]

theorem follow (h : Keeps S g g') (hp : g.follow i p = some k) : g'.follow i p = some k := by
  induction p generalizing i with
  | nil => exact hp
  | cons s p ih =>
      obtain ⟨x, hx, hp⟩ := Option.bind_eq_some_iff.mp hp
      simp [Graph.follow, h.slot? hx, ih hp]

end Keeps

/-- A tree has been made: it has cells of some old trees and new cells, and
nothing but some parents has changed. -/
structure Makes (K : Graph α → Nat → Prop) (R S old : Nat → Prop) (g g' : Graph α) (y : Nat)
    (m : Node α) (E : Finset Nat) : Prop where
  holds : Holds g' y m E
  cells : ∀ c ∈ E, old c ∨ g.cellCount ≤ c
  keeps : Keeps S g g'
  edits : Edits K R g g'

/-- What is made has no cell of what stands beside the old trees. -/
theorem Makes.disjoint {S : Nat → Prop} {y : Nat} {m : Node α} {A C E : Finset Nat}
    (h : Makes K R S (· ∈ A) g g' y m E) (hlt : ∀ c ∈ C, c < g.cellCount) (hCA : Disjoint C A) :
    Disjoint C E := by
  rw [Finset.disjoint_left]
  intro c hcC hcE
  rcases h.cells c hcE with hcA | hle
  · exact Finset.disjoint_left.mp hCA hcC hcA
  · exact Nat.not_le_of_lt (hlt c hcC) hle

/-! ### One new cell -/

theorem NewCell.keeps {new : Content α} (h : NewCell g new g') (hself : g.cellCount ∉ new.operands) :
    Keeps (· ∈ new.operands) g g' where
  count := h.count ▸ Nat.le_succ _
  content _ := h.content_old
  settled c _ := h.mark hself c
  parent c _ hc := by rw [h.parent, if_neg fun hmem => hc hmem.1]

theorem NewCell.tag {new : Content α} (h : NewCell g new g') (hself : g.cellCount ∉ new.operands) :
    g'.tag g.cellCount = .fresh := by
  rw [Graph.tag, h.mark hself, isSettled_of_le (Nat.le_refl _), Tag.fresh]

/-- A new cell without operands leaves everything as it is. -/
theorem makes_add {content : Content α} {m : Node α} (hempty : content.operands = [])
    (hholds : Holds (g.add content).1 g.cellCount m {g.cellCount}) :
    Makes K R (fun _ => False) (fun _ => False) g (g.add content).1 g.cellCount m {g.cellCount} where
  holds := hholds
  cells := by simp
  keeps := ((newCell_add hempty).keeps (by simp [hempty])).mono (by simp [hempty])
  edits := .single (.add hempty)

theorem newConst_spec (v : α) :
    ∃ g' E, (Editing.newConst v).Runs g [] g' g.cellCount ∧
      Makes K R (fun _ => False) (fun _ => False) g g' g.cellCount (Node.newConst v) E := by
  have hadd : NewCell g (.const v) (g.add (.const v)).1 := newCell_add rfl
  have h := Holds.const hadd.content_self
  rw [hadd.tag (by simp [Content.operands, Content.slots])] at h
  exact ⟨_, _, rfl, makes_add rfl h⟩

theorem newUnary_spec (op : UnaryOp) {x : Nat} {n : Node α} {F : Finset Nat}
    (hn : Holds g x n F) (hR : ∀ c ∈ F, R c) (hnew : ∀ c, g.cellCount ≤ c → R c) :
    ∃ g' E, (Editing.newUnary op x).Runs g [] g' g.cellCount ∧
      Makes K R (· = x) (· ∈ F) g g' g.cellCount (Node.newUnary op n) E ∧
      g'.slot? g.cellCount .operand = some x := by
  have hlt := hn.lt x hn.root_mem
  have hcell := newCell_newUnary g op (some x)
  have hmem : ∀ c, c ∈ (Content.unary op (some x) : Content α).operands ↔ c = x := by
    simp [Content.operands, Content.slots]
  have hself : g.cellCount ∉ (Content.unary op (some x) : Content α).operands := fun h =>
    Nat.ne_of_gt hlt ((hmem _).mp h)
  have hkeeps : Keeps (· = x) g (g.newUnary op (some x)).1 :=
    (hcell.keeps hself).mono fun c _ => (hmem c).mp
  refine ⟨_, insert g.cellCount F, rfl, ⟨?_, ?_, hkeeps, ?_⟩, hcell.slot? .operand⟩
  · have hF : g.cellCount ∉ F := fun hc => Nat.lt_irrefl _ (hn.lt _ hc)
    rw [Node.newUnary, ← hcell.tag hself]
    refine .unary hcell.content_self ?_ hF (hkeeps.holds hn fun _ _ hc => hc)
    rw [hcell.parent, if_pos ⟨(hmem x).mpr rfl, Nat.le_of_lt hlt⟩]
  · intro c hc
    rcases Finset.mem_insert.mp hc with rfl | hc
    · exact .inr (Nat.le_refl _)
    · exact .inl hc
  · refine edits_newUnary op (hnew _ (Nat.le_refl _)) ?_
    rintro y ⟨rfl⟩
    exact hR _ hn.root_mem

theorem newBinary_spec (op : BinaryOp) {l r : Nat} {m n : Node α} {E F : Finset Nat}
    (hm : Holds g l m E) (hn : Holds g r n F) (hEF : Disjoint E F)
    (hRE : ∀ c ∈ E, R c) (hRF : ∀ c ∈ F, R c) (hnew : ∀ c, g.cellCount ≤ c → R c) :
    ∃ g' D, (Editing.newBinary op l r).Runs g [] g' g.cellCount ∧
      Makes K R (fun c => c = l ∨ c = r) (fun c => c ∈ E ∨ c ∈ F) g g' g.cellCount
        (Node.newBinary op m n) D ∧
      g'.slot? g.cellCount .left = some l ∧ g'.slot? g.cellCount .right = some r := by
  have hltl := hm.lt l hm.root_mem
  have hltr := hn.lt r hn.root_mem
  have hcell := newCell_newBinary g op (some l) (some r)
  have hmem : ∀ c, c ∈ (Content.binary op (some l) (some r) : Content α).operands ↔ c = l ∨ c = r := by
    simp [Content.operands, Content.slots]
  have hself : g.cellCount ∉ (Content.binary op (some l) (some r) : Content α).operands := fun h =>
    ((hmem _).mp h).elim (Nat.ne_of_gt hltl) (Nat.ne_of_gt hltr)
  have hkeeps : Keeps (fun c => c = l ∨ c = r) g (g.newBinary op (some l) (some r)).1 :=
    (hcell.keeps hself).mono fun c _ => (hmem c).mp
  refine ⟨_, insert g.cellCount (E ∪ F), rfl, ⟨?_, ?_, hkeeps, ?_⟩,
    (hcell.slot? .left).trans (Content.get?_left _ _ _), (hcell.slot? .right).trans (Content.get?_right _ _ _)⟩
  · have hE : g.cellCount ∉ E := fun hc => Nat.lt_irrefl _ (hm.lt _ hc)
    have hF : g.cellCount ∉ F := fun hc => Nat.lt_irrefl _ (hn.lt _ hc)
    -- the trees have no cell in common, so to adopt one root is nothing to the other tree
    have hm' : Holds (g.newBinary op (some l) (some r)).1 l m E := by
      refine hkeeps.holds hm ?_
      rintro c hc (rfl | rfl)
      · rfl
      · exact absurd hn.root_mem (Finset.disjoint_left.mp hEF hc)
    have hn' : Holds (g.newBinary op (some l) (some r)).1 r n F := by
      refine hkeeps.holds hn ?_
      rintro c hc (rfl | rfl)
      · exact absurd hc (Finset.disjoint_left.mp hEF hm.root_mem)
      · rfl
    rw [Node.newBinary, ← hcell.tag hself]
    refine .binary hcell.content_self ?_ ?_ hE hF hEF hm' hn'
    · rw [hcell.parent, if_pos ⟨(hmem l).mpr (.inl rfl), Nat.le_of_lt hltl⟩]
    · rw [hcell.parent, if_pos ⟨(hmem r).mpr (.inr rfl), Nat.le_of_lt hltr⟩]
  · intro c hc
    simp only [Finset.mem_insert, Finset.mem_union] at hc
    rcases hc with rfl | hc
    · exact .inr (Nat.le_refl _)
    · exact .inl hc
  · refine edits_newBinary op (hnew _ (Nat.le_refl _)) ?_ ?_
    · rintro y ⟨rfl⟩
      exact hRE _ hm.root_mem
    · rintro y ⟨rfl⟩
      exact hRF _ hn.root_mem

/-! ### Sketches -/

/-- The part of a tree at a path, in its cells. -/
def PartAt (g : Graph α) (i : Nat) (n : Node α) (cell : Path → Nat) (cells : Path → Finset Nat)
    (p : Path) : Prop :=
  g.follow i p = some (cell p) ∧ Holds g (cell p) (n.part p) (cells p)

/-- The tree of a sketch has been made of the parts that are at their paths, and each
of them is now where the sketch puts it. -/
structure Sketched (K : Graph α → Nat → Prop) (R : Nat → Prop) (cell : Path → Nat)
    (cells : Path → Finset Nat) (sk : Sketch α) (g g' : Graph α) (y : Nat) (m : Node α)
    (E : Finset Nat) : Prop
    extends Makes K R (fun c => ∃ p ∈ sk.parts, cell p = c) (fun c => ∃ p ∈ sk.parts, c ∈ cells p)
      g g' y m E where
  root : (∃ p ∈ sk.parts, cell p = y) ∨ g.cellCount ≤ y
  puts : ∀ p q, sk.Puts p q → g'.follow y q = some (cell p)

namespace Sketched

variable {g₁ g₂ : Graph α} {cell : Path → Nat} {cells : Path → Finset Nat} {sk l r : Sketch α}
  {x y z : Nat} {m n : Node α} {D E F : Finset Nat}

theorem region (h : Sketched K R cell cells sk g g' y m E) (hR : ∀ p ∈ sk.parts, ∀ c ∈ cells p, R c)
    (hnew : ∀ c, g.cellCount ≤ c → R c) : ∀ c ∈ E, R c := by
  intro c hc
  rcases h.cells c hc with ⟨p, hp, hcp⟩ | hle
  · exact hR p hp c hcp
  · exact hnew c hle

theorem unary {op : UnaryOp} (h : Sketched K R cell cells sk g g₁ x m E)
    (hnew : Makes K R (· = x) (· ∈ E) g₁ g₂ g₁.cellCount n F)
    (hslot : g₂.slot? g₁.cellCount .operand = some x) :
    Sketched K R cell cells (.unary op sk) g g₂ g₁.cellCount n F where
  holds := hnew.holds
  cells c hc := by
    rcases hnew.cells c hc with hc | hle
    · exact h.cells c hc
    · exact .inr (h.keeps.count.trans hle)
  keeps := (h.keeps.trans hnew.keeps).mono fun c hlt hc => by
    rcases hc with hc | rfl
    · exact hc
    · exact h.root.resolve_right (Nat.not_le_of_lt hlt)
  edits := h.edits.trans hnew.edits
  root := .inr h.keeps.count
  puts := by
    rintro p q ⟨⟩
    next q hq => simpa [Graph.follow, hslot] using hnew.keeps.follow (h.puts p q hq)

theorem binary {op : BinaryOp} (hl : Sketched K R cell cells l g g₁ x m E)
    (hr : Sketched K R cell cells r g₁ g₂ y n F) {k : Node α}
    (hnew : Makes K R (fun c => c = x ∨ c = y) (fun c => c ∈ E ∨ c ∈ F) g₂ g' g₂.cellCount k D)
    (hleft : g'.slot? g₂.cellCount .left = some x) (hright : g'.slot? g₂.cellCount .right = some y) :
    Sketched K R cell cells (.binary op l r) g g' g₂.cellCount k D where
  holds := hnew.holds
  cells c hc := by
    simp only [Sketch.parts, List.mem_append]
    rcases hnew.cells c hc with (hc | hc) | hle
    · rcases hl.cells c hc with ⟨p, hp, hcp⟩ | hle
      · exact .inl ⟨p, .inl hp, hcp⟩
      · exact .inr hle
    · rcases hr.cells c hc with ⟨q, hq, hcq⟩ | hle
      · exact .inl ⟨q, .inr hq, hcq⟩
      · exact .inr (hl.keeps.count.trans hle)
    · exact .inr ((hl.keeps.count.trans hr.keeps.count).trans hle)
  keeps := (hl.keeps.trans (hr.keeps.trans hnew.keeps)).mono fun c hlt hc => by
    simp only [Sketch.parts, List.mem_append]
    rcases hc with ⟨p, hp, hcp⟩ | ⟨q, hq, hcq⟩ | rfl | rfl
    · exact ⟨p, .inl hp, hcp⟩
    · exact ⟨q, .inr hq, hcq⟩
    · obtain ⟨p, hp, hcp⟩ := hl.root.resolve_right (Nat.not_le_of_lt hlt)
      exact ⟨p, .inl hp, hcp⟩
    · obtain ⟨q, hq, hcq⟩ := hr.root.resolve_right (Nat.not_le_of_lt (hlt.trans_le hl.keeps.count))
      exact ⟨q, .inr hq, hcq⟩
  edits := hl.edits.trans (hr.edits.trans hnew.edits)
  root := .inr (hl.keeps.count.trans hr.keeps.count)
  puts := by
    rintro p q ⟨⟩
    · next q hq =>
      simpa [Graph.follow, hleft] using hnew.keeps.follow (hr.keeps.follow (hl.puts p q hq))
    · next q hq => simpa [Graph.follow, hright] using hnew.keeps.follow (hr.puts p q hq)

/-- What has been made of some parts stands while something is made of others, and
has no cell in common with it. -/
theorem beside (hl : Sketched K R cell cells l g g₁ x m E) (hr : Sketched K R cell cells r g₁ g₂ y n F)
    (hroot : ∀ q ∈ r.parts, cell q ∈ cells q) (hlt : ∀ q ∈ r.parts, ∀ c ∈ cells q, c < g.cellCount)
    (hacross : ∀ p ∈ l.parts, ∀ q ∈ r.parts, Disjoint (cells p) (cells q)) :
    Holds g₂ x m E ∧ Disjoint E F := by
  have hunused : ∀ q ∈ r.parts, ∀ c ∈ cells q, c ∉ E := by
    intro q hq c hcq hcE
    rcases hl.cells c hcE with ⟨p, hp, hcp⟩ | hle
    · exact Finset.disjoint_left.mp (hacross p hp q hq) hcp hcq
    · exact Nat.not_le_of_lt (hlt q hq c hcq) hle
  constructor
  · refine hr.keeps.holds hl.holds ?_
    rintro c hc ⟨q, hq, rfl⟩
    exact absurd hc (hunused q hq _ (hroot q hq))
  · rw [Finset.disjoint_left]
    intro c hcE hcF
    rcases hr.cells c hcF with ⟨q, hq, hcq⟩ | hle
    · exact hunused q hq c hcq hcE
    · exact Nat.not_le_of_lt (hl.holds.lt c hcE) hle

end Sketched

/-- A sketch is made of parts that have no cells in common. -/
theorem sketch_spec [Arithmetic α] {i : Nat} {n : Node α} {cell : Path → Nat}
    {cells : Path → Finset Nat} (sk : Sketch α)
    (hparts : ∀ p ∈ sk.parts, PartAt g i n cell cells p)
    (hdisj : sk.parts.Pairwise fun p q => Disjoint (cells p) (cells q))
    (hR : ∀ p ∈ sk.parts, ∀ c ∈ cells p, R c) (hnew : ∀ c, g.cellCount ≤ c → R c) :
    ∃ g' y E, (Editing.sketch i sk).Runs g [] g' y ∧
      Sketched K R cell cells sk g g' y (n.build sk) E := by
  induction sk generalizing g with
  | part p =>
      obtain ⟨hfollow, hholds⟩ := hparts p (by simp [Sketch.parts])
      have hp : p ∈ (Sketch.part p : Sketch α).parts := by simp [Sketch.parts]
      refine ⟨g, cell p, cells p, ?_, ⟨⟨hholds, fun c hc => .inl ⟨p, hp, hc⟩, .refl, .refl⟩,
        .inl ⟨p, hp, rfl⟩, ?_⟩⟩
      · simp [Editing.Runs, Editing.sketch, Editing.locate, hfollow]
      · rintro _ _ ⟨⟩
        rfl
  | const v =>
      obtain ⟨g', E, hrun, hmakes⟩ := newConst_spec (g := g) v
      exact ⟨g', _, E, hrun, ⟨⟨hmakes.holds, fun c hc => (hmakes.cells c hc).imp_left False.elim,
        hmakes.keeps.mono fun _ _ h => h.elim, hmakes.edits⟩, .inr (Nat.le_refl _),
        fun _ _ hputs => by cases hputs⟩⟩
  | unary op x ih =>
      obtain ⟨g₁, y, E, hrun₁, h₁⟩ := ih hparts hdisj hR hnew
      obtain ⟨g₂, E', hrun₂, h₂, hslot⟩ := newUnary_spec (K := K) op h₁.holds (h₁.region hR hnew)
        (fun c hc => hnew c (h₁.keeps.count.trans hc))
      exact ⟨g₂, _, E', hrun₁.silent hrun₂, h₁.unary h₂ hslot⟩
  | binary op l r ihl ihr =>
      simp only [Sketch.parts, List.mem_append] at hparts hR
      rw [Sketch.parts, List.pairwise_append] at hdisj
      obtain ⟨hdisjl, hdisjr, hacross⟩ := hdisj
      have hroot : ∀ p, p ∈ l.parts ∨ p ∈ r.parts → cell p ∈ cells p :=
        fun p hp => (hparts p hp).2.root_mem
      obtain ⟨g₁, y, E, hrun₁, h₁⟩ := ihl (fun p hp => hparts p (.inl hp)) hdisjl
        (fun p hp => hR p (.inl hp)) hnew
      -- the parts on the right stand until they are used
      have hpartsr : ∀ q ∈ r.parts, PartAt g₁ i n cell cells q := by
        intro q hq
        obtain ⟨hfollow, hholds⟩ := hparts q (.inr hq)
        refine ⟨h₁.keeps.follow hfollow, h₁.keeps.holds hholds ?_⟩
        rintro c hc ⟨p, hp, rfl⟩
        exact absurd hc (Finset.disjoint_left.mp (hacross p hp q hq) (hroot p (.inl hp)))
      have hnew₁ : ∀ c, g₁.cellCount ≤ c → R c := fun c hc => hnew c (h₁.keeps.count.trans hc)
      obtain ⟨g₂, z, F, hrun₂, h₂⟩ := ihr hpartsr hdisjr (fun p hp => hR p (.inr hp)) hnew₁
      obtain ⟨hleft, hEF⟩ := h₁.beside h₂ (fun q hq => hroot q (.inr hq))
        (fun q hq => (hparts q (.inr hq)).2.lt) hacross
      obtain ⟨g₃, D, hrun₃, h₃, hslotl, hslotr⟩ := newBinary_spec (K := K) op hleft h₂.holds hEF
        (h₁.region (fun p hp => hR p (.inl hp)) hnew) (h₂.region (fun q hq => hR q (.inr hq)) hnew₁)
        (fun c hc => hnew₁ c (h₂.keeps.count.trans hc))
      exact ⟨g₃, _, D, hrun₁.silent (hrun₂.silent hrun₃), h₁.binary h₂ h₃ hslotl hslotr⟩

end Graph

end Formula
