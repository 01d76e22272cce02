/-
Formula/Proofs/Graph/Tree.lean

Trees in a graph.  `g.Holds i n F` says that the tree below the cell `i` is
`n`, marks included, and that `F` are its cells: every slot is filled, every
operand links back to its owner, and no cell is met twice.  What stands above
`i` is left open, even the parent of `i`.

Two facts carry most arguments.  The cells of a tree are closed under operands,
and on a graph whose parents do not lie (`Honest`) a way up can therefore not
enter a tree from outside.  So an edit outside a tree forgets nothing in it.

`Context g i n p k F` is a tree with a gap: the tree `n` below `i` without the
part at the path `p`, where the cell `k` sits.
-/
import Formula.Proofs.Graph.Cells
import Formula.Simplify.Node
import Mathlib.Data.Finset.Lattice.Basic

namespace Formula

universe u

namespace Graph

variable {α : Type u}

/-- Parents do not lie: a cell is in a slot of its parent. -/
def Honest (g : Graph α) : Prop := ∀ i p, g.parent? i = some p → i ∈ g.operands p

/-- The mark of a cell as a tag. -/
def tag (g : Graph α) (i : Nat) : Tag := ⟨g.isSettled i⟩

/-- The tree below a cell, and its cells. -/
inductive Holds (g : Graph α) : Nat → Node α → Finset Nat → Prop
  | const {i : Nat} {v : α} : g.content? i = some (.const v) → Holds g i (.const (g.tag i) v) {i}
  | var {i : Nat} {x : String} : g.content? i = some (.var x) → Holds g i (.var (g.tag i) x) {i}
  | unary {i x : Nat} {op : UnaryOp} {n : Node α} {F : Finset Nat} :
      g.content? i = some (.unary op (some x)) → g.parent? x = some i → i ∉ F →
      Holds g x n F → Holds g i (.unary (g.tag i) op n) (insert i F)
  | binary {i l r : Nat} {op : BinaryOp} {m n : Node α} {E F : Finset Nat} :
      g.content? i = some (.binary op (some l) (some r)) →
      g.parent? l = some i → g.parent? r = some i → i ∉ E → i ∉ F → Disjoint E F →
      Holds g l m E → Holds g r n F → Holds g i (.binary (g.tag i) op m n) (insert i (E ∪ F))

/-- What is kept from an owner to the cells in its slots is kept along paths. -/
theorem of_follow {g : Graph α} {S : Nat → Prop} (hslot : ∀ c s x, S c → g.slot? c s = some x → S x)
    {i c : Nat} (hi : S i) {path : Path} (hpath : g.follow i path = some c) : S c := by
  induction path generalizing i with
  | nil => exact Option.some.inj hpath ▸ hi
  | cons s path ih =>
      obtain ⟨x, hx, hpath⟩ := Option.bind_eq_some_iff.mp hpath
      exact ih (hslot i s x hi hx) hpath

namespace Holds

variable {g g' : Graph α} {i : Nat} {n : Node α} {F : Finset Nat}

theorem root_mem (h : Holds g i n F) : i ∈ F := by
  cases h <;> simp

theorem lt (h : Holds g i n F) : ∀ c ∈ F, c < g.cellCount := by
  induction h with
  | const hc => simpa using lt_of_content? hc
  | var hc => simpa using lt_of_content? hc
  | unary hc _ _ _ ih => simpa using ⟨lt_of_content? hc, ih⟩
  | binary hc _ _ _ _ _ _ _ ihl ihr =>
      intro c hmem
      simp only [Finset.mem_insert, Finset.mem_union] at hmem
      rcases hmem with rfl | hmem | hmem
      · exact lt_of_content? hc
      · exact ihl c hmem
      · exact ihr c hmem

theorem tag_eq (h : Holds g i n F) : n.tag = g.tag i := by
  cases h <;> rfl

/-- A cell has one tree. -/
theorem unique {n' : Node α} {F' : Finset Nat} (h : Holds g i n F) (h' : Holds g i n' F') :
    n = n' ∧ F = F' := by
  induction h generalizing n' F' with
  | const hc => cases h' <;> simp_all
  | var hc => cases h' <;> simp_all
  | unary hc _ _ _ ih =>
      cases h' with
      | unary hc' _ _ hx =>
          obtain ⟨rfl, hxx⟩ : _ ∧ _ := by simpa [hc] using hc'
          subst hxx
          obtain ⟨rfl, rfl⟩ := ih hx
          exact ⟨rfl, rfl⟩
      | _ => simp_all
  | binary hc _ _ _ _ _ _ _ ihl ihr =>
      cases h' with
      | binary hc' _ _ _ _ _ hl hr =>
          obtain ⟨rfl, hll, hrr⟩ : _ ∧ _ ∧ _ := by simpa [hc] using hc'
          subst hll hrr
          obtain ⟨rfl, rfl⟩ := ihl hl
          obtain ⟨rfl, rfl⟩ := ihr hr
          exact ⟨rfl, rfl⟩
      | _ => simp_all

/-- Below the root, the parent of a cell of a tree is in the tree. -/
theorem exists_parent (h : Holds g i n F) :
    ∀ c ∈ F, c ≠ i → ∃ p ∈ F, g.parent? c = some p := by
  induction h with
  | const => simp
  | var => simp
  | @unary i x _ _ F hc hx hi hn ih =>
      intro c hmem hne
      have hc' := (Finset.mem_insert.mp hmem).resolve_left hne
      by_cases hcx : c = x
      · exact ⟨i, Finset.mem_insert_self i F, hcx ▸ hx⟩
      · obtain ⟨p, hp, hparent⟩ := ih c hc' hcx
        exact ⟨p, Finset.mem_insert_of_mem hp, hparent⟩
  | @binary i l r _ _ _ E F hc hl hr hiE hiF hEF hm hn ihl ihr =>
      intro c hmem hne
      rcases Finset.mem_union.mp ((Finset.mem_insert.mp hmem).resolve_left hne) with hc' | hc'
      · by_cases hcl : c = l
        · exact ⟨i, Finset.mem_insert_self i _, hcl ▸ hl⟩
        · obtain ⟨p, hp, hparent⟩ := ihl c hc' hcl
          exact ⟨p, Finset.mem_insert_of_mem (Finset.mem_union_left F hp), hparent⟩
      · by_cases hcr : c = r
        · exact ⟨i, Finset.mem_insert_self i _, hcr ▸ hr⟩
        · obtain ⟨p, hp, hparent⟩ := ihr c hc' hcr
          exact ⟨p, Finset.mem_insert_of_mem (Finset.mem_union_right E hp), hparent⟩

/-- The root is above every cell of a tree. -/
theorem up_root (h : Holds g i n F) : ∀ c ∈ F, g.Up c i := by
  induction h with
  | const => simp [Up, Relation.ReflTransGen.refl]
  | var => simp [Up, Relation.ReflTransGen.refl]
  | unary hc hx hi hn ih =>
      intro c hmem
      rcases Finset.mem_insert.mp hmem with rfl | hmem
      · exact .refl
      · exact (ih c hmem).tail hx
  | binary hc hl hr hiE hiF hEF hm hn ihl ihr =>
      intro c hmem
      rcases Finset.mem_insert.mp hmem with rfl | hmem
      · exact .refl
      rcases Finset.mem_union.mp hmem with hmem | hmem
      · exact (ihl c hmem).tail hl
      · exact (ihr c hmem).tail hr

/-- The operands of a cell of a tree are cells of the tree, and not its root. -/
theorem operand_mem (h : Holds g i n F) :
    ∀ c ∈ F, ∀ x ∈ g.operands c, x ∈ F ∧ x ≠ i := by
  induction h with
  | const hc => simp [operands, hc, Content.operands, Content.slots]
  | var hc => simp [operands, hc, Content.operands, Content.slots]
  | @unary i x _ _ F hc hx hi hn ih =>
      intro c hmem y hy
      rcases Finset.mem_insert.mp hmem with rfl | hmem
      · obtain rfl : y = x := by simpa [operands, hc, Content.operands, Content.slots] using hy
        exact ⟨Finset.mem_insert_of_mem hn.root_mem, fun heq => hi (heq ▸ hn.root_mem)⟩
      · have hyF := (ih c hmem y hy).1
        exact ⟨Finset.mem_insert_of_mem hyF, fun heq => hi (heq ▸ hyF)⟩
  | @binary i l r _ _ _ E F hc hl hr hiE hiF hEF hm hn ihl ihr =>
      -- no cell below the root is the root
      have hne : ∀ y ∈ E ∪ F, y ∈ insert i (E ∪ F) ∧ y ≠ i := by
        intro y hy
        refine ⟨Finset.mem_insert_of_mem hy, ?_⟩
        rintro rfl
        rcases Finset.mem_union.mp hy with hy | hy
        · exact hiE hy
        · exact hiF hy
      intro c hmem y hy
      rcases Finset.mem_insert.mp hmem with rfl | hmem
      · have hylr : y = l ∨ y = r := by
          simpa [operands, hc, Content.operands, Content.slots] using hy
        rcases hylr with rfl | rfl
        · exact hne _ (Finset.mem_union_left F hm.root_mem)
        · exact hne _ (Finset.mem_union_right E hn.root_mem)
      rcases Finset.mem_union.mp hmem with hmem | hmem
      · exact hne y (Finset.mem_union_left F (ihl c hmem y hy).1)
      · exact hne y (Finset.mem_union_right E (ihr c hmem y hy).1)

/-- Where the cells hold the same and link back there is the same tree but for its tags,
and the tags are the same if the marks are. -/
theorem exists_retagged (h : Holds g i n F) (hcontent : ∀ c ∈ F, g'.content? c = g.content? c)
    (hparent : ∀ c ∈ F, c ≠ i → g'.parent? c = g.parent? c) :
    ∃ n', n'.expr = n.expr ∧ Holds g' i n' F ∧
      ((∀ c ∈ F, g'.isSettled c = g.isSettled c) → n' = n) := by
  have htag : ∀ {c}, g'.isSettled c = g.isSettled c → g'.tag c = g.tag c := congrArg Tag.mk
  induction h with
  | @const i v hc =>
      refine ⟨.const (g'.tag i) v, rfl, .const (by rw [hcontent i (by simp), hc]), fun hsettled => ?_⟩
      rw [htag (hsettled i (by simp))]
  | @var i x hc =>
      refine ⟨.var (g'.tag i) x, rfl, .var (by rw [hcontent i (by simp), hc]), fun hsettled => ?_⟩
      rw [htag (hsettled i (by simp))]
  | @unary i x op n F hc hx hi hn ih =>
      -- only the root may have got another parent
      have hxi : x ≠ i := fun heq => hi (heq ▸ hn.root_mem)
      obtain ⟨n', hexpr, hn', hsame⟩ := ih
        (fun c hmem => hcontent c (Finset.mem_insert_of_mem hmem))
        (fun c hmem _ => hparent c (Finset.mem_insert_of_mem hmem) fun heq => hi (heq ▸ hmem))
      refine ⟨.unary (g'.tag i) op n', by simp [Node.expr, hexpr],
        .unary (by rw [hcontent i (by simp), hc]) ?_ hi hn', fun hsettled => ?_⟩
      · rw [hparent x (Finset.mem_insert_of_mem hn.root_mem) hxi, hx]
      · rw [htag (hsettled i (by simp)),
          hsame fun c hmem => hsettled c (Finset.mem_insert_of_mem hmem)]
  | @binary i l r op m n E F hc hl hr hiE hiF hEF hm hn ihl ihr =>
      have hE : ∀ c ∈ E, c ∈ insert i (E ∪ F) := fun c hmem =>
        Finset.mem_insert_of_mem (Finset.mem_union_left F hmem)
      have hF : ∀ c ∈ F, c ∈ insert i (E ∪ F) := fun c hmem =>
        Finset.mem_insert_of_mem (Finset.mem_union_right E hmem)
      have hneE : ∀ c ∈ E, c ≠ i := fun c hmem heq => hiE (heq ▸ hmem)
      have hneF : ∀ c ∈ F, c ≠ i := fun c hmem heq => hiF (heq ▸ hmem)
      obtain ⟨m', hexprl, hm', hsamel⟩ := ihl (fun c hmem => hcontent c (hE c hmem))
        (fun c hmem _ => hparent c (hE c hmem) (hneE c hmem))
      obtain ⟨n', hexprr, hn', hsamer⟩ := ihr (fun c hmem => hcontent c (hF c hmem))
        (fun c hmem _ => hparent c (hF c hmem) (hneF c hmem))
      refine ⟨.binary (g'.tag i) op m' n', by simp [Node.expr, hexprl, hexprr],
        .binary (by rw [hcontent i (by simp), hc]) ?_ ?_ hiE hiF hEF hm' hn', fun hsettled => ?_⟩
      · rw [hparent l (hE l hm.root_mem) (hneE l hm.root_mem), hl]
      · rw [hparent r (hF r hn.root_mem) (hneF r hn.root_mem), hr]
      · rw [htag (hsettled i (by simp)), hsamel fun c hmem => hsettled c (hE c hmem),
          hsamer fun c hmem => hsettled c (hF c hmem)]

/-- A tree stands as long as its cells hold the same, and link back. -/
theorem congr (h : Holds g i n F) (hcontent : ∀ c ∈ F, g'.content? c = g.content? c)
    (hsettled : ∀ c ∈ F, g'.isSettled c = g.isSettled c)
    (hparent : ∀ c ∈ F, c ≠ i → g'.parent? c = g.parent? c) : Holds g' i n F := by
  obtain ⟨n', -, hn', hsame⟩ := h.exists_retagged hcontent hparent
  exact hsame hsettled ▸ hn'

/-- Where only marks may differ there is the same tree but for its tags. -/
theorem retag (h : Holds g i n F) (hcontent : ∀ c ∈ F, g'.content? c = g.content? c)
    (hparent : ∀ c ∈ F, c ≠ i → g'.parent? c = g.parent? c) :
    ∃ n', n'.expr = n.expr ∧ Holds g' i n' F := by
  obtain ⟨n', hexpr, hn', -⟩ := h.exists_retagged hcontent hparent
  exact ⟨n', hexpr, hn'⟩

/-! ### Reading a tree out -/

theorem depth_le (h : Holds g i n F) : n.expr.depth ≤ F.card := by
  induction h with
  | const => simp [Node.expr, Expr.depth]
  | var => simp [Node.expr, Expr.depth]
  | unary _ _ hi _ ih =>
      rw [Finset.card_insert_of_notMem hi]
      simp only [Node.expr, Expr.depth]
      omega
  | binary _ _ _ hiE hiF hEF _ _ ihl ihr =>
      rw [Finset.card_insert_of_notMem (by simp [hiE, hiF]), Finset.card_union_of_disjoint hEF]
      simp only [Node.expr, Expr.depth]
      omega

theorem card_le (h : Holds g i n F) : F.card ≤ g.cellCount := by
  have hsub : F ⊆ Finset.range g.cellCount := fun c hmem => Finset.mem_range.mpr (h.lt c hmem)
  simpa using Finset.card_le_card hsub

theorem size_eq_card (h : Holds g i n F) : n.size = F.card := by
  induction h with
  | const => simp [Node.size]
  | var => simp [Node.size]
  | unary _ _ hi _ ih =>
      rw [Finset.card_insert_of_notMem hi, Node.size, ih, Nat.add_comm]
  | binary _ _ _ hiE hiF hEF _ _ ihl ihr =>
      rw [Finset.card_insert_of_notMem (by simp [hiE, hiF]), Finset.card_union_of_disjoint hEF,
        Node.size, ihl, ihr, Nat.add_comm]

theorem exprWithin_eq (h : Holds g i n F) (fuel : Nat) (hfuel : n.expr.depth ≤ fuel) :
    g.exprWithin fuel (some i) = n.expr := by
  induction h generalizing fuel with
  | const hc =>
      cases fuel with
      | zero => simp [Node.expr, Expr.depth] at hfuel
      | succ fuel => simp [exprWithin, hc, Node.expr]
  | var hc =>
      cases fuel with
      | zero => simp [Node.expr, Expr.depth] at hfuel
      | succ fuel => simp [exprWithin, hc, Node.expr]
  | unary hc _ _ _ ih =>
      simp only [Node.expr, Expr.depth] at hfuel
      cases fuel with
      | zero => omega
      | succ fuel => simp only [exprWithin, hc, Node.expr, ih fuel (by omega)]
  | binary hc _ _ _ _ _ _ _ ihl ihr =>
      simp only [Node.expr, Expr.depth] at hfuel
      cases fuel with
      | zero => omega
      | succ fuel => simp only [exprWithin, hc, Node.expr, ihl fuel (by omega),
          ihr fuel (by omega)]

/-- What is read out below a cell is the tree there. -/
theorem expr_eq (h : Holds g i n F) : g.expr i = n.expr :=
  h.exprWithin_eq _ (h.depth_le.trans h.card_le)

/-! ### Parts -/

theorem slot?_of_operand? (h : Holds g i n F) {s : Slot} {m : Node α} (hm : n.operand? s = some m) :
    ∃ x E, g.slot? i s = some x ∧ Holds g x m E ∧ E ⊆ F ∧ i ∉ E ∧ g.parent? x = some i := by
  cases h with
  | const => cases s <;> simp [Node.operand?] at hm
  | var => cases s <;> simp [Node.operand?] at hm
  | unary hc hx hi hn =>
      cases s <;> simp only [Node.operand?, Option.some.injEq, reduceCtorEq] at hm
      subst hm
      exact ⟨_, _, by simp [slot?, hc], hn,
        Finset.subset_insert _ _, hi, hx⟩
  | @binary _ _ _ _ _ _ E F hc hl hr hiE hiF hEF hm' hn =>
      cases s <;> simp only [Node.operand?, Option.some.injEq, reduceCtorEq] at hm
      · subst hm
        exact ⟨_, _, by simp [slot?, hc], hm',
          Finset.subset_union_left.trans (Finset.subset_insert _ _), hiE, hl⟩
      · subst hm
        exact ⟨_, _, by simp [slot?, hc], hn,
          Finset.subset_union_right.trans (Finset.subset_insert _ _), hiF, hr⟩

/-- A path that leads to a part of the tree leads to the cell of the part. -/
theorem follow_of_at? (h : Holds g i n F) {p : Path} {m : Node α} (hm : n.at? p = some m) :
    ∃ x E, g.follow i p = some x ∧ Holds g x m E ∧ E ⊆ F := by
  induction p generalizing i n F with
  | nil =>
      obtain rfl := Option.some.inj hm
      exact ⟨i, F, rfl, h, subset_rfl⟩
  | cons s p ih =>
      obtain ⟨y, hy, hm⟩ := Option.bind_eq_some_iff.mp hm
      obtain ⟨x, E, hx, hE, hsub, -, -⟩ := h.slot?_of_operand? hy
      obtain ⟨z, E', hz, hE', hsub'⟩ := ih hE hm
      exact ⟨z, E', by simp [follow, hx, hz], hE', hsub'.trans hsub⟩

/-- Whatever a path leads to holds the part there. -/
theorem exists_of_follow (h : Holds g i n F) {p : Path} {c : Nat} (hc : g.follow i p = some c) :
    ∃ m E, n.at? p = some m ∧ Holds g c m E := by
  induction p generalizing i n F with
  | nil =>
      obtain rfl := Option.some.inj hc
      exact ⟨n, F, rfl, h⟩
  | cons s p ih =>
      obtain ⟨x, hx, hrest⟩ := Option.bind_eq_some_iff.mp hc
      cases h with
      | const hv | var hv => cases s <;> simp [slot?, hv, Content.get?, Content.slots] at hx
      | unary hv _ _ hn =>
          cases s with
          | operand =>
              obtain rfl : _ = x := by simpa [slot?, hv] using hx
              exact ih hn hrest
          | left | right =>
              rw [slot?, hv] at hx
              cases hx
      | binary hv _ _ _ _ _ hl hr =>
          cases s with
          | left =>
              obtain rfl : _ = x := by simpa [slot?, hv] using hx
              exact ih hl hrest
          | right =>
              obtain rfl : _ = x := by simpa [slot?, hv] using hx
              exact ih hr hrest
          | operand =>
              rw [slot?, hv] at hx
              cases hx

/-- The cells of operands in different slots are different. -/
theorem disjoint_operands (h : Holds g i n F) {s t : Slot} (hst : s ≠ t) {a b : Node α}
    (ha : n.operand? s = some a) (hb : n.operand? t = some b) {x y : Nat} {A B : Finset Nat}
    (hx : g.slot? i s = some x) (hy : g.slot? i t = some y) (hA : Holds g x a A)
    (hB : Holds g y b B) : Disjoint A B := by
  cases h with
  | const => cases s <;> simp [Node.operand?] at ha
  | var => cases s <;> simp [Node.operand?] at ha
  | unary =>
      cases s <;> cases t <;> simp [Node.operand?] at ha hb
      exact absurd rfl hst
  | @binary _ l r _ _ _ _ _ hc hl hr hiE hiF hEF hm hn =>
      have hleft : g.slot? i .left = some l := by simp [slot?, hc]
      have hright : g.slot? i .right = some r := by simp [slot?, hc]
      cases s <;> cases t <;>
        simp only [Node.operand?, Option.some.injEq, reduceCtorEq] at ha hb
      · exact absurd rfl hst
      · obtain rfl := Option.some.inj (hx.symm.trans hleft)
        obtain rfl := Option.some.inj (hy.symm.trans hright)
        rw [(hA.unique hm).2, (hB.unique hn).2]
        exact hEF
      · obtain rfl := Option.some.inj (hx.symm.trans hright)
        obtain rfl := Option.some.inj (hy.symm.trans hleft)
        rw [(hA.unique hn).2, (hB.unique hm).2]
        exact hEF.symm
      · exact absurd rfl hst

/-- Paths within a tree lead to the same cells as long as the slots in the tree
hold the same. -/
theorem follow_congr (h : Holds g i n F) (hslot : ∀ c ∈ F, ∀ t, g'.slot? c t = g.slot? c t)
    {p : Path} {m : Node α} (hm : n.at? p = some m) : g'.follow i p = g.follow i p := by
  induction p generalizing i n F with
  | nil => rfl
  | cons s p ih =>
      obtain ⟨a, ha, hm⟩ := Option.bind_eq_some_iff.mp hm
      obtain ⟨x, E, hx, hE, hsub, -, -⟩ := h.slot?_of_operand? ha
      simp only [follow, hslot i h.root_mem, hx, Option.bind_some]
      exact ih hE (fun c hc => hslot c (hsub hc)) hm

/-- The cells at the ends of all paths within a tree, and the cells of the parts
there. -/
theorem exists_parts (h : Holds g i n F) :
    ∃ (cell : Path → Nat) (cells : Path → Finset Nat), ∀ p m, n.at? p = some m →
      g.follow i p = some (cell p) ∧ Holds g (cell p) m (cells p) ∧ cells p ⊆ F := by
  have hpart : ∀ p, ∃ c C, ∀ m, n.at? p = some m →
      g.follow i p = some c ∧ Holds g c m C ∧ C ⊆ F := by
    intro p
    cases hp : n.at? p with
    | none => exact ⟨0, ∅, nofun⟩
    | some m =>
        obtain ⟨c, C, hc⟩ := h.follow_of_at? hp
        exact ⟨c, C, fun m' hm' => Option.some.inj hm' ▸ hc⟩
  choose cell cells h using hpart
  exact ⟨cell, cells, h⟩

end Holds

/-! ### Edits beside a tree -/

section

variable {g : Graph α}

/-- On a graph whose parents do not lie, no way up enters a set of cells that
is closed under operands. -/
theorem not_up_of_closed (hg : Honest g) {F : Finset Nat}
    (hclosed : ∀ c ∈ F, ∀ x ∈ g.operands c, x ∈ F) {o c : Nat} (ho : o ∉ F) (hc : c ∈ F) :
    ¬g.Up o c := by
  intro hup
  induction hup with
  | refl => exact ho hc
  | tail _ hparent ih => exact ih (hclosed _ hc _ (hg _ _ hparent))

end

namespace Holds

variable {g : Graph α} {i : Nat} {n : Node α} {F : Finset Nat}

/-- A way up does not enter a tree from outside. -/
theorem not_up (h : Holds g i n F) (hg : Honest g) {o c : Nat} (ho : o ∉ F) (hc : c ∈ F) :
    ¬g.Up o c :=
  not_up_of_closed hg (fun c hmem x hx => (h.operand_mem c hmem x hx).1) ho hc

/-- A slot is filled outside the tree, with nothing of the tree but its root. -/
theorem setSlot (h : Holds g i n F) {o : Nat} {s : Slot} {new : Option Nat}
    (hg : Honest (g.setSlot o s new)) (ho : o ∉ F) (hnew : ∀ y ∈ F, new = some y → y = i) :
    Holds (g.setSlot o s new) i n F := by
  by_cases hslot : g.hasSlot o s
  case neg =>
    rw [setSlot_of_not_hasSlot hslot]
    exact h
  have hcontent : ∀ c ∈ F, (g.setSlot o s new).content? c = g.content? c := by
    intro c hmem
    exact content?_setSlot_of_ne (by rintro rfl; exact ho hmem)
  have hclosed : ∀ c ∈ F, ∀ x ∈ (g.setSlot o s new).operands c, x ∈ F := by
    intro c hmem x hx
    rw [operands, hcontent c hmem] at hx
    exact (h.operand_mem c hmem x hx).1
  refine h.congr hcontent (fun c hmem => ?_) (fun c hmem hne => ?_)
  · have hup := not_up_of_closed hg hclosed ho hmem
    rw [Bool.eq_iff_iff, isSettled_setSlot hslot]
    simp [hup]
  · obtain ⟨p, hp, hparent⟩ := h.exists_parent c hmem hne
    rw [parent?_setSlot hslot, if_neg (fun hc => hne (hnew c hmem hc.1)), if_neg]
    rintro ⟨-, hco⟩
    rw [hparent] at hco
    exact ho (Option.some.inj hco ▸ hp)

/-- A slot outside the tree gets an operand from outside the tree. -/
theorem setSlot_of_not_mem (h : Holds g i n F) {o y : Nat} {s : Slot}
    (hg : Honest (g.setSlot o s (some y))) (ho : o ∉ F) (hy : y ∉ F) :
    Holds (g.setSlot o s (some y)) i n F :=
  h.setSlot hg ho fun _ hc heq => absurd (Option.some.inj heq ▸ hc) hy

/-- The value of a constant outside the tree is set. -/
theorem setValue (h : Holds g i n F) (hg : Honest g) {o : Nat} (v : α) (ho : o ∉ F) :
    Holds (g.setValue o v) i n F := by
  by_cases hconst : ∃ w, g.content? o = some (.const w)
  case neg =>
    rw [setValue_of_not_const fun w hw => hconst ⟨w, hw⟩]
    exact h
  obtain ⟨w, hw⟩ := hconst
  refine h.congr (fun c hmem => ?_) (fun c hmem => ?_) (fun c _ _ => parent?_setValue v c)
  · rw [content?_setValue hw, if_neg (by rintro rfl; exact ho hmem)]
  · rw [Bool.eq_iff_iff, isSettled_setValue hw]
    simp [h.not_up hg ho hmem]

theorem add (h : Holds g i n F) (content : Content α) : Holds (g.add content).1 i n F := by
  refine h.congr (fun c hmem => ?_) (fun c _ => isSettled_add g c content)
    (fun c _ _ => parent?_add g c content)
  rw [content?_add, if_neg (Nat.ne_of_lt (h.lt c hmem))]

theorem mark (h : Holds g i n F) {o : Nat} (ho : o ∉ F) : Holds (g.mark o) i n F := by
  refine h.congr (fun c _ => content?_mark g o c) (fun c hmem => ?_) (fun c _ _ => parent?_mark g o c)
  have hne : o ≠ c := by
    rintro rfl
    exact ho hmem
  rw [Bool.eq_iff_iff, isSettled_mark]
  simp [hne]

/-- A cell outside the tree, or its root, is taken from its parent. -/
theorem detach (h : Holds g i n F) {o : Nat} (ho : o ∈ F → o = i) : Holds (g.detach o) i n F := by
  refine h.congr (fun c _ => content?_detach g o c) (fun c _ => isSettled_detach g o c)
    (fun c hmem hne => ?_)
  rw [parent?_detach, if_neg]
  rintro rfl
  exact hne (ho hmem)

theorem sameTrees {g' : Graph α} (h : Holds g i n F) (hg : g.SameTrees g') : Holds g' i n F :=
  h.congr (fun c _ => hg.content? c) (fun c _ => hg.isSettled c) (fun c _ _ => hg.parent? c)

/-- The root of the tree is marked. -/
theorem mark_root (h : Holds g i n F) : Holds (g.mark i) i n.settle F := by
  have htag : (g.mark i).tag i = .done := by
    have hi := (isSettled_mark g i i).mpr (.inl ⟨rfl, h.lt i h.root_mem⟩)
    simp [tag, hi, Tag.done]
  cases h with
  | const hc =>
      have h := Holds.const (g := g.mark i) (by rw [content?_mark, hc])
      rwa [htag] at h
  | var hc =>
      have h := Holds.var (g := g.mark i) (by rw [content?_mark, hc])
      rwa [htag] at h
  | unary hc hx hi hn =>
      have h := Holds.unary (g := g.mark i) (by rw [content?_mark, hc])
        (by rw [parent?_mark, hx]) hi (hn.mark hi)
      rwa [htag] at h
  | binary hc hl hr hiE hiF hEF hm hn =>
      have h := Holds.binary (g := g.mark i) (by rw [content?_mark, hc])
        (by rw [parent?_mark, hl]) (by rw [parent?_mark, hr]) hiE hiF hEF (hm.mark hiE) (hn.mark hiF)
      rwa [htag] at h

end Holds

end Graph

end Formula
