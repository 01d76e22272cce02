/-
Formula/Proofs/Graph/Chains.lean

The terms of a chain as cells of a graph.  `g.chain kind i` lists the cells of the
terms below `i`, from left to right, and whether they are flipped.

When two terms are merged, one of them goes and the other one may get another
cell; all other terms have their cells and flags as before, and stand in the same
order (`Locates.chain_merge`).
-/
import Formula.Proofs.Graph.Performing
import Formula.Proofs.Simplify.Laws

namespace Formula

open Path (Apart)

namespace Graph

variable {α : Type} {g g' : Graph α} {i j : Nat} {e e' f : Expr α} {kind : ChainKind}

/-- The cells of the terms of a chain, and whether they are flipped. -/
def chain (g : Graph α) (kind : ChainKind) (i : Nat) : List (Nat × Bool) :=
  ((g.expr i).terms kind).filterMap fun t => (g.follow i t.path).map fun c => (c, t.flipped)

/-- Another cell in the place of a cell. -/
def rename (k k' : Nat) (t : Nat × Bool) : Nat × Bool := (if t.1 = k then k' else t.1, t.2)

theorem rename_self (k : Nat) : rename k k = id := by
  funext t
  obtain ⟨c, b⟩ := t
  by_cases h : c = k <;> simp [rename, h]

/-- The cells of all parts of the tree below a cell. -/
structure Locates (g : Graph α) (i : Nat) (e : Expr α) (cell : Path → Nat) : Prop where
  root : g.expr i = e
  follow : ∀ q f, e.at? q = some f → g.follow i q = some (cell q)
  expr : ∀ q f, e.at? q = some f → g.expr (cell q) = f
  ne : ∀ p q f f', e.at? p = some f → e.at? q = some f' → Apart p q → cell p ≠ cell q

theorem Holds.exists_locates {n : Node α} {F : Finset Nat} (hn : Holds g i n F) :
    ∃ cell, Locates g i n.expr cell := by
  obtain ⟨cell, cells, hparts⟩ := hn.exists_parts
  refine ⟨cell, hn.expr_eq, fun q f hf => ?_, fun q f hf => ?_, fun p q f f' hf hf' hpq => ?_⟩
  · obtain ⟨m, hm, -⟩ := Node.exists_at?_of_expr hf
    exact (hparts q m hm).1
  · obtain ⟨m, hm, rfl⟩ := Node.exists_at?_of_expr hf
    exact (hparts q m hm).2.1.expr_eq
  · obtain ⟨m, hm, -⟩ := Node.exists_at?_of_expr hf
    obtain ⟨m', hm', -⟩ := Node.exists_at?_of_expr hf'
    obtain ⟨hfollow, hholds, -⟩ := hparts p m hm
    obtain ⟨hfollow', hholds', -⟩ := hparts q m' hm'
    have hdisj := hn.disjoint_of_apart hpq.1 hpq.2 hm hm' hfollow hfollow' hholds hholds'
    intro heq
    exact Finset.disjoint_left.mp hdisj hholds.root_mem (heq ▸ hholds'.root_mem)

namespace Locates

variable {cell cell' : Path → Nat} {kept t : ChainTerm α} {L₁ L₂ : List (ChainTerm α)} {sp : Splice α}

theorem chain_eq (h : Locates g i e cell) :
    g.chain kind i = (e.termPlaces kind false).map fun p => (cell p.1, p.2) := by
  rw [chain, h.root, Expr.termPlaces, List.map_map, ← List.filterMap_eq_map]
  refine List.filterMap_congr fun t ht => ?_
  rw [h.follow _ _ (Expr.at?_of_mem_termsFrom ht).1]
  rfl

/-- The cells of some terms, and whether they are flipped. -/
def termCells (cell : Path → Nat) (ts : List (ChainTerm α)) : List (Nat × Bool) :=
  ts.map fun t => (cell t.path, t.flipped)

@[simp] theorem termCells_append (cell : Path → Nat) (L L' : List (ChainTerm α)) :
    termCells cell (L ++ L') = termCells cell L ++ termCells cell L' := List.map_append

@[simp] theorem termCells_cons (cell : Path → Nat) (t : ChainTerm α) (L : List (ChainTerm α)) :
    termCells cell (t :: L) = (cell t.path, t.flipped) :: termCells cell L := rfl

theorem chain_eq_termCells (h : Locates g i e cell) :
    g.chain kind i = termCells cell (e.terms kind) := by
  rw [h.chain_eq, Expr.termPlaces, List.map_map]
  rfl

/-- A part that is reached in both graphs on its way has one cell. -/
theorem cell_eq (h : Locates g i e cell) (h' : Locates g' j e' cell') {p q : Path} {x y : Expr α}
    (hx : e.at? q = some x) (hy : e'.at? p = some y) (hfollow : g'.follow j p = g.follow i q) :
    cell' p = cell q :=
  Option.some.inj ((h'.follow _ _ hy).symm.trans (hfollow.trans (h.follow _ _ hx)))

variable [Arithmetic α]

/-- Where a term goes, the others keep their order, cells and flags, but for the
one that has changed, which may have another cell. -/
theorem chain_merge (h : Locates g i e cell)
    (h' : Locates g' j ((e.put kept.path f).splice sp) cell') (hlist : e.terms kind = L₁ ++ t :: L₂)
    (hk : kept ∈ L₁ ++ L₂) (hsp : e.splice? kind t.path = some sp) (hf : f.IsTerm kind)
    (hcells : ∀ q x, Apart t.path q → Apart kept.path q → e.at? q = some x →
      cell' (sp.shift q) = cell q) :
    g'.chain kind j
      = (termCells cell L₁).map (rename (cell kept.path) (cell' (sp.shift kept.path)))
        ++ (sp.leaves t.flipped).map (fun p => (cell' p.1, p.2))
        ++ (termCells cell L₂).map (rename (cell kept.path) (cell' (sp.shift kept.path))) := by
  have hterms := (Expr.mem_terms_of_terms_eq hlist).2
  have hkept := hterms kept hk
  -- one term at a time: the one that has changed, or one that is apart from it
  have hterm : ∀ u ∈ L₁ ++ L₂, (cell' (sp.shift u.path), u.flipped)
      = rename (cell kept.path) (cell' (sp.shift kept.path)) (cell u.path, u.flipped) := by
    intro u hu
    by_cases hpath : u.path = kept.path
    · rw [rename, hpath, if_pos rfl]
    · have hapart := Expr.apart_of_mem_terms hkept (hterms u hu) (Ne.symm hpath)
      have hat := (Expr.at?_of_mem_termsFrom (hterms u hu)).1
      rw [rename, if_neg (h.ne _ _ _ _ (Expr.at?_of_mem_termsFrom hkept).1 hat hapart).symm,
        hcells u.path _ (Expr.apart_of_terms_eq hlist u hu) hapart hat]
  have hcongr : ∀ L : List (ChainTerm α), (∀ u ∈ L, u ∈ L₁ ++ L₂) →
      ((L.map ChainTerm.place).map sp.shiftPlace).map (fun p => (cell' p.1, p.2))
        = (termCells cell L).map (rename (cell kept.path) (cell' (sp.shift kept.path))) := by
    intro L hL
    rw [termCells, List.map_map, List.map_map, List.map_map]
    exact List.map_congr_left fun u hu => hterm u (hL u hu)
  rw [h'.chain_eq, Expr.termPlaces_merge hlist hk hf hsp, List.map_append, List.map_append,
    hcongr L₁ fun u hu => by simp [hu], hcongr L₂ fun u hu => by simp [hu]]

/-- What is in the cells of the terms that stay. -/
theorem expr_merge (h : Locates g i e cell)
    (h' : Locates g' j ((e.put kept.path f).splice sp) cell') (hlist : e.terms kind = L₁ ++ t :: L₂)
    (hk : kept ∈ L₁ ++ L₂) (hsp : e.splice? kind t.path = some sp)
    (hcells : ∀ q x, Apart t.path q → Apart kept.path q → e.at? q = some x →
      cell' (sp.shift q) = cell q) :
    g'.expr (cell' (sp.shift kept.path)) = f ∧
      ∀ c ∈ termCells cell (L₁ ++ L₂), c.1 ≠ cell kept.path → g'.expr c.1 = g.expr c.1 := by
  obtain ⟨ht, hterms⟩ := Expr.mem_terms_of_terms_eq hlist
  have hkeptAt := (Expr.at?_of_mem_termsFrom (hterms kept hk)).1
  have hapart := Expr.apart_of_terms_eq hlist
  have hat := (Expr.at?_of_mem_termsFrom ht).1
  obtain ⟨hchanged, hothers⟩ := Expr.at?_splice_put (Option.isSome_of_eq_some hat) hkeptAt
    (hapart kept hk) hsp f
  refine ⟨h'.expr _ _ hchanged, fun c hc hne => ?_⟩
  obtain ⟨u, hu, rfl⟩ := List.mem_map.mp hc
  have hukept : u.path ≠ kept.path := fun hpath => hne (congrArg cell hpath)
  have hbeside := Expr.apart_of_mem_terms (hterms kept hk) (hterms u hu) (Ne.symm hukept)
  have huAt := (Expr.at?_of_mem_termsFrom (hterms u hu)).1
  have hcell := hcells u.path _ (hapart u hu) hbeside huAt
  have hexpr := h'.expr _ _ (hothers u.path _ (hapart u hu) hbeside huAt)
  rw [hcell] at hexpr
  rw [hexpr, h.expr _ _ huAt]

end Locates

/-- **Two terms of a chain are merged.**  One goes and the other one becomes `f`; in
the new graph all other terms are the cells they were. -/
theorem Holds.exists_merge [Arithmetic α] {n n' : Node α} {F E : Finset Nat} {kept t : ChainTerm α}
    {L₁ L₂ : List (ChainTerm α)} {sp : Splice α} (hn : Holds g i n F) (hn' : Holds g' j n' E)
    (hmerge : n'.expr = (n.expr.put kept.path f).splice sp) (hlist : n.expr.terms kind = L₁ ++ t :: L₂)
    (hk : kept ∈ L₁ ++ L₂) (hsp : n.expr.splice? kind t.path = some sp) (hf : f.IsTerm kind)
    (hfollow : ∀ q b, Apart t.path q → Apart kept.path q → n.at? q = some b →
      g'.follow j (sp.shift q) = g.follow i q) :
    ∃ cell cell', Locates g i n.expr cell ∧ Locates g' j n'.expr cell' ∧
      g'.chain kind j
        = (Locates.termCells cell L₁).map (rename (cell kept.path) (cell' (sp.shift kept.path)))
          ++ (sp.leaves t.flipped).map (fun p => (cell' p.1, p.2))
          ++ (Locates.termCells cell L₂).map (rename (cell kept.path) (cell' (sp.shift kept.path))) ∧
      g'.expr (cell' (sp.shift kept.path)) = f ∧
      (∀ c ∈ Locates.termCells cell (L₁ ++ L₂), c.1 ≠ cell kept.path → g'.expr c.1 = g.expr c.1) ∧
      (g'.follow j (sp.shift kept.path) = g.follow i kept.path →
        cell' (sp.shift kept.path) = cell kept.path) := by
  obtain ⟨cell, hloc⟩ := hn.exists_locates
  obtain ⟨cell', hloc'⟩ := hn'.exists_locates
  rw [hmerge] at hloc'
  obtain ⟨ht, hterms⟩ := Expr.mem_terms_of_terms_eq hlist
  have hkept := (Expr.at?_of_mem_termsFrom (hterms kept hk)).1
  have hremoved := (Expr.at?_of_mem_termsFrom ht).1
  obtain ⟨hchanged, hothers⟩ := Expr.at?_splice_put (Option.isSome_of_eq_some hremoved) hkept
    (Expr.apart_of_terms_eq hlist kept hk) hsp f
  -- what overlaps with neither of the two is reached in both graphs, so its cell is one
  have hcell : ∀ q x, Apart t.path q → Apart kept.path q → n.expr.at? q = some x →
      cell' (sp.shift q) = cell q := by
    intro q x htq hkq hx
    obtain ⟨a, ha, -⟩ := Node.exists_at?_of_expr hx
    exact hloc.cell_eq hloc' hx (hothers q x htq hkq hx) (hfollow q a htq hkq ha)
  obtain ⟨hjoined, hunchanged⟩ := hloc.expr_merge hloc' hlist hk hsp hcell
  exact ⟨cell, cell', hloc, hmerge ▸ hloc', hloc.chain_merge hloc' hlist hk hsp hf hcell, hjoined,
    hunchanged, hloc.cell_eq hloc' hkept hchanged⟩

end Graph

end Formula
