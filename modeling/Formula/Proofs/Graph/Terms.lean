/-
Formula/Proofs/Graph/Terms.lean

The terms that are collected below an operator of a graph, and what they are of the
tree.  The operators and negations on the way to them, and the cells below them, are
all cells of the tree, each of them once (`Holds.accountsFor`).  The values of the
terms give the value of the tree (`Locates.evaluates_iff_chain`).  Both are read off
the expression, by the path that leads to each cell, which is one path only.
-/
import Formula.Proofs.Graph.Chains
import Formula.Proofs.Graph.Checking
import Formula.Proofs.Graph.Signs
import Formula.Proofs.Graph.Sizes
import Formula.Proofs.Simplify.Terms

namespace Formula

open Expr (Evaluates)

namespace Graph

variable {α : Type} {g : Graph α} {i : Nat} {n : Node α} {F : Finset Nat} {kind : ChainKind}
  {e : Expr α} {cell : Path → Nat} {p q : Path} {c : Nat}

/-- The terms of the chain that an operator starts: their cells, and whether they are
flipped. -/
def collectTerms (g : Graph α) (i : Nat) : List (Nat × Bool) :=
  (g.expr i).chainTerms.filterMap fun t => (g.follow i t.path).map fun c => (c, t.flipped)

/-- The cells of the operators and negations on the way to the terms of a chain. -/
def chainOperators (g : Graph α) (kind : ChainKind) (i : Nat) : List Nat :=
  ((g.expr i).chainOperators kind).filterMap (g.follow i)

/-- The path to the first cell goes left where the path to the second one goes right. -/
def IsLeftOf (g : Graph α) (i c d : Nat) : Prop :=
  ∃ p q, g.follow i p = some c ∧ g.follow i q = some d ∧ Path.IsLeftOf p q

/-- Some operators and all that is below some terms are the cells of a tree, each cell
once. -/
structure AccountsFor (g : Graph α) (i : Nat) (operators terms : List Nat) : Prop where
  mem_below : ∀ c, c ∈ g.below i ↔ c ∈ operators ∨ ∃ t ∈ terms, c ∈ g.below t
  nodup : operators.Nodup
  beside : ∀ c ∈ operators, ∀ t ∈ terms, c ∉ g.below t
  disjoint : terms.Pairwise fun t u => Disjoint (g.below t) (g.below u)

theorem collectTerms_eq_chain {op : BinaryOp} {l r : Expr α} (hroot : g.expr i = .binary op l r)
    (hop : (kind.flips? op).isSome) : g.collectTerms i = g.chain kind i := by
  have hkind : ChainKind.ofOperator op = kind := by
    cases kind <;> cases op <;> first | rfl | exact absurd hop (by decide)
  rw [collectTerms, chain, hroot, Expr.chainTerms, hkind]

namespace Locates

theorem chainOperators_eq (h : Locates g i e cell) :
    g.chainOperators kind i = (e.chainOperators kind).map cell := by
  rw [chainOperators, h.root, ← List.filterMap_eq_map]
  refine List.filterMap_congr fun p hp => ?_
  obtain ⟨o, ho, -⟩ := Expr.exists_of_mem_chainOperators hp
  exact h.follow p o ho

theorem map_fst_chain (h : Locates g i e cell) :
    (g.chain kind i).map Prod.fst = (e.termPaths kind).map cell := by
  rw [h.chain_eq_termCells, termCells, List.map_map, Expr.termPaths, List.map_map]
  rfl

/-- What is below a part is what paths through the part lead to. -/
theorem mem_below_iff (h : Locates g i e cell) {f : Expr α} (hf : e.at? p = some f) :
    c ∈ g.below (cell p) ↔ ∃ q, p <+: q ∧ g.follow i q = some c := by
  have hrest : ∀ q, g.follow i (p ++ q) = g.follow (cell p) q := fun q => by
    rw [follow_append, h.follow p f hf, Option.bind_some]
  constructor
  · rintro ⟨q, hq⟩
    exact ⟨p ++ q, List.prefix_append p q, (hrest q).trans hq⟩
  · rintro ⟨_, ⟨q, rfl⟩, hq⟩
    exact ⟨q, (hrest q).symm.trans hq⟩

end Locates

/-- Operators, and what is below terms, are all cells of a tree, each of them once. -/
theorem Holds.accountsFor (hn : Holds g i n F) (kind : ChainKind) :
    g.AccountsFor i (g.chainOperators kind i) ((g.chain kind i).map Prod.fst) := by
  obtain ⟨cell, h⟩ := hn.exists_locates
  rw [h.chainOperators_eq, h.map_fst_chain]
  have hop : ∀ p ∈ n.expr.chainOperators kind, g.follow i p = some (cell p) := fun p hp => by
    obtain ⟨o, ho, -⟩ := Expr.exists_of_mem_chainOperators hp
    exact h.follow p o ho
  have hterm : ∀ {p c}, p ∈ n.expr.termPaths kind →
      (c ∈ g.below (cell p) ↔ ∃ q, p <+: q ∧ g.follow i q = some c) := fun hp => by
    obtain ⟨f, hf, -⟩ := Expr.exists_of_mem_termPaths hp
    exact h.mem_below_iff hf
  constructor
  case mem_below =>
    intro c
    constructor
    · rintro ⟨q, hq⟩
      obtain ⟨m, -, hm, -⟩ := hn.exists_of_follow hq
      have hsome : (n.expr.at? q).isSome := by
        rw [Node.isSome_at?_expr, hm]
        rfl
      rcases Expr.mem_chainOperators_or kind hsome with hmem | ⟨p, hp, hpre⟩
      · exact .inl (List.mem_map.mpr ⟨q, hmem, Option.some.inj ((hop q hmem).symm.trans hq)⟩)
      · exact .inr ⟨cell p, List.mem_map_of_mem hp, (hterm hp).mpr ⟨q, hpre, hq⟩⟩
    · rintro (hc | ⟨t, ht, hc⟩)
      · obtain ⟨p, hp, rfl⟩ := List.mem_map.mp hc
        exact ⟨p, hop p hp⟩
      · obtain ⟨p, hp, rfl⟩ := List.mem_map.mp ht
        obtain ⟨q, -, hq⟩ := (hterm hp).mp hc
        exact ⟨q, hq⟩
  case nodup =>
    refine List.pairwise_map.mpr ((Expr.nodup_chainOperators kind n.expr).imp_of_mem ?_)
    intro p q hp hq hne heq
    exact hne (hn.path_unique (hop p hp) (heq ▸ hop q hq))
  case beside =>
    intro c hc t ht hmem
    obtain ⟨p, hp, rfl⟩ := List.mem_map.mp hc
    obtain ⟨q, hq, rfl⟩ := List.mem_map.mp ht
    obtain ⟨path, hpre, hpath⟩ := (hterm hq).mp hmem
    rw [hn.path_unique hpath (hop p hp)] at hpre
    exact Expr.not_prefix_of_mem_chainOperators hp hq hpre
  case disjoint =>
    refine List.pairwise_map.mpr ((Expr.pairwise_isLeftOf_termPaths kind n.expr).imp_of_mem ?_)
    intro p q hp hq hpq
    rw [Set.disjoint_left]
    intro c hcp hcq
    obtain ⟨a, hpa, ha⟩ := (hterm hp).mp hcp
    obtain ⟨b, hqb, hb⟩ := (hterm hq).mp hcq
    rw [hn.path_unique hb ha] at hqb
    -- of two places above one place, one is above the other
    rcases List.prefix_or_prefix_of_prefix hpa hqb with hpre | hpre
    · exact hpq.apart.1 hpre
    · exact hpq.apart.2 hpre

namespace Locates

variable {K : Type} [Field K] [Arithmetic K] {g : Graph K} {e : Expr K} {D : Domain K}
  {env : Environment K} {v : K}

theorem divides_iff (h : Locates g i e cell) : e.Divides D env kind ↔
    ∀ c ∈ g.chainOperators kind i, ∀ l r, g.expr c = .binary .div l r → ¬Evaluates D env r 0 := by
  rw [h.chainOperators_eq, List.forall_mem_map]
  refine forall₂_congr fun p hp => ?_
  obtain ⟨o, ho, -⟩ := Expr.exists_of_mem_chainOperators hp
  rw [h.expr p o ho, ho]
  simp only [Option.some.injEq]

omit [Field K] [Arithmetic K] in
theorem countP_chainOperators (h : Locates g i e cell) :
    (g.chainOperators kind i).countP (fun c => (g.expr c).isNegation) = e.negations kind := by
  rw [h.chainOperators_eq, List.countP_map, ← Expr.countP_chainOperators]
  refine List.countP_congr fun p hp => ?_
  obtain ⟨o, ho, -⟩ := Expr.exists_of_mem_chainOperators hp
  simp [h.expr p o ho, ho]

/-- The values of the terms of a chain give the value of the tree. -/
theorem evaluates_iff_chain (h : Locates g i e cell) (hD : FieldDomain D) (kind : ChainKind) :
    Evaluates D env (g.expr i) v ↔ ∃ a : Nat → K,
      (∀ t ∈ g.chain kind i, Evaluates D env (g.expr t.1) (a t.1)) ∧
      (∀ c ∈ g.chainOperators kind i, ∀ l r, g.expr c = .binary .div l r → ¬Evaluates D env r 0) ∧
      v = kind.join (kind.signs ((g.chainOperators kind i).countP fun c => (g.expr c).isNegation))
        (kind.total ((g.chain kind i).map fun t => kind.contribution t.2 (a t.1))) := by
  obtain ⟨val, hval⟩ := Expr.exists_values D env
  have hexpr : ∀ t ∈ e.terms kind, g.expr (cell t.path) = t.expr := fun t ht =>
    h.expr _ _ (Expr.at?_of_mem_termsFrom ht).1
  -- the value of a term is that of its expression
  have hcontributions : ∀ a : Nat → K, (∀ t ∈ e.terms kind, a (cell t.path) = val t.expr) →
      (g.chain kind i).map (fun t => kind.contribution t.2 (a t.1))
        = (e.terms kind).map fun t => kind.contribution t.flipped (val t.expr) := by
    intro a ha
    rw [h.chain_eq_termCells, termCells, List.map_map]
    refine List.map_congr_left fun t ht => ?_
    rw [← ha t ht]
    rfl
  have hterms : ∀ a : Nat → K, (∀ t ∈ g.chain kind i, Evaluates D env (g.expr t.1) (a t.1)) ↔
      ∀ t ∈ e.terms kind, Evaluates D env t.expr (a (cell t.path)) := by
    intro a
    rw [h.chain_eq_termCells, termCells, List.forall_mem_map]
    exact forall₂_congr fun t ht => by rw [hexpr t ht]
  rw [← h.divides_iff, h.countP_chainOperators, h.root, Expr.evaluates_iff_terms hD hval kind]
  constructor
  · rintro ⟨hvalues, hdiv, rfl⟩
    have ha : ∀ t ∈ e.terms kind, val (g.expr (cell t.path)) = val t.expr := fun t ht => by
      rw [hexpr t ht]
    refine ⟨fun c => val (g.expr c), (hterms fun c => val (g.expr c)).mpr fun t ht => ?_, hdiv, ?_⟩
    · rw [ha t ht]
      exact hvalues t ht
    · rw [hcontributions (fun c => val (g.expr c)) ha]
  · rintro ⟨a, hvalues, hdiv, rfl⟩
    have hvalues := (hterms a).mp hvalues
    have ha : ∀ t ∈ e.terms kind, a (cell t.path) = val t.expr := fun t ht =>
      (hval _ _ (hvalues t ht)).symm
    refine ⟨fun t ht => ?_, hdiv, ?_⟩
    · rw [← ha t ht]
      exact hvalues t ht
    · rw [hcontributions a ha]

end Locates

/-- No flipped factor of a product that has a value is zero. -/
theorem Locates.not_evaluates_zero {K : Type} [Field K] [Arithmetic K] {g : Graph K} {e : Expr K}
    {D : Domain K} {env : Environment K} {v : K} (h : Locates g i e cell) (hD : FieldDomain D)
    (hv : Evaluates D env (g.expr i) v) :
    ∀ t ∈ g.chain .multiplicative i, t.2 = true → ¬Evaluates D env (g.expr t.1) 0 := by
  rw [h.chain_eq_termCells, termCells, List.forall_mem_map]
  intro t ht hflipped hzero
  obtain ⟨hat, hpath⟩ := Expr.at?_of_mem_termsFrom ht
  rw [Expr.flipped_of_mem_terms ht] at hflipped
  rw [h.expr _ _ hat] at hzero
  rw [h.root] at hv
  exact Expr.ne_zero_of_isFlipped hD hpath hv hat hzero hflipped rfl

/-- A cell that is left of another one is another one. -/
theorem Holds.ne_of_isLeftOf (hn : Holds g i n F) {c d : Nat} (h : g.IsLeftOf i c d) : c ≠ d := by
  obtain ⟨p, q, hp, hq, hpq⟩ := h
  rintro rfl
  exact hpq.apart.ne (hn.path_unique hp hq)

/-- The walk goes through what is no term, and stops at terms. -/
theorem Holds.isTerm_chain (hn : Holds g i n F) (kind : ChainKind) :
    (∀ c ∈ g.chainOperators kind i, ¬(g.expr c).IsTerm kind) ∧
      ∀ t ∈ g.chain kind i, (g.expr t.1).IsTerm kind := by
  obtain ⟨cell, h⟩ := hn.exists_locates
  rw [h.chainOperators_eq, h.chain_eq_termCells, Locates.termCells, List.forall_mem_map,
    List.forall_mem_map]
  constructor
  · intro p hp
    obtain ⟨o, ho, hnot⟩ := Expr.exists_of_mem_chainOperators hp
    rwa [h.expr p o ho]
  · intro t ht
    rw [h.expr _ _ (Expr.at?_of_mem_termsFrom ht).1]
    exact Expr.isTerm_of_mem_termsFrom ht

/-- The cells of the terms of a chain are in order from left to right. -/
theorem Holds.pairwise_isLeftOf_chain (hn : Holds g i n F) (kind : ChainKind) :
    ((g.chain kind i).map Prod.fst).Pairwise (g.IsLeftOf i) := by
  obtain ⟨cell, h⟩ := hn.exists_locates
  rw [h.map_fst_chain]
  refine List.pairwise_map.mpr ((Expr.pairwise_isLeftOf_termPaths kind n.expr).imp_of_mem ?_)
  intro p q hp hq hpq
  obtain ⟨f, hf, -⟩ := Expr.exists_of_mem_termPaths hp
  obtain ⟨f', hf', -⟩ := Expr.exists_of_mem_termPaths hq
  exact ⟨p, q, h.follow p f hf, h.follow q f' hf', hpq⟩

variable [Arithmetic α]

/-- **The terms of a chain denote the chain.**  Below a sum, difference, product or
quotient the walk stops at cells that are no operator of the chain and no negation, in
order from left to right.  The operators and negations that it goes through and all
that is below the terms are the cells of the tree, each of them once.

Over any field, a sum or difference has a value exactly if its terms have one, and it is
the sum of these, with flipped ones negated.  A product or quotient has a value exactly
if its terms have one and no operator of the chain divides by zero, and it is minus one
to the number of the negations, times the product of the terms, with flipped ones
inverted; none of these is zero. -/
theorem collectTerms_denotes {op : BinaryOp} {l r : Expr α} (kind : ChainKind)
    (hi : g.isWellFormed i = true) (hroot : g.expr i = .binary op l r) (hop : (kind.flips? op).isSome) :
    g.AccountsFor i (g.chainOperators kind i) ((g.collectTerms i).map Prod.fst) ∧
      (∀ c ∈ g.chainOperators kind i, ¬(g.expr c).IsTerm kind) ∧
      (∀ t ∈ g.collectTerms i, (g.expr t.1).IsTerm kind) ∧
      ((g.collectTerms i).map Prod.fst).Nodup ∧
      ((g.collectTerms i).map Prod.fst).Pairwise (g.IsLeftOf i) ∧
      ∀ [Field α] (D : Domain α), FieldDomain D → ∀ env v,
        (kind = .additive → (Evaluates D env (g.expr i) v ↔ ∃ a : Nat → α,
          (∀ t ∈ g.collectTerms i, Evaluates D env (g.expr t.1) (a t.1)) ∧
          v = ((g.collectTerms i).map fun t => if t.2 then -a t.1 else a t.1).sum)) ∧
        (kind = .multiplicative → (Evaluates D env (g.expr i) v ↔ ∃ a : Nat → α,
          (∀ t ∈ g.collectTerms i, Evaluates D env (g.expr t.1) (a t.1)) ∧
          (∀ c ∈ g.chainOperators kind i, ∀ l r, g.expr c = .binary .div l r →
            ¬Evaluates D env r 0) ∧
          v = (-1) ^ (g.chainOperators kind i).countP (fun c => (g.expr c).isNegation) *
            ((g.collectTerms i).map fun t => if t.2 then (a t.1)⁻¹ else a t.1).prod) ∧
          (Evaluates D env (g.expr i) v →
            ∀ t ∈ g.collectTerms i, t.2 = true → ¬Evaluates D env (g.expr t.1) 0)) := by
  obtain ⟨n, F, hn⟩ := isWellFormed_iff.mp hi
  obtain ⟨cell, h⟩ := hn.exists_locates
  obtain ⟨hoperators, hterms⟩ := hn.isTerm_chain kind
  have horder := hn.pairwise_isLeftOf_chain kind
  rw [collectTerms_eq_chain hroot hop]
  refine ⟨hn.accountsFor kind, hoperators, hterms, horder.imp hn.ne_of_isLeftOf, horder, ?_⟩
  intro _ D hD env v
  have hvalue : Evaluates D env (g.expr i) v ↔ _ := h.evaluates_iff_chain hD kind
  constructor
  · rintro rfl
    rw [ChainKind.signs_additive] at hvalue
    -- a sum divides by nothing
    have hdiv : ∀ c ∈ g.chainOperators .additive i, ∀ l r, g.expr c = .binary .div l r →
        ¬Evaluates D env r 0 := fun c hc l r hquotient => by
      refine absurd ?_ (hoperators c hc)
      rw [hquotient]
      rfl
    constructor
    · intro hv
      obtain ⟨a, hvalues, -, rfl⟩ := hvalue.mp hv
      exact ⟨a, hvalues, zero_add _⟩
    · rintro ⟨a, hvalues, rfl⟩
      exact hvalue.mpr ⟨a, hvalues, hdiv, (zero_add _).symm⟩
  · rintro rfl
    rw [ChainKind.signs_multiplicative] at hvalue
    exact ⟨hvalue, h.not_evaluates_zero hD⟩

/-- Below the division line there are a negation and two factors, which are both
flipped. -/
theorem collectTerms_denotes_quotientByNegation :
    quotientByNegation.isWellFormed 5 = true ∧
      quotientByNegation.collectTerms 5 = [(0, false), (1, true), (3, true)] ∧
      quotientByNegation.chainOperators .multiplicative 5 = [5, 4, 2] ∧
      quotientByNegation.IsLeftOf 5 1 3 ∧
      Evaluates (.division ℚ) (fun x => if x = "x" then some 8 else some 1)
        (quotientByNegation.expr 5) (-4) := by
  have hwell : quotientByNegation.isWellFormed 5 = true := by decide +kernel
  have hroot : quotientByNegation.expr 5 = .binary .div (.var "x")
      (.binary .mul (.unary .neg (.var "y")) (.const 2)) := by decide +kernel
  have hterms : quotientByNegation.collectTerms 5 = [(0, false), (1, true), (3, true)] := by
    decide +kernel
  have hoperators : quotientByNegation.chainOperators .multiplicative 5 = [5, 4, 2] := by
    decide +kernel
  have hnegations : [5, 4, 2].countP (fun c => (quotientByNegation.expr c).isNegation) = 1 := by
    decide +kernel
  have hx : quotientByNegation.expr 0 = .var "x" := by decide +kernel
  have hy : quotientByNegation.expr 1 = .var "y" := by decide +kernel
  have htwo : quotientByNegation.expr 3 = .const 2 := by decide +kernel
  have hproduct : quotientByNegation.expr 4 = .binary .mul (.unary .neg (.var "y")) (.const 2) := by
    decide +kernel
  have hneg : quotientByNegation.expr 2 = .unary .neg (.var "y") := by decide +kernel
  have hD := fieldArithmetic_rat.fieldDomain_division
  obtain ⟨-, -, -, -, horder, hvalue⟩ := collectTerms_denotes .multiplicative hwell hroot rfl
  obtain ⟨-, hquotient⟩ := hvalue (.division ℚ) hD (fun x => if x = "x" then some 8 else some 1) (-4)
  obtain ⟨hquotient, -⟩ := hquotient rfl
  rw [hterms] at horder hquotient
  rw [hoperators, hnegations] at hquotient
  refine ⟨hwell, hterms, hoperators, by simpa using (List.pairwise_cons.mp horder).2, hquotient.mpr
    ⟨fun c => if c = 0 then 8 else if c = 1 then 1 else 2, ?_, ?_, by norm_num⟩⟩
  · simp only [List.forall_mem_cons, hx, hy, htwo]
    exact ⟨.var rfl, .var rfl, .const 2, by simp⟩
  · simp only [List.forall_mem_cons, hroot, hproduct, hneg]
    refine ⟨?_, by simp, by simp, by simp⟩
    rintro l r ⟨⟩ hzero
    -- the divisor is minus two
    obtain ⟨b, c, hb, hc, hbc⟩ := hD.evaluates_mul.mp hzero
    obtain ⟨d, hd, rfl⟩ := hD.evaluates_neg.mp hb
    obtain rfl := Expr.evaluates_const.mp hc
    cases hd with | var hd =>
    cases hd
    norm_num at hbc

end Graph

end Formula
