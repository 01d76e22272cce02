/-
Formula/Proofs/Simplify/Terms.lean

What the terms of a chain are of the expression.  The walk down a chain goes
through its operators and negations (`chainOperators`) and stops at its terms,
which it meets from left to right (`pairwise_isLeftOf_termPaths`).  Every place of
the expression is one that the walk goes through or is in a term
(`mem_chainOperators_or`), and never both (`not_prefix_of_mem_chainOperators`).

In exact arithmetic a sum is what its terms contribute, and a product is minus
one to the number of its negations, times what its terms contribute
(`evaluates_iff_terms`).
-/
import Formula.Proofs.Simplify.Places
import Mathlib.Algebra.BigOperators.Group.List.Defs

namespace Formula

universe u

open Path (Apart)

/-- The first path goes left where the second one goes right. -/
def Path.IsLeftOf (p q : Path) : Prop := ∃ r p' q', p = r ++ .left :: p' ∧ q = r ++ .right :: q'

theorem Path.IsLeftOf.cons {p q : Path} (s : Slot) (h : Path.IsLeftOf p q) :
    Path.IsLeftOf (s :: p) (s :: q) := by
  obtain ⟨r, p', q', rfl, rfl⟩ := h
  exact ⟨s :: r, p', q', rfl, rfl⟩

theorem Path.IsLeftOf.apart {p q : Path} (h : Path.IsLeftOf p q) : Apart p q := by
  obtain ⟨r, p', q', rfl, rfl⟩ := h
  exact Path.Apart.append_left_iff.mpr (Path.Apart.of_ne (by decide) p' q')

namespace Expr

variable {α : Type u} {kind : ChainKind} {e l r x : Expr α} {p q : Path} {op : BinaryOp}
  {flip flipped pinned : Bool}

/-! ### Down a chain -/

/-- The operators and negations that the walk down a chain goes through. -/
def chainOperators (kind : ChainKind) : Expr α → List Path
  | unary op x => if op = .neg then [] :: (x.chainOperators kind).map (.operand :: ·) else []
  | binary op l r =>
    if (kind.flips? op).isSome then
      [] :: ((l.chainOperators kind).map (.left :: ·) ++ (r.chainOperators kind).map (.right :: ·))
    else []
  | _ => []

theorem IsTerm.chainOperators (h : e.IsTerm kind) : e.chainOperators kind = [] := by
  cases e with
  | unary op x => exact if_neg h
  | binary op l r =>
      refine if_neg ?_
      rw [show kind.flips? op = none from h]
      decide
  | _ => rfl

theorem chainOperators_neg : (unary .neg x).chainOperators kind
    = [] :: (x.chainOperators kind).map (.operand :: ·) := if_pos rfl

theorem chainOperators_binary (hop : kind.flips? op = some flip) :
    (binary op l r).chainOperators kind
      = [] :: ((l.chainOperators kind).map (.left :: ·) ++ (r.chainOperators kind).map (.right :: ·)) :=
  if_pos (Option.isSome_of_eq_some hop)

/-- The places of the terms of a chain. -/
def termPaths (kind : ChainKind) (e : Expr α) : List Path := (e.terms kind).map (·.path)

theorem map_path_below (s : Slot) (ts : List (ChainTerm α)) :
    (ts.map (ChainTerm.below s)).map (·.path) = (ts.map (·.path)).map (s :: ·) := by
  rw [List.map_map, List.map_map]
  rfl

/-- How a chain enters does not matter for the places of its terms. -/
theorem map_path_termsFrom (e : Expr α) (flipped pinned : Bool) :
    (e.termsFrom kind flipped pinned).map (·.path) = e.termPaths kind := by
  unfold termPaths terms
  induction e using chain_induction kind generalizing flipped pinned with
  | term e he => rw [he.termsFrom, he.termsFrom]; rfl
  | neg x ih =>
      rw [termsFrom_neg, termsFrom_neg, map_path_below, map_path_below, ih, ih (false != _)]
  | operator op l r flip hop ihl ihr =>
      rw [termsFrom_binary hop, termsFrom_binary hop, List.map_append, List.map_append, map_path_below,
        map_path_below, map_path_below, map_path_below, ihl, ihl false (op == .div), ihr, ihr (false != _)]

theorem IsTerm.termPaths (h : e.IsTerm kind) : e.termPaths kind = [[]] := by
  rw [Expr.termPaths, terms, h.termsFrom]
  rfl

theorem termPaths_neg : (unary .neg x).termPaths kind = (x.termPaths kind).map (.operand :: ·) := by
  rw [termPaths, terms, termsFrom_neg, map_path_below, map_path_termsFrom]

theorem termPaths_binary (hop : kind.flips? op = some flip) : (binary op l r).termPaths kind
    = (l.termPaths kind).map (.left :: ·) ++ (r.termPaths kind).map (.right :: ·) := by
  rw [termPaths, terms, termsFrom_binary hop, List.map_append, map_path_below, map_path_below,
    map_path_termsFrom, map_path_termsFrom]

/-! ### Order -/

/-- The terms of a chain are in order from left to right. -/
theorem pairwise_isLeftOf_termPaths (kind : ChainKind) (e : Expr α) :
    (e.termPaths kind).Pairwise Path.IsLeftOf := by
  induction e using chain_induction kind with
  | term e he => simp [he.termPaths]
  | neg x ih =>
      rw [termPaths_neg, List.pairwise_map]
      exact ih.imp fun h => h.cons .operand
  | operator op l r flip hop ihl ihr =>
      rw [termPaths_binary hop, List.pairwise_append, List.pairwise_map, List.pairwise_map]
      refine ⟨ihl.imp fun h => h.cons .left, ihr.imp fun h => h.cons .right, ?_⟩
      intro p hp q hq
      obtain ⟨a, -, rfl⟩ := List.mem_map.mp hp
      obtain ⟨b, -, rfl⟩ := List.mem_map.mp hq
      exact ⟨[], a, b, rfl, rfl⟩

theorem nodup_chainOperators (kind : ChainKind) (e : Expr α) : (e.chainOperators kind).Nodup := by
  have hmap : ∀ (s : Slot) {L : List Path}, L.Nodup → (L.map (s :: ·)).Nodup := fun s _ hL =>
    List.pairwise_map.mpr (hL.imp fun hne heq => hne (List.cons_injective heq))
  induction e using chain_induction kind with
  | term e he => simp [he.chainOperators]
  | neg x ih =>
      rw [chainOperators_neg, List.nodup_cons]
      exact ⟨by simp, hmap _ ih⟩
  | operator op l r flip hop ihl ihr =>
      rw [chainOperators_binary hop, List.nodup_cons, List.nodup_append]
      refine ⟨by simp, hmap _ ihl, hmap _ ihr, ?_⟩
      intro p hp q hq
      obtain ⟨a, -, rfl⟩ := List.mem_map.mp hp
      obtain ⟨b, -, rfl⟩ := List.mem_map.mp hq
      simp

/-! ### Every place is that of an operator or in a term -/

theorem exists_of_mem_termPaths (h : p ∈ e.termPaths kind) :
    ∃ f, e.at? p = some f ∧ f.IsTerm kind := by
  obtain ⟨t, ht, rfl⟩ := List.mem_map.mp h
  exact ⟨t.expr, (at?_of_mem_termsFrom ht).1, isTerm_of_mem_termsFrom ht⟩

/-- What the walk goes through is no term. -/
theorem exists_of_mem_chainOperators (h : p ∈ e.chainOperators kind) :
    ∃ o, e.at? p = some o ∧ ¬o.IsTerm kind := by
  induction e using chain_induction kind generalizing p with
  | term e he => simp [he.chainOperators] at h
  | neg x ih =>
      rw [chainOperators_neg] at h
      rcases List.mem_cons.mp h with rfl | h
      · exact ⟨_, rfl, fun hterm => hterm rfl⟩
      · obtain ⟨q, hq, rfl⟩ := List.mem_map.mp h
        exact ih hq
  | operator op l r flip hop ihl ihr =>
      rw [chainOperators_binary hop] at h
      rcases List.mem_cons.mp h with rfl | h
      · exact ⟨_, rfl, fun hterm => Option.some_ne_none flip (hop.symm.trans hterm)⟩
      rcases List.mem_append.mp h with h | h
      · obtain ⟨q, hq, rfl⟩ := List.mem_map.mp h
        exact ihl hq
      · obtain ⟨q, hq, rfl⟩ := List.mem_map.mp h
        exact ihr hq

/-- A place of an operand that is that of an operator or in a term. -/
theorem mem_or_exists_prefix_cons {ops terms : List Path} (s : Slot)
    (h : p ∈ ops ∨ ∃ t ∈ terms, t <+: p) :
    s :: p ∈ ops.map (s :: ·) ∨ ∃ t ∈ terms.map (s :: ·), t <+: s :: p := by
  refine h.imp (fun hp => List.mem_map_of_mem hp) ?_
  rintro ⟨t, ht, hpre⟩
  exact ⟨s :: t, List.mem_map_of_mem ht, List.cons_prefix_cons.mpr ⟨rfl, hpre⟩⟩

/-- The walk goes through a place or stops at or above it. -/
theorem mem_chainOperators_or (kind : ChainKind) (h : (e.at? p).isSome) :
    p ∈ e.chainOperators kind ∨ ∃ t ∈ e.termPaths kind, t <+: p := by
  induction e using chain_induction kind generalizing p with
  | term e he => exact .inr ⟨[], by simp [he.termPaths], List.nil_prefix⟩
  | neg x ih =>
      rw [chainOperators_neg, termPaths_neg]
      cases p with
      | nil => simp
      | cons s p =>
          cases s with
          | left | right => simp [at?_cons, operand?] at h
          | operand => exact (mem_or_exists_prefix_cons .operand (ih h)).imp_left (List.mem_cons_of_mem _)
  | operator op l r flip hop ihl ihr =>
      rw [chainOperators_binary hop, termPaths_binary hop]
      cases p with
      | nil => simp
      | cons s p =>
          cases s with
          | operand => simp [at?_cons, operand?] at h
          | left =>
              refine (mem_or_exists_prefix_cons .left (ihl h)).imp ?_ ?_
              · exact fun hp => List.mem_cons_of_mem _ (List.mem_append_left _ hp)
              · rintro ⟨t, ht, hpre⟩
                exact ⟨t, List.mem_append_left _ ht, hpre⟩
          | right =>
              refine (mem_or_exists_prefix_cons .right (ihr h)).imp ?_ ?_
              · exact fun hp => List.mem_cons_of_mem _ (List.mem_append_right _ hp)
              · rintro ⟨t, ht, hpre⟩
                exact ⟨t, List.mem_append_right _ ht, hpre⟩

/-- The walk does not go into a term. -/
theorem not_prefix_of_mem_chainOperators (hp : p ∈ e.chainOperators kind)
    (hq : q ∈ e.termPaths kind) : ¬q <+: p := by
  induction e using chain_induction kind generalizing p q with
  | term e he => simp [he.chainOperators] at hp
  | neg x ih =>
      rw [chainOperators_neg] at hp
      rw [termPaths_neg] at hq
      obtain ⟨b, hb, rfl⟩ := List.mem_map.mp hq
      rcases List.mem_cons.mp hp with rfl | hp
      · simp
      · obtain ⟨a, ha, rfl⟩ := List.mem_map.mp hp
        exact fun hpre => ih ha hb (List.cons_prefix_cons.mp hpre).2
  | operator op l r flip hop ihl ihr =>
      rw [chainOperators_binary hop] at hp
      rw [termPaths_binary hop] at hq
      rcases List.mem_cons.mp hp with rfl | hp
      · rcases List.mem_append.mp hq with hq | hq <;> obtain ⟨b, -, rfl⟩ := List.mem_map.mp hq <;> simp
      rcases List.mem_append.mp hp with hp | hp <;> obtain ⟨a, ha, rfl⟩ := List.mem_map.mp hp <;>
        rcases List.mem_append.mp hq with hq | hq <;> obtain ⟨b, hb, rfl⟩ := List.mem_map.mp hq <;>
        rw [List.cons_prefix_cons]
      · exact fun hpre => ihl ha hb hpre.2
      · exact fun hpre => Slot.noConfusion hpre.1
      · exact fun hpre => Slot.noConfusion hpre.1
      · exact fun hpre => ihr ha hb hpre.2

/-! ### Negations -/

/-- The number of negations in the run of a chain. -/
def negations (kind : ChainKind) : Expr α → Nat
  | unary op x => if op = .neg then x.negations kind + 1 else 0
  | binary op l r => if (kind.flips? op).isSome then l.negations kind + r.negations kind else 0
  | _ => 0

theorem negations_neg (x : Expr α) : (unary .neg x).negations kind = x.negations kind + 1 := if_pos rfl

theorem negations_binary (hop : (kind.flips? op).isSome) :
    (binary op l r).negations kind = l.negations kind + r.negations kind := if_pos hop

/-- There is none in what hangs below the chain. -/
theorem IsTerm.negations (h : e.IsTerm kind) : e.negations kind = 0 := by
  cases e with
  | unary op x => exact if_neg h
  | binary op l r =>
      refine if_neg ?_
      rw [show kind.flips? op = none from h]
      decide
  | _ => rfl

/-- The negations of a run are those that the walk goes through. -/
theorem countP_chainOperators (kind : ChainKind) (e : Expr α) :
    (e.chainOperators kind).countP (fun p => (e.at? p).any isNegation) = e.negations kind := by
  induction e using chain_induction kind with
  | term e he => rw [he.chainOperators, he.negations, List.countP_nil]
  | neg x ih =>
      rw [chainOperators_neg, negations_neg, List.countP_cons_of_pos (by rfl), List.countP_map, ← ih]
      rfl
  | operator op l r flip hop ihl ihr =>
      rw [chainOperators_binary hop, negations_binary (Option.isSome_of_eq_some hop),
        List.countP_cons_of_neg (by simp [isNegation]), List.countP_append, List.countP_map,
        List.countP_map, ← ihl, ← ihr]
      rfl

end Expr

/-! ### Values -/

variable {K : Type u} [Field K]

namespace ChainKind

variable {kind : ChainKind} {flip : Bool}

/-- What some contributions are together. -/
def total (kind : ChainKind) (as : List K) : K := as.foldr kind.join kind.unit

@[simp] theorem total_nil : kind.total ([] : List K) = kind.unit := rfl

@[simp] theorem total_cons (a : K) (as : List K) : kind.total (a :: as) = kind.join a (kind.total as) :=
  rfl

@[simp] theorem total_append (as bs : List K) :
    kind.total (as ++ bs) = kind.join (kind.total as) (kind.total bs) := by
  induction as with
  | nil => simp
  | cons a as ih =>
      rw [List.cons_append, total_cons, total_cons, ih]
      ac_rfl

/-- What negations contribute of themselves. -/
def signs (kind : ChainKind) (n : Nat) : K := kind.total (List.replicate n kind.sign)

theorem signs_add (m n : Nat) : kind.signs (m + n) = kind.join (kind.signs m) (kind.signs n : K) := by
  rw [signs, ← List.replicate_append_replicate, total_append]
  rfl

theorem signs_succ (n : Nat) : kind.signs (n + 1) = kind.join kind.sign (kind.signs n : K) := by
  rw [signs, List.replicate_succ, total_cons]
  rfl

theorem total_additive (as : List K) : additive.total as = as.sum := rfl

theorem total_multiplicative (as : List K) : multiplicative.total as = as.prod := rfl

theorem signs_additive (n : Nat) : (additive.signs n : K) = 0 := by
  rw [signs, total_additive, List.sum_replicate]
  exact nsmul_zero n

theorem signs_multiplicative (n : Nat) : (multiplicative.signs n : K) = (-1) ^ n := by
  rw [signs, total_multiplicative, List.prod_replicate]
  rfl

/-- A sign is the same above and below a division line. -/
theorem contribution_sign : kind.contribution flip (kind.sign : K) = kind.sign := by
  cases kind <;> cases flip <;> simp [contribution, sign]

theorem contribution_comm (flip flip' : Bool) (a : K) :
    kind.contribution flip (kind.contribution flip' a)
      = kind.contribution flip' (kind.contribution flip a) := by
  cases flip <;> cases flip' <;> simp

end ChainKind

namespace Expr

variable [Arithmetic K] {D : Domain K} {env : Environment K} {e : Expr K} {kind : ChainKind}
  {val : Expr K → K} {v : K}

/-- What the terms of a chain contribute, given how the chain itself enters. -/
def contributions (val : Expr K → K) (kind : ChainKind) (flipped pinned : Bool) (e : Expr K) : List K :=
  (e.termsFrom kind flipped pinned).map fun t => kind.contribution t.flipped (val t.expr)

/-- A chain contributes what its negations and its terms do. -/
theorem contribution_eq_total (hD : FieldDomain D) (hval : ∀ x u, Evaluates D env x u → val x = u)
    (flipped pinned : Bool) (h : Evaluates D env e v) :
    kind.contribution flipped v = kind.join (kind.signs (e.negations kind))
      (kind.total (e.contributions val kind flipped pinned)) := by
  induction e using chain_induction kind generalizing flipped pinned v with
  | term e he =>
      rw [contributions, he.termsFrom, he.negations, List.map_singleton, hval e v h]
      simp [ChainKind.signs]
  | neg x ih =>
      obtain ⟨b, hx, rfl⟩ := hD.evaluates_neg.mp h
      have hbelow : (unary .neg x).contributions val kind flipped pinned
          = x.contributions val kind (flipped != (kind == .additive)) false := by
        rw [contributions, termsFrom_neg, List.map_map]
        rfl
      rw [hbelow, negations_neg, ChainKind.signs_succ, ChainKind.neg_eq kind, ChainKind.contribution_join,
        ChainKind.contribution_sign, ChainKind.contribution_comm, ← ChainKind.contribution_bne,
        ih _ false hx]
      ac_rfl
  | operator op l r flip hop ihl ihr =>
      obtain ⟨b, c, hl, hr, -, rfl⟩ := (evaluates_flips hD hop).mp h
      have hbelow : (binary op l r).contributions val kind flipped pinned
          = l.contributions val kind flipped (op == .div)
            ++ r.contributions val kind (flipped != flip) false := by
        rw [contributions, termsFrom_binary hop, List.map_append, List.map_map, List.map_map]
        rfl
      rw [hbelow, negations_binary (Option.isSome_of_eq_some hop), ChainKind.signs_add,
        ChainKind.total_append, ChainKind.contribution_join, ChainKind.contribution_comm,
        ← ChainKind.contribution_bne, ihl _ (op == .div) hl, ihr _ false hr]
      ac_rfl

/-- Nothing is divided by zero in the operators of a chain. -/
def Divides (D : Domain K) (env : Environment K) (kind : ChainKind) (e : Expr K) : Prop :=
  ∀ p ∈ e.chainOperators kind, ∀ l r, e.at? p = some (binary .div l r) → ¬Evaluates D env r 0

theorem Evaluates.divides (hD : FieldDomain D) (h : Evaluates D env e v) : Divides D env kind e := by
  intro p _ l r hat hzero
  obtain ⟨u, hu⟩ := h.part hat
  obtain ⟨b, c, -, hr, hc, -⟩ := hD.evaluates_div.mp hu
  exact hc (hr.unique hzero)

theorem divides_neg (h : Divides D env kind (unary .neg e)) : Divides D env kind e := fun p hp l r hat =>
  h (.operand :: p) (by rw [chainOperators_neg]; exact List.mem_cons_of_mem _ (List.mem_map_of_mem hp))
    l r hat

theorem divides_binary {l r : Expr K} {op : BinaryOp} {flip : Bool} (hop : kind.flips? op = some flip)
    (h : Divides D env kind (binary op l r)) :
    Divides D env kind l ∧ Divides D env kind r ∧ (op = .div → ¬Evaluates D env r 0) := by
  have hops := chainOperators_binary (l := l) (r := r) hop
  refine ⟨fun p hp => h (.left :: p) ?_, fun p hp => h (.right :: p) ?_, ?_⟩
  · rw [hops]
    exact List.mem_cons_of_mem _ (List.mem_append_left _ (List.mem_map_of_mem hp))
  · rw [hops]
    exact List.mem_cons_of_mem _ (List.mem_append_right _ (List.mem_map_of_mem hp))
  · rintro rfl
    exact h [] (by simp [hops]) l r rfl

/-- A chain has a value if its terms have one and nothing is divided by zero. -/
theorem exists_evaluates_of_terms (hD : FieldDomain D) (flipped pinned : Bool)
    (hterms : ∀ t ∈ e.termsFrom kind flipped pinned, ∃ u, Evaluates D env t.expr u)
    (hdiv : Divides D env kind e) : ∃ v, Evaluates D env e v := by
  induction e using chain_induction kind generalizing flipped pinned with
  | term e he =>
      rw [he.termsFrom] at hterms
      exact hterms _ (List.mem_singleton_self _)
  | neg x ih =>
      rw [termsFrom_neg, List.forall_mem_map] at hterms
      obtain ⟨b, hb⟩ := ih _ false hterms (divides_neg hdiv)
      exact ⟨-b, hD.evaluates_neg.mpr ⟨b, hb, rfl⟩⟩
  | operator op l r flip hop ihl ihr =>
      rw [termsFrom_binary hop, List.forall_mem_append, List.forall_mem_map, List.forall_mem_map] at hterms
      obtain ⟨hdivl, hdivr, hne⟩ := divides_binary hop hdiv
      obtain ⟨b, hb⟩ := ihl _ (op == .div) hterms.1 hdivl
      obtain ⟨c, hc⟩ := ihr _ false hterms.2 hdivr
      refine ⟨_, (evaluates_flips hD hop).mpr ⟨b, c, hb, hc, ?_, rfl⟩⟩
      rintro rfl rfl rfl
      -- only a quotient flips the right operand of a product
      have hquotient : op = .div := by
        cases op <;> simp [ChainKind.flips?] at hop
        rfl
      exact hne hquotient hc

/-- Values can be given to all expressions that have one. -/
theorem exists_values (D : Domain K) (env : Environment K) :
    ∃ val : Expr K → K, ∀ x u, Evaluates D env x u → val x = u := by
  have hvalue : ∀ x, ∃ w, ∀ u, Evaluates D env x u → w = u := by
    intro x
    by_cases h : ∃ u, Evaluates D env x u
    · obtain ⟨w, hw⟩ := h
      exact ⟨w, fun u hu => hw.unique hu⟩
    · exact ⟨0, fun u hu => absurd ⟨u, hu⟩ h⟩
  choose val hval using hvalue
  exact ⟨val, hval⟩

/-- **A chain denotes what its terms contribute.**  It has a value exactly if its
terms have one and nothing is divided by zero. -/
theorem evaluates_iff_terms (hD : FieldDomain D) (hval : ∀ x u, Evaluates D env x u → val x = u)
    (kind : ChainKind) :
    Evaluates D env e v ↔ (∀ t ∈ e.terms kind, Evaluates D env t.expr (val t.expr)) ∧
      Divides D env kind e ∧ v = kind.join (kind.signs (e.negations kind))
        (kind.total ((e.terms kind).map fun t => kind.contribution t.flipped (val t.expr))) := by
  have hvalue : ∀ {w}, Evaluates D env e w → w = kind.join (kind.signs (e.negations kind))
      (kind.total ((e.terms kind).map fun t => kind.contribution t.flipped (val t.expr))) := fun hw =>
    ChainKind.contribution_false.symm.trans (contribution_eq_total hD hval false false hw)
  constructor
  · intro h
    refine ⟨fun t ht => ?_, h.divides hD, hvalue h⟩
    obtain ⟨u, hu⟩ := h.part (at?_of_mem_termsFrom ht).1
    rwa [hval _ u hu]
  · rintro ⟨hterms, hdiv, rfl⟩
    obtain ⟨w, hw⟩ := exists_evaluates_of_terms hD false false (fun t ht => ⟨_, hterms t ht⟩) hdiv
    rwa [← hvalue hw]

end Expr

end Formula
