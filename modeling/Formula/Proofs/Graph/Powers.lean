/-
Formula/Proofs/Graph/Powers.lean

Merging powers.  A factor joins a power or root of its base: the power gets the
sum or difference of the exponents, a root becomes a power first, in a new cell,
and the factor goes.  All other factors stay as they are (`JoinsPowers`).  If the
factor stood below a negation, which is a factor of its own, minus one is left in
its place.

In any structure with the laws of powers the product keeps its value
(`applyRule_combineExponents`).
-/
import Formula.Proofs.Graph.Logarithms
import Mathlib.Analysis.SpecialFunctions.Pow.Real

namespace Formula

universe v w

namespace Graph

variable {α : Type} [Arithmetic α] {g g' : Graph α} {i j k' : Nat} {ε : α} {s : Settings α}

/-- A cell is the operand of a negation. -/
def UnderNegation (g : Graph α) (c : Nat) : Prop :=
  ∃ o x, g.parent? c = some o ∧ g.expr o = .unary .neg x

/-- In the product below a cell the factor `x` has joined the power or root `k`,
which is the power `k'` now. -/
structure JoinsPowers (ε : α) (g : Graph α) (i : Nat) (g' : Graph α) (j : Nat)
    (before after left : List (Nat × Bool)) (k x : Nat × Bool) (k' : Nat) : Prop where
  chain : g.chain .multiplicative i = before ++ x :: after
  chain' : g'.chain .multiplicative j
    = before.map (rename k.1 k') ++ left ++ after.map (rename k.1 k')
  kept : k ∈ before ++ after
  power : (g.expr k.1).powerBase?.isSome
  sameBase : (g.expr k.1).factorBase.equals ε (g.expr x.1).factorBase = true
  joined : g'.expr k' = .binary .pow (g.expr k.1).factorBase
    (.binary (if k.2 = x.2 then .add else .sub) (g.expr k.1).factorExponent (g.expr x.1).factorExponent)
  sameCell : (g.expr k.1).hasOp .root = false → k' = k.1
  others : ∀ t ∈ before ++ after, t.1 ≠ k.1 → g'.expr t.1 = g.expr t.1
  left : UnderNegation g x.1 ∧ (∃ c, left = [(c, x.2)] ∧ g'.expr c = .const Arithmetic.negOne) ∨
    ¬UnderNegation g x.1 ∧ left = []

/-- The number of powers, roots and bare factors of a base among some terms. -/
def baseCount (ε : α) (g : Graph α) (b : Expr α) (ts : List (Nat × Bool)) : Nat :=
  ts.countP fun t => b.equals ε (g.expr t.1).factorBase

/-- Where a factor has joined a power there is one factor of that base less, apart
from what is left in its place. -/
theorem JoinsPowers.baseCount {before after left : List (Nat × Bool)} {k x : Nat × Bool}
    (h : JoinsPowers ε g i g' j before after left k x k') :
    g'.baseCount ε (g.expr k.1).factorBase (g'.chain .multiplicative j) + 1
      = g.baseCount ε (g.expr k.1).factorBase (g.chain .multiplicative i)
        + g'.baseCount ε (g.expr k.1).factorBase left := by
  -- the base of the power that has changed is the base it had
  have hsame : ∀ t ∈ before ++ after,
      (g'.expr (rename k.1 k' t).1).factorBase = (g.expr t.1).factorBase := by
    intro t ht
    by_cases htk : t.1 = k.1
    · rw [rename, if_pos htk, h.joined, htk]
      rfl
    · rw [rename, if_neg htk, h.others t ht htk]
  have hcount : g'.baseCount ε (g.expr k.1).factorBase ((before ++ after).map (rename k.1 k'))
      = g.baseCount ε (g.expr k.1).factorBase (before ++ after) := by
    rw [Graph.baseCount, List.countP_map]
    exact List.countP_congr fun t ht => by simp only [Function.comp_apply, hsame t ht]
  rw [h.chain, h.chain']
  simp only [Graph.baseCount, List.map_append, List.countP_append, List.countP_cons, h.sameBase,
    if_true] at hcount ⊢
  omega

variable [Numeral α]

omit [Arithmetic α] [Numeral α] in
/-- A term of a product is below a negation if its path says so. -/
theorem Holds.underNegation_iff {n a : Node α} {F : Finset Nat} {p : Path} {x : Nat}
    (hn : Holds g i n F) (hat : n.at? p = some a) (hx : g.follow i p = some x) (hp : p ≠ [])
    (hpath : ChainPath .multiplicative n.expr p) :
    UnderNegation g x ↔ p.getLast? = some .operand := by
  obtain ⟨q, s, rfl⟩ := (List.eq_nil_or_concat p).resolve_left hp
  rw [List.concat_eq_append] at hat hx hpath ⊢
  obtain ⟨o, b, E, hb, -, hE, hparent, -, hop⟩ := hn.exists_owner hat hx
  have hbe : n.expr.at? q = some b.expr := by rw [Node.expr_at?, hb, Option.map_some]
  rw [List.getLast?_append, List.getLast?_singleton, Option.some_or]
  constructor
  · rintro ⟨o', y, hparent', hy⟩
    obtain rfl : o = o' := Option.some.inj (hparent.symm.trans hparent')
    rw [hE.expr_eq] at hy
    rcases (hpath.concat hbe).2 with ⟨rfl, -⟩ | ⟨-, op, l, r, hlr, -⟩
    · rfl
    · cases hy.symm.trans hlr
  · intro hs
    obtain ⟨-, y, hy⟩ | ⟨hs', -⟩ := (hpath.concat hbe).2
    · exact ⟨o, y, hparent, hE.expr_eq.trans hy⟩
    · rcases hs' with rfl | rfl <;> cases hs

omit [Numeral α] in
/-- What a splice leaves of a factor, in a graph. -/
theorem exists_left {n : Node α} {F : Finset Nat} {e : Expr α} {cell' : Path → Nat}
    {t : ChainTerm α} {sp : Splice α} {x : Nat} (hn : Holds g i n F)
    (hloc' : Locates g' j (e.splice sp) cell') (ht : t ∈ n.expr.terms .multiplicative)
    (hpin : t.pinned = false) (hx : g.follow i t.path = some x)
    (hsp : n.expr.splice? .multiplicative t.path = some sp)
    (he : e.splice? .multiplicative t.path = some sp) (hsome : (e.at? t.path).isSome) :
    UnderNegation g x ∧ (∃ c, (sp.leaves t.flipped).map (fun p => (cell' p.1, p.2)) = [(c, t.flipped)] ∧
        g'.expr c = .const Arithmetic.negOne) ∨
      ¬UnderNegation g x ∧ (sp.leaves t.flipped).map (fun p => (cell' p.1, p.2)) = [] := by
  obtain ⟨hat, hpath⟩ := Expr.at?_of_mem_termsFrom ht
  obtain ⟨a, ha, -⟩ := Node.exists_at?_of_expr hat
  have hne : t.path ≠ [] := by
    intro hnil
    rw [hnil] at hsp
    cases hsp
  rw [hn.underNegation_iff ha hx hne hpath]
  rcases Expr.leaves_of_splice? hpath (Option.isSome_of_eq_some hat) hsp
    (Expr.place_ne_of_not_pinned ht hpin hsp) with ⟨q, -, hq, rfl⟩ | ⟨hnil, hlast⟩
  · refine .inl ⟨by rw [hq]; simp, cell' q, rfl, hloc'.expr q _ ?_⟩
    obtain ⟨o, ho⟩ := Option.isSome_iff_exists.mp (Expr.isSome_place he hsome)
    exact Expr.at?_put_self ho _
  · exact .inr ⟨hlast rfl, by rw [hnil]; rfl⟩

/-- A factor of a tree joins a power. -/
theorem combineExponents_run {n : Node α} {F : Finset Nat} {m : Move α} (hg : Honest g)
    (hn : Holds g i n F) (h : n.expr.combineExponents s = some m) :
    ∃ g' j E before after left k x k', (Editing.perform i m).Runs g [] g' j ∧
      Holds g' j (n.perform m) E ∧ JoinsPowers s.epsilon g i g' j before after left k x k' := by
  obtain ⟨⟨b, kept⟩, hk, hbase, t, ht, hne, hpin, hequals, rfl⟩ := Expr.combineExponents_spec h
  simp only at hk hbase hne hequals ⊢
  obtain ⟨l, r, hlr⟩ := Expr.powerBase?_spec hbase
  obtain ⟨sp, hrem, hkept, -, hremoved, hsp⟩ := Expr.exists_joinable hk ht hne
  obtain ⟨hfits, -⟩ := Expr.exponent_spec (Expr.isFilled_part n.isFilled_expr hremoved)
  -- only whether the flags agree matters for the run, not which ones they are
  generalize hop : (if kept.flipped = t.flipped then BinaryOp.add else .sub) = op
  obtain ⟨g', j, E, hrun, hturns, hfollow⟩ := joinPowers_spec (K := fun _ _ => True) op hg hn
    (hlr ▸ hkept) hrem hremoved hfits
  refine ⟨g', j, E, ?_⟩
  obtain ⟨L₁, L₂, hlist⟩ := List.append_of_mem ht
  have hmem : kept ∈ L₁ ++ L₂ := by
    have hkeptMem : kept ∈ L₁ ++ t :: L₂ := hlist ▸ hk
    rcases List.mem_append.mp hkeptMem with hmem | hmem
    · exact List.mem_append_left _ hmem
    · rcases List.mem_cons.mp hmem with rfl | hmem
      · exact absurd rfl hne
      · exact List.mem_append_right _ hmem
  -- the tree that is made is the old one after one splice, with one factor changed
  have hmerge := (n.expr_perform _).trans (Expr.perform_powers op hk ht hne hbase hsp)
  obtain ⟨cell, cell', hloc, hloc', hchain, hjoined, hunchanged, hcell⟩ :=
    hn.exists_merge hturns.holds hmerge hlist hmem hsp rfl fun q a htq hkq ha =>
      hfollow sp hsp q a htq (.inl hkq) ha
  have hexpr : ∀ u ∈ n.expr.terms .multiplicative, g.expr (cell u.path) = u.expr := fun u hu =>
    hloc.expr _ _ (Expr.at?_of_mem_termsFrom hu).1
  have hkeptBase : (g.expr (cell kept.path)).powerBase? = some b := by rw [hexpr kept hk, hbase]
  refine ⟨Locates.termCells cell L₁, Locates.termCells cell L₂,
    (sp.leaves t.flipped).map fun p => (cell' p.1, p.2), (cell kept.path, kept.flipped),
    (cell t.path, t.flipped), cell' (sp.shift kept.path), hrun, hturns.holds, ?_, hchain, ?_, ?_, ?_, ?_,
    ?_, ?_, ?_⟩
  · simp [hloc.chain_eq_termCells, hlist]
  · rw [← Locates.termCells_append]
    exact List.mem_map_of_mem hmem
  · exact Option.isSome_of_eq_some hkeptBase
  · rw [Expr.factorBase_of_powerBase? hkeptBase, hexpr t ht]
    exact hequals
  · rw [hexpr t ht, Expr.factorBase_of_powerBase? hkeptBase, hexpr kept hk]
    simp only [hop]
    exact hjoined
  · -- a power is changed in place; a root is not, since a power is made of it
    rw [hexpr kept hk]
    intro hroot
    obtain ⟨a, ha, -⟩ := Node.exists_at?_of_expr hkept
    exact hcell (hfollow sp hsp _ a hrem.apart (.inr ⟨rfl, hroot⟩) ha)
  · intro c hc
    rw [← Locates.termCells_append] at hc
    exact hunchanged c hc
  · -- the splice does not see that the other factor has changed
    rw [hmerge] at hloc'
    refine exists_left hn hloc' ht hpin (hloc.follow _ _ hremoved) hsp
      ((Expr.splice?_put hrem.apart.symm).trans hsp) ?_
    rw [Expr.at?_put_of_apart hrem.apart.symm]
    exact Option.isSome_of_eq_some hremoved

/-- **Merging powers keeps the value of a product.**  The rule never fails.  If it
gives a tree, a factor has joined a power or root of its base, there is one factor
of that base less, and all other factors are the same cells as before, in the same
order and with the same flags; a factor from below a negation leaves minus one.
Without a tolerance the new tree has the value of the old one wherever the factors
are in a commutative group in which a negation is a factor, and the laws of powers
hold for the bases and exponents in the product. -/
theorem applyRule_combineExponents (optimize : Editing.Run α) (hg : Reachable g)
    (hi : g.isWellFormed i = true) (hε : s.epsilon = Arithmetic.zero) :
    (Editing.applyRule s optimize .combineExponents i).Runs g [] g none ∨
      ∃ g' j before after left k x k',
        (Editing.applyRule s optimize .combineExponents i).Runs g [] g' (some j) ∧
        g'.isWellFormed j = true ∧
        JoinsPowers s.epsilon g i g' j before after left k x k' ∧
        g'.baseCount s.epsilon (g.expr k.1).factorBase (g'.chain .multiplicative j) + 1
          = g.baseCount s.epsilon (g.expr k.1).factorBase (g.chain .multiplicative i)
            + g'.baseCount s.epsilon (g.expr k.1).factorBase left ∧
        ∀ {V : Type v} {G : Type w} [CommGroup G] (R : Interpretation α V) (ι : G → V) (c : G),
          R.ReadsProducts ι c → R.Respects → R.PowerLaws (g.expr i) →
          R.HasTerms .multiplicative ι (g.expr i) → R.value (g'.expr j) = R.value (g.expr i) := by
  obtain ⟨n, F, hn⟩ := isWellFormed_iff.mp hi
  cases hm : n.expr.combineExponents s with
  | none => exact .inl (applyRule_of_none (by decide) (by rw [hn.expr_eq]; exact hm))
  | some m =>
      obtain ⟨g', j, E, before, after, left, k, x, k', hrun, hholds, hjoins⟩ :=
        combineExponents_run hg.sound.honest hn hm
      refine .inr ⟨g', j, before, after, left, k, x, k',
        applyRule_of_move (by decide) (by rw [hn.expr_eq]; exact hm) hrun,
        isWellFormed_iff.mpr ⟨_, _, hholds⟩, hjoins, hjoins.baseCount, ?_⟩
      intro V G _ R ι c hR hconst hlaws hterms
      rw [hn.expr_eq] at hlaws hterms ⊢
      rw [hholds.expr_eq, Node.expr_perform]
      exact Interpretation.value_combineExponents hR hconst hlaws hterms hε hm

/-! ### Real values -/

theorem readsProducts_realReading (env : String → ℝ) :
    (realReading env).ReadsProducts (Units.val : ℝˣ → ℝ) (-1) where
  injective := Units.val_injective
  mul _ _ := (Units.val_mul _ _).symm
  div _ _ := (Units.val_div_eq_div_val _ _).symm
  neg a := by simp [realReading]
  negOne := by
    have hone : (Arithmetic.negOne : ℚ) = -1 := by decide +kernel
    simp [realReading, hone]

/-- The square root of `y` times the negation of `y`, divided by `z`. -/
def negatedFactor : Graph ℚ :=
  (((((((((empty.add (.const 2)).1.add (.var "y")).1.newBinary .root (some 0) (some 1)).1.add
    (.var "y")).1.newUnary .neg (some 3)).1.newBinary .mul (some 2) (some 4)).1.add (.var "z")).1.newBinary
    .div (some 5) (some 6)).1)

theorem expr_negatedFactor : negatedFactor.expr 7 = .binary .div (.binary .mul
    (.binary .root (.const 2) (.var "y")) (.unary .neg (.var "y"))) (.var "z") := by decide +kernel

/-- The factor from below the negation joins the root, and the value stays. -/
theorem applyRule_combineExponents_negated : ∃ g' j,
    (Editing.applyRule ⟨true, 0, false⟩ (fun _ => return none) .combineExponents 7).Runs
      negatedFactor [] g' (some j) ∧
    g'.isWellFormed j = true ∧
    (realReading fun _ => 4).value (g'.expr j) = 4 ^ (1 / 2 : ℝ) * -4 / 4 := by
  have hreachable : Reachable negatedFactor :=
    .newBinary _ _ _ <| .newVar _ <| .newBinary _ _ _ <| .newUnary _ _ <| .newVar _ <|
      .newBinary _ _ _ <| .newVar _ <| .newConst _ .empty
  have htree : ((Editing.applyRule ⟨true, 0, false⟩ (fun _ => return none) .combineExponents 7
      negatedFactor).value.2.toOption.join).isSome = true := by decide +kernel
  rcases applyRule_combineExponents (fun _ => return none) hreachable
    (show negatedFactor.isWellFormed 7 = true by decide +kernel)
    (show (⟨true, 0, false⟩ : Settings ℚ).epsilon = Arithmetic.zero from rfl) with
    hnone | ⟨g', j, -, -, -, -, -, -, hrun, hj, -, -, hvalue⟩
  · rw [hnone] at htree
    cases htree
  refine ⟨g', j, hrun, hj, ?_⟩
  have hterms : (negatedFactor.expr 7).terms .multiplicative
      = [⟨.binary .root (.const 2) (.var "y"), false, false, [.left, .left]⟩,
        ⟨.var "y", false, false, [.left, .right, .operand]⟩, ⟨.var "z", true, false, [.right]⟩] := by
    rw [expr_negatedFactor]
    rfl
  rw [hvalue _ _ _ (readsProducts_realReading _) (respects_realReading _) ?_ ?_, expr_negatedFactor]
  · have htwo : ((2 : ℚ) : ℝ) = 2 := by norm_num
    change 4 ^ (1 / ((2 : ℚ) : ℝ)) * -4 / 4 = _
    rw [htwo]
  · have hbase : ∀ b, (realReading fun _ => 4).HasBase (negatedFactor.expr 7) b → b = 4 := by
      rintro b ⟨t, ht, x, hx, rfl⟩
      rw [hterms] at ht
      simp only [List.mem_cons, List.not_mem_nil, or_false] at ht
      rcases ht with rfl | rfl | rfl <;> cases hx
      rfl
    have hfour : (0 : ℝ) < 4 := four_pos
    have hone : (realReading fun _ => 4).const Arithmetic.one = 1 := Rat.cast_one
    refine ⟨fun b hb => ?_, fun d b hb => ?_, fun b c d hb _ _ => ?_, fun b c d hb _ _ => ?_⟩
    · rw [hone]
      exact Real.rpow_one b
    · rw [hone]
      rfl
    · obtain rfl := hbase b hb
      exact Real.rpow_add hfour c d
    · obtain rfl := hbase b hb
      exact Real.rpow_sub hfour c d
  · intro t ht
    rw [hterms] at ht
    simp only [List.mem_cons, List.not_mem_nil, or_false] at ht
    have hnonzero : (realReading fun _ => 4).value t.expr ≠ 0 := by
      rcases ht with rfl | rfl | rfl
      · exact (Real.rpow_pos_of_pos four_pos _).ne'
      · exact four_ne_zero
      · exact four_ne_zero
    exact ⟨Units.mk0 _ hnonzero, rfl⟩

end Graph

end Formula
