/-
Formula/Proofs/Graph/Logarithms.lean

Merging logarithms.  There is something to merge exactly if two logarithms of a
sum have equal bases.  Then the second one to a base goes, and the first one stays
as a cell, a kind of logarithm and a sign, with the product or quotient of the two
arguments; every other term stays as it is (`JoinsLogarithms`).

In any structure with the laws of logarithms the sum keeps its value
(`applyRule_combineLogarithms`).
-/
import Formula.Proofs.Graph.Chains
import Formula.Proofs.Graph.Exactness
import Formula.Proofs.Graph.Validity
import Mathlib.Analysis.SpecialFunctions.Log.Base

namespace Formula

universe v w

namespace Graph

variable {α : Type} [Arithmetic α] {g g' : Graph α} {i j : Nat} {ε : α} {s : Settings α}

/-- No two logarithms of the sum below a cell have equal bases. -/
def LogBasesDiffer (ε : α) (g : Graph α) (i : Nat) : Prop :=
  (g.chain .additive i).Pairwise fun t u => ¬(g.expr t.1).SameLogBase ε (g.expr u.1)

/-- In the sum below a cell the logarithm `x` has joined the logarithm `k`. -/
structure JoinsLogarithms (ε : α) (g : Graph α) (i : Nat) (g' : Graph α) (j : Nat)
    (early between late : List (Nat × Bool)) (k x : Nat × Bool) : Prop where
  chain : g.chain .additive i = early ++ k :: (between ++ x :: late)
  chain' : g'.chain .additive j = early ++ k :: (between ++ late)
  sameBase : (g.expr k.1).SameLogBase ε (g.expr x.1)
  first : ∀ t ∈ early, ¬(g.expr t.1).SameLogBase ε (g.expr x.1)
  joined : g'.expr k.1 = (g.expr k.1).graft (if k.2 = x.2 then .mul else .div)
    [(g.expr k.1).argumentSlot] (g.expr x.1).argument
  others : ∀ t ∈ early ++ between ++ late, g'.expr t.1 = g.expr t.1

/-- The number of logarithms among the terms of a sum. -/
def logCount (g : Graph α) (i : Nat) : Nat :=
  (g.chain .additive i).countP fun t => (g.expr t.1).logBase?.isSome

/-- Where a logarithm has joined another one there is one less. -/
theorem JoinsLogarithms.logCount {early between late : List (Nat × Bool)} {k x : Nat × Bool}
    (h : JoinsLogarithms ε g i g' j early between late k x) :
    g'.logCount j + 1 = g.logCount i := by
  obtain ⟨b, c, hb, hc, -⟩ := h.sameBase
  -- the logarithm that has changed is still one
  have hkept : (g'.expr k.1).logBase?.isSome := by
    rw [h.joined, (Expr.graft_argument hb _ _).1]
    rfl
  have hothers : ∀ L : List (Nat × Bool), (∀ t ∈ L, t ∈ early ++ between ++ late) →
      L.countP (fun t => (g'.expr t.1).logBase?.isSome)
        = L.countP fun t => (g.expr t.1).logBase?.isSome := fun L hL =>
    List.countP_congr fun t ht => by rw [h.others t (hL t ht)]
  simp only [Graph.logCount, h.chain, h.chain', List.countP_append, List.countP_cons, hkept, hb, hc,
    hothers early (by simp +contextual), hothers between (by simp +contextual),
    hothers late (by simp +contextual), Option.isSome_some, if_true]
  omega

variable [Numeral α]

omit [Numeral α] in
theorem logBasesDiffer_iff {n : Node α} {F : Finset Nat} (hn : Holds g i n F) :
    LogBasesDiffer s.epsilon g i ↔ n.expr.combineLogarithms s = none := by
  obtain ⟨cell, hloc⟩ := hn.exists_locates
  have hexpr : ∀ t ∈ n.expr.terms .additive, g.expr (cell t.path) = t.expr := fun t ht =>
    hloc.expr _ _ (Expr.at?_of_mem_termsFrom ht).1
  rw [Expr.combineLogarithms_eq_none_iff, LogBasesDiffer, hloc.chain_eq_termCells, Locates.termCells,
    List.pairwise_map]
  exact List.Pairwise.iff_of_mem fun ht hu => by rw [hexpr _ ht, hexpr _ hu]

/-- A logarithm of a tree joins another one. -/
theorem combineLogarithms_run {n : Node α} {F : Finset Nat} {m : Move α} (hg : Honest g)
    (hn : Holds g i n F) (h : n.expr.combineLogarithms s = some m) :
    ∃ g' j E early between late k x, (Editing.perform i m).Runs g [] g' j ∧
      Holds g' j (n.perform m) E ∧ JoinsLogarithms s.epsilon g i g' j early between late k x := by
  obtain ⟨early, kept, between, t, late, hlist, hsame, hfirst, rfl⟩ := Expr.exists_of_combineLogarithms h
  obtain ⟨b, c, hb, hc, -⟩ := id hsame
  obtain ⟨hk, ht, hapart⟩ := Expr.mem_of_terms_eq hlist
  obtain ⟨sp, hrem, hkept, -, hremoved, hsp⟩ := Expr.exists_joinable hk ht hapart.ne
  obtain ⟨y, hy, -⟩ := Expr.exists_argument (Expr.isFilled_part n.isFilled_expr hkept) (by simp [hb])
  obtain ⟨z, hz, -⟩ := Expr.exists_argument (Expr.isFilled_part n.isFilled_expr hremoved) (by simp [hc])
  have hkeptSlot : n.expr.at? (kept.path ++ [kept.expr.argumentSlot]) = some y := by
    rw [Expr.at?_append, hkept, Option.bind_some, Expr.at?_cons, hy]
    rfl
  generalize hop : (if kept.flipped = t.flipped then BinaryOp.mul else .div) = op
  obtain ⟨g', j, E, hrun, hturns, hfollow⟩ := joinLogarithms_spec (K := fun _ _ => True) op hg hn
    hkeptSlot hrem hremoved hz
  refine ⟨g', j, E, ?_⟩
  have hsplit : n.expr.terms .additive = (early ++ kept :: between) ++ t :: late := by
    rw [hlist, List.append_assoc]
    rfl
  have hmem : kept ∈ (early ++ kept :: between) ++ late := by simp
  -- only out of a product something is left
  have hleaves : sp.leaves t.flipped = [] := by
    rcases Expr.leaves_of_splice? hrem.chain (Option.isSome_of_eq_some hremoved) hsp
      (Expr.place_ne_of_additive hrem.chain hsp) with ⟨-, hkind, -⟩ | ⟨hnil, -⟩
    · cases hkind
    · exact hnil _
  -- the tree that is made is the old one after one splice, with one term changed
  have hmerge := (n.expr_perform _).trans (Expr.perform_logarithms op n.isFilled_expr hk ht
    hapart.ne (Option.isSome_of_eq_some hb) (Option.isSome_of_eq_some hc) hsp)
  obtain ⟨cell, cell', hloc, hloc', hchain, hjoined, hunchanged, hcell⟩ :=
    hn.exists_merge hturns.holds hmerge hsplit hmem hsp
      (Expr.isTerm_of_logBase? (Expr.graft_argument hb op _).1) fun q a htq hkq ha =>
      hfollow sp hsp q a htq (.inl hkq) ha
  have hexpr : ∀ u ∈ n.expr.terms .additive, g.expr (cell u.path) = u.expr := fun u hu =>
    hloc.expr _ _ (Expr.at?_of_mem_termsFrom hu).1
  obtain ⟨a, ha, -⟩ := Node.exists_at?_of_expr hkept
  -- a logarithm is always changed in place, so no cell is renamed
  rw [hcell (hfollow sp hsp _ a hapart (.inr rfl) ha)] at hchain hjoined
  refine ⟨Locates.termCells cell early, Locates.termCells cell between, Locates.termCells cell late,
    (cell kept.path, kept.flipped), (cell t.path, t.flipped), hrun, hturns.holds, ?_, ?_, ?_, ?_, ?_, ?_⟩
  · simp [hloc.chain_eq_termCells, hlist]
  · rw [hchain, hleaves, rename_self]
    simp
  · rw [hexpr kept hk, hexpr t ht]
    exact hsame
  · intro c hc
    obtain ⟨u, hu, rfl⟩ := List.mem_map.mp hc
    rw [hexpr u (by simp [hlist, hu]), hexpr t ht]
    exact hfirst u hu
  · rw [hexpr kept hk, hexpr t ht]
    simp only [hop]
    exact hjoined
  · intro c hc
    rw [← Locates.termCells_append, ← Locates.termCells_append] at hc
    obtain ⟨u, hu, rfl⟩ := List.mem_map.mp hc
    have hu' : u ∈ early ++ (between ++ t :: late) ∧ u ∈ early ++ kept :: between ++ late := by
      simp only [List.mem_append, List.mem_cons] at hu ⊢
      tauto
    -- a term other than the one that has changed, so in another cell
    have hapart' := Expr.apart_of_terms_eq hlist u hu'.1
    have huAt := (Expr.at?_of_mem_termsFrom (show u ∈ n.expr.terms .additive by
      rw [hsplit]
      exact List.mem_append.mpr ((List.mem_append.mp hu'.2).imp_right (List.mem_cons_of_mem t)))).1
    exact hunchanged _ (List.mem_map_of_mem hu'.2) (hloc.ne _ _ _ _ hkept huAt hapart').symm

/-- **Merging logarithms keeps the value of a sum.**  The rule does nothing exactly
if no two logarithms of the sum have equal bases.  Otherwise it succeeds: a
logarithm joins the first one of its base, there is one logarithm less, and all
other terms are the same cells as before, in the same order and with the same
signs.  Without a tolerance the new tree has the value of the old one wherever the
terms are in a commutative group, and the laws of logarithms hold for the arguments
in the sum. -/
theorem applyRule_combineLogarithms (optimize : Editing.Run α) (hg : Reachable g)
    (hi : g.isWellFormed i = true) (hε : s.epsilon = Arithmetic.zero) :
    ((Editing.applyRule s optimize .combineLogarithms i).Runs g [] g none ↔
        LogBasesDiffer s.epsilon g i) ∧
      (¬LogBasesDiffer s.epsilon g i → ∃ g' j early between late k x,
        (Editing.applyRule s optimize .combineLogarithms i).Runs g [] g' (some j) ∧
        g'.isWellFormed j = true ∧
        JoinsLogarithms s.epsilon g i g' j early between late k x ∧
        g'.logCount j + 1 = g.logCount i ∧
        ∀ {V : Type v} {G : Type w} [AddCommGroup G] (R : Interpretation α V) (ι : G → V),
          R.ReadsSums ι → R.Respects → R.LogarithmLaws (g.expr i) →
          R.HasTerms .additive ι (g.expr i) → R.value (g'.expr j) = R.value (g.expr i)) := by
  obtain ⟨n, F, hn⟩ := isWellFormed_iff.mp hi
  rw [logBasesDiffer_iff hn]
  cases hm : n.expr.combineLogarithms s with
  | none =>
      refine ⟨iff_of_true ?_ rfl, fun hne => absurd rfl hne⟩
      exact applyRule_of_none (by decide) (by rw [hn.expr_eq]; exact hm)
  | some m =>
      obtain ⟨g', j, E, early, between, late, k, x, hrun, hholds, hjoins⟩ :=
        combineLogarithms_run hg.sound.honest hn hm
      have happly : (Editing.applyRule s optimize .combineLogarithms i).Runs g [] g' (some j) :=
        applyRule_of_move (by decide) (by rw [hn.expr_eq]; exact hm) hrun
      refine ⟨iff_of_false (fun hnone => ?_) (by simp), fun _ => ⟨g', j, early, between, late, k, x,
        happly, isWellFormed_iff.mpr ⟨_, _, hholds⟩, hjoins, hjoins.logCount, ?_⟩⟩
      · -- a run has one result
        have hsame := hnone.symm.trans happly
        cases hsame
      · intro V G _ R ι hR hconst hlaws hterms
        rw [hn.expr_eq] at hlaws hterms ⊢
        rw [hholds.expr_eq, Node.expr_perform]
        exact Interpretation.value_combineLogarithms hR hconst hlaws hterms hε n.isFilled_expr hm

/-! ### Real values -/

/-- Rational constants read as real numbers, with the natural logarithm to the base
that the rational arithmetic has for it. -/
noncomputable def realReading (env : String → ℝ) : Interpretation ℚ ℝ where
  hole := 0
  const v := v
  var := env
  unary
    | .neg, a => -a
    | .ln, a => Real.logb ((Arithmetic.euler : ℚ) : ℝ) a
    | _, a => a
  binary
    | .add, a, b => a + b
    | .sub, a, b => a - b
    | .mul, a, b => a * b
    | .div, a, b => a / b
    | .pow, a, b => a ^ b
    | .root, a, b => b ^ (1 / a)
    | .log, a, b => Real.logb a b
    | .max, a, b => max a b
    | .min, a, b => min a b

theorem respects_realReading (env : String → ℝ) : (realReading env).Respects := by
  intro a b h
  have halike : a = b := (fieldArithmetic_rat.alike a b).mp h
  rw [halike]

theorem readsSums_realReading (env : String → ℝ) : (realReading env).ReadsSums (id : ℝ → ℝ) :=
  ⟨Function.injective_id, fun _ _ => rfl, fun _ _ => rfl, fun _ => rfl⟩

/-- The natural logarithm of `x` less the difference of `z` and a logarithm of `y`. -/
def mixedLogarithms : Graph ℚ :=
  (((((((empty.add (.var "x")).1.newUnary .ln (some 0)).1.add (.var "z")).1.add (.const 3)).1.add
    (.var "y")).1.newBinary .log (some 3) (some 4)).1.newBinary .sub (some 2) (some 5)).1.newBinary .sub
    (some 1) (some 6) |>.1

theorem expr_mixedLogarithms : mixedLogarithms.expr 7 = .binary .sub (.unary .ln (.var "x"))
    (.binary .sub (.var "z") (.binary .log (.const 3) (.var "y"))) := by decide +kernel

/-- The two logarithms become one, and the value stays. -/
theorem applyRule_combineLogarithms_mixed : ∃ g' j,
    (Editing.applyRule ⟨true, 0, false⟩ (fun _ => return none) .combineLogarithms 7).Runs
      mixedLogarithms [] g' (some j) ∧
    g'.isWellFormed j = true ∧ g'.logCount j = 1 ∧
    (realReading fun _ => 2).value (g'.expr j) = Real.logb 3 2 - (2 - Real.logb 3 2) := by
  have hreachable : Reachable mixedLogarithms :=
    .newBinary _ _ _ <| .newBinary _ _ _ <| .newBinary _ _ _ <| .newVar _ <| .newConst _ <|
      .newVar _ <| .newUnary _ _ <| .newVar _ .empty
  have hchain : mixedLogarithms.chain .additive 7 = [(1, false), (2, true), (5, false)] := by
    decide +kernel
  have hln : mixedLogarithms.expr 1 = .unary .ln (.var "x") := by decide +kernel
  have hlog : mixedLogarithms.expr 5 = .binary .log (.const 3) (.var "y") := by decide +kernel
  have hsame : ¬LogBasesDiffer 0 mixedLogarithms 7 := by
    rw [LogBasesDiffer, hchain]
    intro hpair
    refine (List.pairwise_cons.mp hpair).1 (5, false) (by simp) ?_
    rw [hln, hlog]
    exact ⟨_, _, rfl, rfl, by decide +kernel⟩
  have hcount : mixedLogarithms.logCount 7 = 2 := by decide +kernel
  have hterms : (mixedLogarithms.expr 7).terms .additive
      = [⟨.unary .ln (.var "x"), false, false, [.left]⟩, ⟨.var "z", true, false, [.right, .left]⟩,
        ⟨.binary .log (.const 3) (.var "y"), false, false, [.right, .right]⟩] := by
    rw [expr_mixedLogarithms]
    rfl
  have harguments : ∀ b u, (realReading fun _ => 2).HasArgument (mixedLogarithms.expr 7) b u → u = 2 := by
    rintro b u ⟨t, ht, x, hx, -, rfl⟩
    rw [hterms] at ht
    simp only [List.mem_cons, List.not_mem_nil, or_false] at ht
    rcases ht with rfl | rfl | rfl
    · rfl
    · cases hx
    · rfl
  obtain ⟨-, hjoin⟩ := applyRule_combineLogarithms (fun _ => return none) hreachable
    (show mixedLogarithms.isWellFormed 7 = true by decide +kernel)
    (show (⟨true, 0, false⟩ : Settings ℚ).epsilon = Arithmetic.zero from rfl)
  obtain ⟨g', j, -, -, -, -, -, hrun, hj, -, hless, hvalue⟩ := hjoin hsame
  refine ⟨g', j, hrun, hj, by omega, ?_⟩
  rw [hvalue _ id (readsSums_realReading _) (respects_realReading _) ?_ fun t _ => ⟨_, rfl⟩,
    expr_mixedLogarithms]
  · have hthree : ((3 : ℚ) : ℝ) = 3 := by norm_num
    change Real.logb ((3 : ℚ) : ℝ) 2 - (2 - Real.logb ((3 : ℚ) : ℝ) 2) = _
    rw [hthree]
  · refine ⟨fun u => rfl, fun b u v hu hv => ?_, fun b u v hu hv => ?_⟩
    · obtain rfl := harguments b u hu
      obtain rfl := harguments b v hv
      exact Real.logb_mul two_ne_zero two_ne_zero
    · obtain rfl := harguments b u hu
      obtain rfl := harguments b v hv
      exact Real.logb_div two_ne_zero two_ne_zero

end Graph

end Formula
