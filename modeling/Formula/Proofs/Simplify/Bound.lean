/-
Formula/Proofs/Simplify/Bound.lean

No part of a run of the optimizer increases the weight of a tree
(`weight_optimizeWithin`).  So the weight bounds the depth of a run, and what
bound a run is given beyond the weight makes no difference
(`optimizeWithin_eq_optimize`).  This does not depend on the limit of passes, so
it is proved for the optimizer with any limit (`optimizeCapped`).
-/
import Formula.Proofs.Simplify.Performing
import Formula.Simplify.Optimize

namespace Formula

universe u

namespace Node

variable {α : Type u} [Arithmetic α] {s : Settings α} {env : Environment α}
  {optimize optimize' : Run α} {n m : Node α}

omit [Arithmetic α] in
theorem one_le_weight (n : Node α) : 1 ≤ n.expr.weight := Expr.one_le_weight n.isFilled_expr

omit [Arithmetic α] in
/-- The products that fractions are combined to are lighter than the product of
the fractions. -/
theorem weight_fractions (op : BinaryOp) (x y z w : Expr α) :
    (Expr.binary .mul x y).weight + (Expr.binary .mul z w).weight
      < (Expr.binary op (.binary .div x z) (.binary .div y w)).weight := by
  simp only [Expr.weight, reduceCtorEq, if_false]
  have hpos : 1 ≤ if op = .root then 3 else 1 := by split <;> decide
  omega

/-- The tree is an operator of two quotients. -/
def OfFractions (n : Node α) : Prop :=
  ∃ t op u a b v c d, n = .binary t op (.binary u .div a b) (.binary v .div c d)

omit [Arithmetic α] in
theorem combineFractions_of_not (h : ¬n.OfFractions) : combineFractions optimize n = pure none := by
  unfold combineFractions
  split
  · exact absurd ⟨_, _, _, _, _, _, _, _, rfl⟩ h
  · rfl

/-! ### The rule that is applied -/

/-- The rule that is applied, and those before it, which do not apply. -/
theorem firstRule_eq_some {rules : List Rule} (h : (firstRule s optimize n rules).value = some m) :
    ∃ before rule after, rules = before ++ rule :: after ∧
      (∀ r ∈ before, (applyRule s optimize r n).value = none) ∧ (applyRule s optimize rule n).value = some m ∧
      ∀ e ∈ (applyRule s optimize rule n).trace, e ∈ (firstRule s optimize n rules).trace := by
  induction rules with
  | nil => cases h
  | cons rule rest ih =>
      simp only [firstRule, Traced.value_bind, Traced.trace_bind, List.mem_append] at h ⊢
      split at h
      · next m' hm' =>
        obtain rfl : m' = m := Option.some.inj h
        exact ⟨[], rule, rest, rfl, nofun, hm', fun e he => .inl he⟩
      · next hnone =>
        obtain ⟨before, rule', after, rfl, hbefore, hm, htrace⟩ := ih h
        refine ⟨rule :: before, rule', after, rfl, ?_, hm, fun e he => ?_⟩
        · rintro r (_ | ⟨_, hr⟩)
          exacts [hnone, hbefore r hr]
        · exact .inr (htrace e he)

/-- If no rule is applied, none of them applies. -/
theorem firstRule_eq_none {rules : List Rule} (h : (firstRule s optimize n rules).value = none) :
    ∀ rule ∈ rules, (applyRule s optimize rule n).value = none := by
  induction rules with
  | nil => nofun
  | cons rule rest ih =>
      simp only [firstRule, Traced.value_bind] at h
      split at h
      · cases h
      · next hnone =>
        rintro r (_ | ⟨_, hr⟩)
        exacts [hnone, ih h r hr]

theorem move?_eq_none {rule : Rule} (h : (applyRule s optimize rule n).value = none)
    (hrule : rule ≠ .combineFractions) : rule.move? s n.expr = none := by
  rw [applyRule, if_neg hrule] at h
  exact Option.map_eq_none_iff.mp h

/-! ### No run increases the weight -/

/-- The run makes nothing heavier. -/
def Lightens (optimize : Run α) : Prop :=
  ∀ n, (optimize n).value.node.expr.weight ≤ n.expr.weight

namespace Lightens

omit [Arithmetic α] in
theorem wholeTree (h : Lightens optimize) (n : Node α) :
    (wholeTree optimize n).value.expr.weight ≤ n.expr.weight := h n

omit [Arithmetic α] in
theorem combineFractions (h : Lightens optimize)
    (hm : (combineFractions optimize n).value = some m) : m.expr.weight ≤ n.expr.weight := by
  unfold Node.combineFractions at hm
  split at hm
  · next op _ a b _ c d =>
    have habove := h.wholeTree (newBinary .mul a.clean c.clean)
    have hbelow := h.wholeTree (newBinary .mul b.clean d.clean)
    have hweight := weight_fractions op a.expr c.expr b.expr d.expr
    simp only [Traced.value_bind, Traced.value_pure] at hm
    split at hm
    · cases hm
    · obtain rfl := Option.some.inj hm
      simp only [newBinary, expr, expr_clean, Expr.weight] at habove hbelow hweight ⊢
      simp at habove hbelow hweight ⊢
      omega
  · cases hm

theorem applyRule (h : Lightens optimize) {rule : Rule} (hrule : rule ∈ n.expr.rules)
    (hm : (applyRule s optimize rule n).value = some m) : m.expr.weight ≤ n.expr.weight := by
  unfold Node.applyRule at hm
  split at hm
  · exact h.combineFractions hm
  · obtain ⟨move, hmove, rfl⟩ := Option.map_eq_some_iff.mp hm
    rw [Node.expr_perform]
    exact Expr.weight_perform n.isFilled_expr (fits_of_move? n.isFilled_expr hrule hmove)

theorem firstRule (h : Lightens optimize) {rules : List Rule} (hrules : ∀ r ∈ rules, r ∈ n.expr.rules)
    (hm : (firstRule s optimize n rules).value = some m) : m.expr.weight ≤ n.expr.weight := by
  obtain ⟨before, rule, after, rfl, -, hm, -⟩ := firstRule_eq_some hm
  exact h.applyRule (hrules rule (by simp)) hm

omit [Arithmetic α] in
theorem optimizeOperands (h : Lightens optimize) (n : Node α) :
    (optimizeOperands optimize n).value.node.expr.weight ≤ n.expr.weight := by
  cases n with
  | const | var => exact Nat.le_refl _
  | unary t op x =>
      have hx := h x
      simp only [Node.optimizeOperands, Traced.value_bind, Traced.value_pure, expr, Expr.weight]
      omega
  | binary t op l r =>
      have hl := h l
      have hr := h r
      simp only [Node.optimizeOperands, Traced.value_bind, Traced.value_pure, expr, Expr.weight]
      omega

theorem pass (h : Lightens optimize) : Lightens (pass s optimize) := by
  intro n
  have hoperands := h.optimizeOperands n
  simp only [Node.pass, Traced.value_bind]
  split
  · exact hoperands
  · simp only [Traced.value_bind]
    split
    · next m hm => exact (h.firstRule (fun _ hr => hr) hm).trans hoperands
    · exact hoperands

theorem passes (h : Lightens optimize) (k : Nat) : Lightens (passes s optimize k) := by
  induction k with
  | zero => exact fun n => Nat.le_refl _
  | succ k ih =>
      intro n
      have hpass := h.pass (s := s) n
      simp only [Node.passes, Traced.value_bind]
      split
      · exact hpass
      · exact (ih _).trans hpass

theorem finish (env : Environment α) (st : Step α) :
    (finish env st).node.expr.weight ≤ st.node.expr.weight := by
  unfold Node.finish
  split
  · simp
  · split
    · simpa [newConst, expr, Expr.weight] using one_le_weight st.node
    · simp

end Lightens

/-- The optimizer with any limit of passes. -/
def optimizeCapped (s : Settings α) (env : Environment α) (cap : Nat) : Nat → Run α
  | 0, n => return ⟨n, .unchanged⟩
  | fuel + 1, n =>
    if n.tag.settled then return ⟨n, .unchanged⟩
    else do return finish env (← passes s (optimizeCapped s env cap fuel) cap n)

/-- With its own limit it is the optimizer. -/
theorem optimizeCapped_maxPasses (s : Settings α) (env : Environment α) (fuel : Nat) :
    optimizeCapped s env maxPasses fuel = optimizeWithin s env fuel := by
  induction fuel with
  | zero => rfl
  | succ fuel ih =>
      funext n
      rw [optimizeCapped, optimizeWithin, ih]

/-- An optimizer run does not increase the weight. -/
theorem weight_optimizeCapped (s : Settings α) (env : Environment α) (cap fuel : Nat) :
    Lightens (optimizeCapped s env cap fuel) := by
  induction fuel with
  | zero => exact fun n => Nat.le_refl _
  | succ fuel ih =>
      intro n
      unfold optimizeCapped
      split
      · exact Nat.le_refl _
      · exact (Lightens.finish env _).trans (ih.passes cap n)

theorem weight_optimizeWithin (s : Settings α) (env : Environment α) (fuel : Nat) :
    Lightens (optimizeWithin s env fuel) := by
  rw [← optimizeCapped_maxPasses]
  exact weight_optimizeCapped s env maxPasses fuel

/-! ### The bound makes no difference -/

/-- Two runs do the same on trees below a weight. -/
def AgreeBelow (w : Nat) (optimize optimize' : Run α) : Prop :=
  ∀ n, n.expr.weight < w → optimize n = optimize' n

namespace AgreeBelow

variable {w : Nat}

omit [Arithmetic α] in
theorem wholeTree (h : AgreeBelow w optimize optimize') (hn : n.expr.weight < w) :
    wholeTree optimize n = wholeTree optimize' n := by
  rw [Node.wholeTree, Node.wholeTree, h n hn]

omit [Arithmetic α] in
theorem combineFractions (h : AgreeBelow w optimize optimize') (hn : n.expr.weight ≤ w) :
    combineFractions optimize n = combineFractions optimize' n := by
  unfold Node.combineFractions
  split
  · next op _ a b _ c d =>
    have hweight := weight_fractions op a.expr c.expr b.expr d.expr
    have habove : (newBinary .mul a.clean c.clean).expr
        = .binary .mul a.expr c.expr := by simp [newBinary, expr]
    have hbelow : (newBinary .mul b.clean d.clean).expr
        = .binary .mul b.expr d.expr := by simp [newBinary, expr]
    simp only [expr] at hn
    simp only [h.wholeTree (n := newBinary .mul a.clean c.clean) (by rw [habove]; omega),
      h.wholeTree (n := newBinary .mul b.clean d.clean) (by rw [hbelow]; omega)]
  · rfl

theorem firstRule (h : AgreeBelow w optimize optimize') (hn : n.expr.weight ≤ w)
    (rules : List Rule) : firstRule s optimize n rules = firstRule s optimize' n rules := by
  induction rules with
  | nil => rfl
  | cons rule rest ih =>
      simp only [Node.firstRule, ih, applyRule, h.combineFractions hn]

omit [Arithmetic α] in
theorem optimizeOperands (h : AgreeBelow w optimize optimize') (hn : n.expr.weight ≤ w) :
    optimizeOperands optimize n = optimizeOperands optimize' n := by
  cases n with
  | const | var => rfl
  | unary t op x =>
      simp only [expr, Expr.weight] at hn
      have hpos : 0 < if op = .neg || op = .ln then 2 else 1 := by split <;> decide
      simp only [Node.optimizeOperands, h x (by omega)]
  | binary t op l r =>
      simp only [expr, Expr.weight] at hn
      have hpos : 0 < if op = .root then 3 else 1 := by split <;> decide
      simp only [Node.optimizeOperands, h l (by omega), h r (by omega)]

theorem pass (h : AgreeBelow w optimize optimize') (hlight : Lightens optimize')
    (hn : n.expr.weight ≤ w) : pass s optimize n = pass s optimize' n := by
  have hoperands := h.optimizeOperands hn
  have hrules : ∀ m : Node α, m.expr.weight ≤ w →
      Node.firstRule s optimize m = Node.firstRule s optimize' m :=
    fun m hm => funext fun rules => h.firstRule hm rules
  have hbelow := hlight.optimizeOperands n
  unfold Node.pass
  rw [hoperands]
  simp only [Bind.bind]
  rw [hrules _ (hbelow.trans hn)]

theorem passes (h : AgreeBelow w optimize optimize') (hlight : Lightens optimize') (k : Nat)
    (hn : n.expr.weight ≤ w) : passes s optimize k n = passes s optimize' k n := by
  induction k generalizing n with
  | zero => rfl
  | succ k ih =>
      have hpass := hlight.pass (s := s) n
      unfold Node.passes
      rw [h.pass hlight hn]
      simp only [Bind.bind]
      rw [ih (hpass.trans hn)]

end AgreeBelow

/-- A bound above the weight makes no difference. -/
theorem optimizeCapped_eq {cap fuel fuel' : Nat} (hfuel : n.expr.weight ≤ fuel)
    (hfuel' : n.expr.weight ≤ fuel') :
    optimizeCapped s env cap fuel n = optimizeCapped s env cap fuel' n := by
  induction fuel generalizing n fuel' with
  | zero => exact absurd (one_le_weight n) (Nat.not_le_of_lt (Nat.lt_succ_of_le hfuel))
  | succ fuel ih =>
      cases fuel' with
      | zero => exact absurd (one_le_weight n) (Nat.not_le_of_lt (Nat.lt_succ_of_le hfuel'))
      | succ fuel' =>
          have hagree : AgreeBelow n.expr.weight (optimizeCapped s env cap fuel)
              (optimizeCapped s env cap fuel') := fun m hm => ih (by omega) (by omega)
          unfold optimizeCapped
          rw [hagree.passes (weight_optimizeCapped s env cap fuel') cap (Nat.le_refl _)]

theorem optimizeWithin_eq_optimize {fuel : Nat} (hfuel : n.expr.weight ≤ fuel) :
    optimizeWithin s env fuel n = Node.optimize s env n := by
  rw [optimize, ← optimizeCapped_maxPasses, ← optimizeCapped_maxPasses]
  exact optimizeCapped_eq hfuel (Nat.le_refl _)

end Node

end Formula
