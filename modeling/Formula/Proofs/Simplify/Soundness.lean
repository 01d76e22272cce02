/-
Formula/Proofs/Simplify/Soundness.lean

Runs keep the value.  `Preserves D env ctx clear w f` says of a run `f` that what
it makes of an expression with a value has that value, is tidy, and is marked only
where it is tidy, if this is so for what is marked at the start.  It speaks of
trees up to a weight and of runs in which all events are allowed by `clear`.

The optimizer preserves values in exact arithmetic (`preserves_optimizeWithin`)
if there are no powers, or if no limit of passes is reached.  An expression that
the optimizer leaves alone is tidy (`tidy_of_fixed`), so it may be marked at the
start.
-/
import Formula.Proofs.Simplify.Fixed
import Formula.Proofs.Simplify.Tidy

namespace Formula

universe u

open Expr (Evaluates Tidy Loose)

namespace Node

section Rules

variable {α : Type u} [Arithmetic α] {s : Settings α} {f : Run α} {n m : Node α}

/-- A node whose operands are constants has a value. -/
theorem exists_eval_of_hasConstantOperands (ctx : Environment α) (h : n.hasConstantOperands = true) :
    ∃ v, n.expr.eval ctx = .ok v := by
  cases n with
  | const | var => cases h
  | unary t op x =>
      cases x <;> simp [hasConstantOperands, operands, isConst] at h
      exact ⟨_, rfl⟩
  | binary t op l r =>
      cases l <;> cases r <;> simp [hasConstantOperands, operands, isConst] at h
      exact ⟨_, rfl⟩

end Rules

variable {K : Type u} [Field K] [Arithmetic K] {D : Domain K} {env ctx : Environment K}
  {s : Settings K} {clear : Event K → Prop} {w k : Nat} {f : Run K} {n m : Node K} {v : K}

/-- What the run makes of an expression with a value has that value and is tidy. -/
def Preserves (D : Domain K) (env ctx : Environment K) (clear : Event K → Prop) (w : Nat) (f : Run K) :
    Prop :=
  ∀ n v, Evaluates D env n.expr v → Justified (Tidy ctx) n → n.expr.weight ≤ w →
    (∀ e ∈ (f n).trace, clear e) →
      Evaluates D env (f n).value.node.expr v ∧ Justified (Tidy ctx) (f n).value.node ∧
        (f n).value.node.expr.Tidy ctx

omit [Field K] [Arithmetic K] in
/-- What stands first stands before all others. -/
theorem mem_before {first rule : Rule} {rest before after : List Rule}
    (h : first :: rest = before ++ rule :: after) (hne : first ≠ rule) : first ∈ before := by
  cases before with
  | nil => exact absurd (List.cons.inj h).1 hne
  | cons r before => exact (List.cons.inj h).1 ▸ List.mem_cons_self

/-- Nothing is merged into a constant that may be zero: products with the factor
zero have been simplified before. -/
theorem zeroFree_of_before {e : Expr K} {before after : List Rule} (hD : Exact D)
    (hs : s.rational = true) (htidy : ∀ slot x, e.operand? slot = some x → x.Tidy ctx)
    (hrules : e.rules = before ++ .collapseMultiplicativeConstants :: after)
    (hnone : ∀ rule ∈ before, rule ≠ .combineFractions → rule.move? s e = none) :
    e.ZeroFree ctx := by
  have hmem : ChainKind.multiplicative.collapseRule ∈ e.rules := by
    rw [hrules]
    exact List.mem_append_right _ List.mem_cons_self
  obtain ⟨op, l, r, rfl, hop⟩ := collapseRule_mem_rules_iff.mp hmem
  cases op <;> simp only [ChainKind.flips?, Option.isSome_none, Bool.false_eq_true] at hop
  case mul =>
    have h := hnone .simplifyMultiplication (mem_before hrules (by decide)) (by decide)
    exact Expr.zeroFree_of_simplifyMultiplication hD hs (htidy .left l rfl) (htidy .right r rfl)
      (Option.map_eq_none_iff.mp h)
  case div =>
    have h := hnone .simplifyDivision (mem_before hrules (by decide)) (by decide)
    exact Expr.zeroFree_of_simplifyDivision hD hs (htidy .left l rfl) (Option.map_eq_none_iff.mp h)

namespace Preserves

theorem optimizeOperands (hf : Preserves D env ctx clear w f) (hv : Evaluates D env n.expr v)
    (hn : Justified (Tidy ctx) n) (hw : n.expr.weight ≤ w + 1)
    (hclear : ∀ e ∈ (optimizeOperands f n).trace, clear e) :
    Evaluates D env (optimizeOperands f n).value.node.expr v ∧
      Justified (Tidy ctx) (optimizeOperands f n).value.node ∧
      ∀ slot x, (optimizeOperands f n).value.node.expr.operand? slot = some x → x.Tidy ctx := by
  cases n with
  | const | var => exact ⟨hv, hn, fun slot x hx => by cases slot <;> cases hx⟩
  | unary t op x =>
      simp only [expr, Expr.weight] at hw
      obtain ⟨a, hx, hmem, rfl⟩ := Expr.evaluates_unary.mp hv
      obtain ⟨hx', hjust, htidy⟩ := hf x a hx hn.operand (by split at hw <;> omega) fun e he =>
        hclear e (List.mem_append_left _ he)
      exact ⟨.unary hx' hmem, hjust.newUnary op, fun slot y hy => by cases slot <;> cases hy; exact htidy⟩
  | binary t op l r =>
      simp only [expr, Expr.weight] at hw
      simp only [Node.optimizeOperands, Traced.trace_bind, Traced.trace_pure, List.append_nil,
        List.mem_append] at hclear
      obtain ⟨a, b, hl, hr, hmem, rfl⟩ := Expr.evaluates_binary.mp hv
      obtain ⟨hl', hjustl, htidyl⟩ := hf l a hl hn.left (by split at hw <;> omega) fun e he =>
        hclear e (.inl he)
      obtain ⟨hr', hjustr, htidyr⟩ := hf r b hr hn.right (by split at hw <;> omega) fun e he =>
        hclear e (.inr he)
      exact ⟨.binary hl' hr' hmem, hjustl.newBinary hjustr op, fun slot y hy => by
        cases slot <;> cases hy <;> assumption⟩

/-- A product of quotients becomes a quotient of products. -/
theorem combineFractions (hD : Exact D) (hf : Preserves D env ctx clear w f)
    (hv : Evaluates D env n.expr v) (hrule : .combineFractions ∈ n.expr.rules)
    (hw : n.expr.weight ≤ w + 1) (hclear : ∀ e ∈ (combineFractions f n).trace, clear e)
    (hm : (combineFractions f n).value = some m) :
    Evaluates D env m.expr v ∧ Justified (Tidy ctx) m ∧ m.expr.Loose ctx := by
  unfold Node.combineFractions at hm hclear
  split at hm
  · next t op _ a b _ c d =>
    have hweight := weight_fractions op a.expr c.expr b.expr d.expr
    simp only [Traced.value_bind, Traced.value_pure] at hm
    simp only [Traced.trace_bind, Traced.trace_pure, List.append_nil, List.mem_append] at hclear
    simp only [expr] at hw hv hrule
    obtain rfl : op = .mul := by
      cases op <;> simp [Expr.rules] at hrule
      rfl
    obtain ⟨y, z, hab, hcd, rfl⟩ := hD.evaluates_mul.mp hv
    obtain ⟨a', b', ha, hb, hb0, rfl⟩ := hD.evaluates_div.mp hab
    obtain ⟨c', d', hc, hd, hd0, rfl⟩ := hD.evaluates_div.mp hcd
    -- the products above and below the line are optimized each for itself
    have habove : Evaluates D env (newBinary .mul a.clean c.clean).expr (a' * c') := by
      simp only [newBinary, expr, expr_clean]
      exact hD.evaluates_mul.mpr ⟨a', c', ha, hc, rfl⟩
    have hbelow : Evaluates D env (newBinary .mul b.clean d.clean).expr (b' * d') := by
      simp only [newBinary, expr, expr_clean]
      exact hD.evaluates_mul.mpr ⟨b', d', hb, hd, rfl⟩
    obtain ⟨habove', hjust, htidy⟩ := hf _ _ habove ((Justified.clean a).newBinary (.clean c) _)
      (by simp only [newBinary, expr, expr_clean]; omega)
      fun e he => hclear e (.inl (List.mem_append_left _ he))
    obtain ⟨hbelow', hjust', htidy'⟩ := hf _ _ hbelow ((Justified.clean b).newBinary (.clean d) _)
      (by simp only [newBinary, expr, expr_clean]; omega)
      fun e he => hclear e (.inr (List.mem_append_left _ he))
    split at hm
    · cases hm
    · obtain rfl := Option.some.inj hm
      refine ⟨?_, hjust.newBinary hjust' .div, ?_⟩
      · exact hD.evaluates_div.mpr ⟨_, _, habove', hbelow', mul_ne_zero hb0 hd0, div_mul_div_comm ..⟩
      · exact Expr.loose_div htidy htidy'
  · cases hm

theorem firstRule (hD : Exact D) (hε : s.epsilon = 0) (hs : s.rational = true)
    (hf : Preserves D env ctx clear w f) (hv : Evaluates D env n.expr v) (hn : Justified (Tidy ctx) n)
    (htidy : ∀ slot x, n.expr.operand? slot = some x → x.Tidy ctx) (hw : n.expr.weight ≤ w + 1)
    (hclear : ∀ e ∈ (firstRule s f n n.expr.rules).trace, clear e)
    (hm : (firstRule s f n n.expr.rules).value = some m) :
    Evaluates D env m.expr v ∧ Justified (Tidy ctx) m ∧
      ((∀ a b, ¬D.binary .pow a b) → m.expr.Loose ctx) := by
  obtain ⟨before, rule, after, hrules, hbefore, happlied, htrace⟩ := firstRule_eq_some hm
  have hrule : rule ∈ n.expr.rules := by simp [hrules]
  by_cases hcombine : rule = .combineFractions
  · subst hcombine
    rw [Node.applyRule, if_pos rfl] at happlied htrace
    obtain ⟨hv', hjust, hloose⟩ := hf.combineFractions hD hv hrule hw
      (fun e he => hclear e (htrace e he)) happlied
    exact ⟨hv', hjust, fun _ => hloose⟩
  · have hz : rule = .collapseMultiplicativeConstants → n.expr.ZeroFree ctx := by
      rintro rfl
      exact zeroFree_of_before hD hs htidy hrules fun r hr => move?_eq_none (hbefore r hr)
    rw [Node.applyRule, if_neg hcombine] at happlied
    obtain ⟨move, hmove, rfl⟩ := Option.map_eq_some_iff.mp happlied
    refine ⟨?_, hn.perform (fits_of_move? n.isFilled_expr hrule hmove), fun hpow => ?_⟩
    · rw [expr_perform]
      refine evaluates_perform hD hε hrule hmove (fun heq c hc hpin => ?_) hv
      exact Expr.ne_zero_of_zeroFree hD (hz heq) hv (Expr.mem_constantTerms.mp hc) rfl hpin
    · rw [expr_perform]
      exact Expr.loose_perform hD hpow hs htidy hrule hmove hz hv

theorem pass (hD : Exact D) (hε : s.epsilon = 0) (hs : s.rational = true)
    (hf : Preserves D env ctx clear w f) (hlight : Lightens f) (hv : Evaluates D env n.expr v)
    (hn : Justified (Tidy ctx) n) (hw : n.expr.weight ≤ w + 1)
    (hclear : ∀ e ∈ (pass s f n).trace, clear e) :
    Evaluates D env (pass s f n).value.node.expr v ∧ Justified (Tidy ctx) (pass s f n).value.node ∧
      ((∀ a b, ¬D.binary .pow a b) ∨ (pass s f n).value.change = .unchanged →
        (pass s f n).value.node.expr.Loose ctx) := by
  simp only [Node.pass, Traced.value_bind, Traced.trace_bind, List.mem_append] at hclear ⊢
  obtain ⟨hv', hjust, htidy⟩ := hf.optimizeOperands hv hn hw fun e he => hclear e (.inl he)
  have hw' := (hlight.optimizeOperands n).trans hw
  generalize hbelow : (Node.optimizeOperands f n).value = below at *
  split
  · next hconst =>
    exact ⟨hv', hjust, fun _ => .inl (exists_eval_of_hasConstantOperands ctx hconst)⟩
  · next hconst =>
    rw [if_neg hconst] at hclear
    simp only [Traced.value_bind, Traced.trace_bind, List.mem_append] at hclear ⊢
    split
    · next m hm =>
      obtain ⟨hvm, hjustm, hloose⟩ := hf.firstRule hD hε hs hv' hjust htidy hw'
        (fun e he => hclear e (.inr (.inl he))) hm
      exact ⟨hvm, hjustm, fun h => hloose (h.resolve_right (by simp))⟩
    · next hnone =>
      refine ⟨hv', hjust, fun _ => Expr.loose_of_halted hD hs htidy fun rule hrule => ?_⟩
      exact move?_eq_none (firstRule_eq_none hnone rule hrule)

theorem passes (hD : Exact D) (hε : s.epsilon = 0) (hs : s.rational = true)
    (hlimit : (∀ a b, ¬D.binary .pow a b) ∨ ∀ reached, ¬clear (.passLimit reached))
    (hf : Preserves D env ctx clear w f) (hlight : Lightens f) (hv : Evaluates D env n.expr v)
    (hn : Justified (Tidy ctx) n) (hw : n.expr.weight ≤ w + 1) (hk : k = 0 → n.expr.Loose ctx)
    (hclear : ∀ e ∈ (passes s f k n).trace, clear e) :
    Evaluates D env (passes s f k n).value.node.expr v ∧
      Justified (Tidy ctx) (passes s f k n).value.node ∧
      (passes s f k n).value.node.expr.Loose ctx := by
  induction k generalizing n with
  | zero => exact ⟨hv, hn, hk rfl⟩
  | succ k ih =>
      simp only [Node.passes, Traced.value_bind, Traced.trace_bind, List.mem_append] at hclear ⊢
      obtain ⟨hv', hjust, hloose⟩ := hf.pass hD hε hs hlight hv hn hw fun e he => hclear e (.inl he)
      split
      · next hunchanged => exact ⟨hv', hjust, hloose (.inr hunchanged)⟩
      · next hchanged =>
        rw [if_neg hchanged] at hclear
        simp only [Traced.trace_bind, List.mem_append] at hclear
        refine ih hv' hjust ((hlight.pass n).trans hw) (fun hk => hloose (.inl ?_)) fun e he =>
          hclear e (.inr (.inl he))
        subst hk
        refine hlimit.resolve_right fun h => h (Node.pass s f n).value.node.expr (hclear _ ?_)
        simp [Node.passes, Traced.report]

end Preserves

theorem preserves_finish {st : Step K} (hle : ∀ x v, ctx x = some v → env x = some v)
    (hv : Evaluates D env st.node.expr v) (hn : Justified (Tidy ctx) st.node)
    (hloose : st.node.expr.Loose ctx) :
    Evaluates D env (finish ctx st).node.expr v ∧ Justified (Tidy ctx) (finish ctx st).node ∧
      (finish ctx st).node.expr.Tidy ctx := by
  unfold finish
  split
  · next hconst =>
    have htidy : st.node.expr.Tidy ctx := by
      cases hnode : st.node <;> rw [hnode] at hconst <;> cases hconst
      exact .inl ⟨_, rfl⟩
    simp only [expr_settle]
    exact ⟨hv, hn.settle htidy, htidy⟩
  · split
    · next c hc =>
      have htidy : (newConst c).expr.Tidy ctx := .inl ⟨c, rfl⟩
      simp only [expr_settle]
      exact ⟨hv.of_fold hle hc, (Justified.newConst c).settle htidy, htidy⟩
    · next err herr =>
      have hnone : ∀ c, st.node.expr.eval ctx ≠ .ok c := fun c hc => by rw [herr] at hc; cases hc
      have htidy := hloose.tidy st.node.isFilled_expr hnone
      simp only [expr_settle]
      exact ⟨hv, hn.settle htidy, htidy⟩

/-- **The optimizer preserves values** in exact arithmetic, if there are no powers or
no limit of passes is reached. -/
theorem preserves_optimizeWithin (hD : Exact D) (hε : s.epsilon = 0) (hs : s.rational = true)
    (hle : ∀ x v, ctx x = some v → env x = some v)
    (hlimit : (∀ a b, ¬D.binary .pow a b) ∨ ∀ reached, ¬clear (.passLimit reached)) (fuel : Nat) :
    Preserves D env ctx clear fuel (optimizeWithin s ctx fuel) := by
  induction fuel with
  | zero => exact fun n _ _ _ hw => absurd (one_le_weight n) (Nat.not_le_of_lt (Nat.lt_succ_of_le hw))
  | succ fuel ih =>
      intro n v hv hn hw hclear
      unfold optimizeWithin at hclear ⊢
      split
      · next hsettled => exact ⟨hv, hn, hn.holds_of_settled hsettled⟩
      next hsettled =>
      simp only [if_neg hsettled, Traced.trace_bind, Traced.trace_pure, List.append_nil] at hclear
      obtain ⟨hv', hjust, hloose⟩ := ih.passes hD hε hs hlimit (weight_optimizeWithin s ctx fuel) hv hn
        hw (by simp [maxPasses]) hclear
      exact preserves_finish hle hv' hjust hloose

/-! ### What is left alone is tidy -/

theorem tidy_of_stuck (hD : Exact D) (hs : s.rational = true) (h : n.expr.Stuck s ctx)
    (htidy : ∀ slot x, n.expr.operand? slot = some x → x.Tidy ctx) : n.expr.Tidy ctx := by
  have hconst : n.hasConstantOperands = false := by
    rw [Bool.eq_false_iff]
    intro hconst
    obtain ⟨v, hv⟩ := exists_eval_of_hasConstantOperands ctx hconst
    exact h.valueless v hv
  refine (Expr.loose_of_halted hD hs htidy fun rule hrule => ?_).tidy n.isFilled_expr h.valueless
  exact move?_eq_none (firstRule_eq_none (h.halted n rfl hconst) rule hrule)

/-- A fixed expression is tidy. -/
theorem tidy_of_fixed (hD : Exact D) (hs : s.rational = true) (h : n.expr.Fixed s ctx) :
    n.expr.Tidy ctx := by
  induction n with
  | const t c => exact .inl ⟨c, rfl⟩
  | var t x => exact tidy_of_stuck (n := var t x) hD hs h fun slot y hy => by cases slot <;> cases hy
  | unary t op x ih =>
      refine tidy_of_stuck (n := unary t op x) hD hs h.2 fun slot y hy => ?_
      cases slot <;> cases hy
      exact ih h.1
  | binary t op l r ihl ihr =>
      refine tidy_of_stuck (n := binary t op l r) hD hs h.2.2 fun slot y hy => ?_
      cases slot <;> cases hy
      exacts [ihl h.1, ihr h.2.1]

/-! ### Whole trees -/

/-- Optimizing a whole tree keeps its value, in a tree that is marked only where the
optimizer would change nothing. -/
theorem evaluates_optimizeTree (hD : Exact D) (hε : s.epsilon = 0) (hs : s.rational = true)
    (hle : ∀ x v, ctx x = some v → env x = some v) (hn : Justified (Expr.Fixed s ctx) n)
    (hlimit : (∀ a b, ¬D.binary .pow a b) ∨ ∀ e ∈ (optimizeTree s ctx n).trace, e.NoLimit)
    (hv : Evaluates D env n.expr v) : Evaluates D env (optimizeTree s ctx n).value.expr v := by
  have hjust : Justified (Tidy ctx) n := hn.imp fun _ => tidy_of_fixed hD hs
  have htrace : ∀ e ∈ (optimize s ctx n).trace, e ∈ (optimizeTree s ctx n).trace :=
    fun e he => List.mem_append_left _ he
  rcases hlimit with hpow | hlimit
  · have hrun : Preserves D env ctx (fun _ => True) n.expr.weight (optimizeWithin s ctx n.expr.weight) :=
      preserves_optimizeWithin hD hε hs hle (.inl hpow) _
    exact (hrun n v hv hjust (Nat.le_refl _) fun _ _ => trivial).1
  · have hrun : Preserves D env ctx Event.NoLimit n.expr.weight (optimizeWithin s ctx n.expr.weight) :=
      preserves_optimizeWithin hD hε hs hle (.inr fun _ => id) _
    exact (hrun n v hv hjust (Nat.le_refl _) fun e he => hlimit e (htrace e he)).1

end Node

end Formula
