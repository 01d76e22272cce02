/-
Formula/Proofs/Simplify/Respecting.lean

What every step respects, a run respects.  A relation of expressions that holds
between an expression and what a rule makes of it, between a part and what it is
folded to, and so on through the operators (`StepRelation`), holds between a tree
and what the optimizer makes of it (`StepRelation.optimizeWithin`).  Rules need
only be considered where the run may report them: `clear` says which events there
are.
-/
import Formula.Proofs.Simplify.Bound
import Formula.Proofs.Simplify.Fragment

namespace Formula

universe u

variable {α : Type u} [Arithmetic α]

/-- The relation is respected by all steps of a run whose events are clear. -/
structure StepRelation (s : Settings α) (env : Environment α) (clear : Event α → Prop)
    (R : Expr α → Expr α → Prop) : Prop where
  refl : ∀ e, R e e
  trans : ∀ {e f g}, R e f → R f g → R e g
  unary : ∀ op {x y}, R x y → R (.unary op x) (.unary op y)
  binary : ∀ op {l l' r r'}, R l l' → R r r' → R (.binary op l r) (.binary op l' r')
  rule : ∀ {e rule m}, rule ∈ e.rules → rule.move? s e = some m →
    clear (.applied rule e (e.perform m)) → R e (e.perform m)
  /-- Fractions that are combined are reported only when the products are optimized. -/
  fractions : ∀ {a b c d f},
    clear (.applied .combineFractions (.binary .mul (.binary .div a b) (.binary .div c d)) f) →
      R (.binary .div (.binary .mul a c) (.binary .mul b d)) f →
      R (.binary .mul (.binary .div a b) (.binary .div c d)) f
  fold : ∀ {e v}, e.eval env = .ok v → R e (.const v)

namespace Node

variable {s : Settings α} {env : Environment α} {clear : Event α → Prop} {R : Expr α → Expr α → Prop}
  {f : Run α}

/-- What a clear run makes of a tree is related to the tree. -/
def Respects (R : Expr α → Expr α → Prop) (clear : Event α → Prop) (f : Run α) : Prop :=
  ∀ n, (∀ e ∈ (f n).trace, clear e) → R n.expr (f n).value.node.expr

end Node

namespace StepRelation

open Node (Run Respects)

variable {s : Settings α} {env : Environment α} {clear : Event α → Prop} {R : Expr α → Expr α → Prop}
  {f : Run α} {n m : Node α}

theorem optimizeOperands (h : StepRelation s env clear R) (hf : Respects R clear f) :
    Respects R clear (Node.optimizeOperands f) := by
  intro n hclear
  cases n with
  | const | var => exact h.refl _
  | unary t op x => exact h.unary op (hf x fun e he => hclear e (List.mem_append_left _ he))
  | binary t op l r =>
      simp only [Node.optimizeOperands, Traced.trace_bind, Traced.trace_pure, List.append_nil,
        List.mem_append] at hclear
      exact h.binary op (hf l fun e he => hclear e (.inl he)) (hf r fun e he => hclear e (.inr he))

theorem combineFractions (h : StepRelation s env clear R) (hf : Respects R clear f)
    (hrule : .combineFractions ∈ n.expr.rules) (hclear : ∀ e ∈ (Node.combineFractions f n).trace, clear e)
    (hm : (Node.combineFractions f n).value = some m)
    (hreport : clear (.applied .combineFractions n.expr m.expr)) : R n.expr m.expr := by
  unfold Node.combineFractions at hm hclear
  split at hm
  · next t op _ a b _ c d =>
    obtain rfl : op = .mul := by
      cases op <;> simp [Node.expr, Expr.rules] at hrule
      rfl
    simp only [Traced.value_bind, Traced.value_pure] at hm
    simp only [Traced.trace_bind, Traced.trace_pure, List.append_nil, List.mem_append] at hclear
    split at hm
    · cases hm
    · obtain rfl := Option.some.inj hm
      have habove := hf (Node.newBinary .mul a.clean c.clean) fun e he =>
        hclear e (.inl (List.mem_append_left _ he))
      have hbelow := hf (Node.newBinary .mul b.clean d.clean) fun e he =>
        hclear e (.inr (List.mem_append_left _ he))
      simp only [Node.newBinary, Node.expr, Node.expr_clean] at habove hbelow hreport ⊢
      exact h.fractions hreport (h.binary .div habove hbelow)
  · cases hm

theorem firstRule (h : StepRelation s env clear R) (hf : Respects R clear f) {rules : List Rule}
    (hrules : ∀ r ∈ rules, r ∈ n.expr.rules)
    (hclear : ∀ e ∈ (Node.firstRule s f n rules).trace, clear e)
    (hm : (Node.firstRule s f n rules).value = some m) : R n.expr m.expr := by
  induction rules with
  | nil => cases hm
  | cons rule rest ih =>
      simp only [Node.firstRule, Traced.value_bind, Traced.trace_bind, List.mem_append] at hm hclear
      split at hm
      · next m' happlied =>
        obtain rfl : m' = m := Option.some.inj hm
        have hreport : clear (.applied rule n.expr m'.expr) := by
          refine hclear _ (.inr ?_)
          simp [happlied, Traced.report]
        have hrule := hrules rule List.mem_cons_self
        unfold Node.applyRule at happlied hclear
        split at happlied
        · next hcombine =>
          subst hcombine
          exact h.combineFractions hf hrule (fun e he => hclear e (.inl (by simpa using he))) happlied
            hreport
        · obtain ⟨move, hmove, rfl⟩ := Option.map_eq_some_iff.mp happlied
          rw [Node.expr_perform] at hreport ⊢
          exact h.rule hrule hmove hreport
      · next hnone =>
        refine ih (fun r hr => hrules r (List.mem_cons_of_mem _ hr)) (fun e he => hclear e (.inr ?_)) hm
        simpa [hnone] using he

theorem pass (h : StepRelation s env clear R) (hf : Respects R clear f) :
    Respects R clear (Node.pass s f) := by
  intro n hclear
  simp only [Node.pass, Traced.value_bind, Traced.trace_bind, List.mem_append] at hclear ⊢
  have hbelow := h.optimizeOperands hf n fun e he => hclear e (.inl he)
  split
  · exact hbelow
  next hconst =>
  rw [if_neg hconst] at hclear
  simp only [Traced.value_bind, Traced.trace_bind, List.mem_append] at hclear ⊢
  split
  · next m hm =>
    exact h.trans hbelow (h.firstRule hf (fun _ hr => hr) (fun e he => hclear e (.inr (.inl he))) hm)
  · exact hbelow

theorem passes (h : StepRelation s env clear R) (hf : Respects R clear f) (k : Nat) :
    Respects R clear (Node.passes s f k) := by
  induction k with
  | zero => exact fun n _ => h.refl _
  | succ k ih =>
      intro n hclear
      simp only [Node.passes, Traced.value_bind, Traced.trace_bind, List.mem_append] at hclear ⊢
      have hpass := h.pass hf n fun e he => hclear e (.inl he)
      split
      · exact hpass
      next hchanged =>
      rw [if_neg hchanged] at hclear
      simp only [Traced.trace_bind, List.mem_append] at hclear
      exact h.trans hpass (ih _ fun e he => hclear e (.inr (.inl he)))

theorem finish (h : StepRelation s env clear R) (st : Step α) :
    R st.node.expr (Node.finish env st).node.expr := by
  unfold Node.finish
  split
  · simpa using h.refl _
  · split
    · next v hv =>
      rw [Node.expr_settle]
      exact h.fold hv
    · simpa using h.refl _

/-- **What every step respects, the optimizer respects.** -/
theorem optimizeWithin (h : StepRelation s env clear R) (fuel : Nat) :
    Respects R clear (Node.optimizeWithin s env fuel) := by
  induction fuel with
  | zero => exact fun n _ => h.refl _
  | succ fuel ih =>
      intro n hclear
      unfold Node.optimizeWithin at hclear ⊢
      split
      · exact h.refl _
      next hsettled =>
      simp only [if_neg hsettled, Traced.trace_bind, Traced.trace_pure, List.append_nil] at hclear
      exact h.trans (h.passes ih Node.maxPasses n hclear) (h.finish _)

end StepRelation

/-! ### Fragments -/

/-- The optimizer stays in a fragment. -/
theorem stepRelation_in (s : Settings α) (env : Environment α) (F : Fragment) :
    StepRelation s env (fun _ => True) fun e f => e.In F → f.In F where
  refl _ := id
  trans h h' := h' ∘ h
  unary _ _ _ h he := ⟨he.1, h he.2⟩
  binary _ _ _ _ _ hl hr he := ⟨he.1, hl he.2.1, hr he.2.2⟩
  rule hrule hm _ he := he.perform hrule hm
  fractions _ h he := h (Expr.in_iff_over.mpr (Expr.in_iff_over.mp he).fractions)
  fold _ _ := trivial

end Formula
