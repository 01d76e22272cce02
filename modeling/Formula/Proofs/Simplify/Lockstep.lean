/-
Formula/Proofs/Simplify/Lockstep.lean

Two runs of the optimizer on trees that differ in tags only.  Where both runs
start at trees that are alike, the parts of the runs give trees that are alike
and agree on whether anything has changed, as long as the runs that they call do
so (`Locked`).
-/
import Formula.Proofs.Simplify.Alike
import Formula.Proofs.Simplify.Bound

namespace Formula

universe u

namespace Node

variable {α : Type u} {rel : Expr α → Tag → Tag → Prop} {f : Run α} {n n' m m' : Node α}
  {w : Nat} {s : Settings α} {env : Environment α}

/-- Without tags only the expression is left. -/
theorem clean_eq_of_expr_eq (h : n'.expr = n.expr) : n'.clean = n.clean := by
  induction n generalizing n' with
  | const | var => cases n' <;> simp_all [expr, clean]
  | unary t op x ih =>
      cases n' with
      | unary t' op' x' =>
          obtain ⟨rfl, hx⟩ : op' = op ∧ x'.expr = x.expr := by simpa [expr] using h
          simp only [clean, ih hx]
      | _ => simp [expr] at h
  | binary t op l r ihl ihr =>
      cases n' with
      | binary t' op' l' r' =>
          obtain ⟨rfl, hl, hr⟩ : op' = op ∧ l'.expr = l.expr ∧ r'.expr = r.expr := by
            simpa [expr] using h
          simp only [clean, ihl hl, ihr hr]
      | _ => simp [expr] at h

theorem exists_of_expr_binary {op : BinaryOp} {a b : Expr α} (h : n.expr = .binary op a b) :
    ∃ t l r, n = .binary t op l r ∧ l.expr = a ∧ r.expr = b := by
  cases n with
  | binary t op' l r =>
      obtain ⟨rfl, rfl, rfl⟩ : op' = op ∧ l.expr = a ∧ r.expr = b := by simpa [expr] using h
      exact ⟨t, l, r, rfl, rfl, rfl⟩
  | _ => simp [expr] at h

theorem OfFractions.congr (h : n'.expr = n.expr) (hn : n.OfFractions) : n'.OfFractions := by
  obtain ⟨t, op, u, a, b, v, c, d, rfl⟩ := hn
  obtain ⟨t', l, r, rfl, hl, hr⟩ := exists_of_expr_binary h
  obtain ⟨u', a', b', rfl, -, -⟩ := exists_of_expr_binary hl
  obtain ⟨v', c', d', rfl, -, -⟩ := exists_of_expr_binary hr
  exact ⟨t', op, u', a', b', v', c', d', rfl⟩

/-- Fractions are combined on copies, which have no tags. -/
theorem combineFractions_congr (h : n'.expr = n.expr) :
    combineFractions f n' = combineFractions f n := by
  by_cases hn : n.OfFractions
  case neg =>
    rw [combineFractions_of_not hn, combineFractions_of_not fun hn' => hn (hn'.congr h.symm)]
  obtain ⟨t', op', u', a', b', v', c', d', rfl⟩ := hn.congr h
  obtain ⟨t, op, u, a, b, v, c, d, rfl⟩ := hn
  simp only [expr, Expr.binary.injEq, true_and] at h
  obtain ⟨-, ⟨ha, hb⟩, hc, hd⟩ := h
  simp only [combineFractions, clean_eq_of_expr_eq ha, clean_eq_of_expr_eq hb,
    clean_eq_of_expr_eq hc, clean_eq_of_expr_eq hd]

theorem isConst_expr (n : Node α) : n.isConst = true ↔ ∃ v, n.expr = .const v := by
  cases n <;> simp [isConst, expr]

theorem isConst_congr (h : n'.expr = n.expr) : n'.isConst = n.isConst := by
  rw [Bool.eq_iff_iff, isConst_expr, isConst_expr, h]

theorem hasConstantOperands_congr (h : n'.expr = n.expr) :
    n'.hasConstantOperands = n.hasConstantOperands := by
  cases n with
  | unary t op x =>
      cases n' <;> simp only [expr, reduceCtorEq, Expr.unary.injEq] at h
      simp [hasConstantOperands, operands, isConst_congr h.2]
  | binary t op l r =>
      obtain ⟨t', l', r', rfl, hl, hr⟩ := exists_of_expr_binary h
      simp [hasConstantOperands, operands, isConst_congr hl, isConst_congr hr]
  | _ => cases n' <;> simp_all [expr, hasConstantOperands, operands]

variable [Arithmetic α]

/-! ### Rules -/

/-- The same rule applies, and what it makes is alike. -/
theorem AlikeBelow.firstRule (hrefl : ∀ e t, rel e t t) {rules : List Rule} (h : AlikeBelow rel n n')
    (hrules : ∀ r ∈ rules, r ∈ n.expr.rules) :
    Option.Rel (Alike rel) (firstRule s f n rules).value (firstRule s f n' rules).value := by
  induction rules with
  | nil => exact .none
  | cons rule rest ih =>
      have hrest := ih fun r hr => hrules r (by simp [hr])
      have happlied : Option.Rel (Alike rel) (applyRule s f rule n).value
          (applyRule s f rule n').value := by
        unfold applyRule
        split
        · rw [combineFractions_congr h.expr_eq]
          cases (combineFractions f n).value with
          | none => exact .none
          | some m => exact .some (.refl hrefl m)
        · rw [h.expr_eq]
          cases hmove : rule.move? s n.expr with
          | none => exact .none
          | some m =>
              have hfits := fits_of_move? n.isFilled_expr (hrules rule (by simp)) hmove
              exact .some (h.perform (fun e => hrefl e _) hfits)
      simp only [Node.firstRule, Traced.value_bind]
      generalize (applyRule s f rule n).value = res at happlied ⊢
      generalize (applyRule s f rule n').value = res' at happlied ⊢
      cases happlied with
      | none => exact hrest
      | some halike => exact .some halike

/-! ### Passes -/

/-- Two steps give trees that are alike, and agree on whether anything has
changed. -/
structure Together (rel : Expr α → Tag → Tag → Prop) (st st' : Step α) : Prop where
  alike : Alike rel st.node st'.node
  change : st'.change = st.change

/-- Two runs that start together stay together, up to a weight. -/
def Locked (rel : Expr α → Tag → Tag → Prop) (w : Nat) (f : Run α) : Prop :=
  ∀ n n', Alike rel n n' → n.expr.weight ≤ w →
    Together rel (f n).value (f n').value

namespace Locked

omit [Arithmetic α] in
theorem optimizeOperands (hf : Locked rel w f) (hrefl : ∀ e t, rel e t t)
    (h : Alike rel n n') (hw : n.expr.weight ≤ w + 1) :
    Together rel (optimizeOperands f n).value (optimizeOperands f n').value := by
  cases h with
  | const ht => exact ⟨.const ht, rfl⟩
  | var ht => exact ⟨.var ht, rfl⟩
  | unary _ hx =>
      simp only [expr, Expr.weight] at hw
      have hx' := hf _ _ hx (by split at hw <;> omega)
      exact ⟨.unary (hrefl _ _) hx'.alike, hx'.change⟩
  | binary _ hl hr =>
      simp only [expr, Expr.weight] at hw
      have hl' := hf _ _ hl (by split at hw <;> omega)
      have hr' := hf _ _ hr (by split at hw <;> omega)
      exact ⟨.binary (hrefl _ _) hl'.alike hr'.alike, by
        simp only [Node.optimizeOperands, Traced.value_bind, Traced.value_pure, hl'.change, hr'.change]⟩

theorem pass (hf : Locked rel w f) (hrefl : ∀ e t, rel e t t) (h : Alike rel n n')
    (hw : n.expr.weight ≤ w + 1) :
    Together rel (pass s f n).value (pass s f n').value := by
  have hbelow := hf.optimizeOperands hrefl h hw
  have hexpr := hbelow.alike.expr_eq
  simp only [Node.pass, Traced.value_bind, hasConstantOperands_congr hexpr]
  split
  · exact hbelow
  · have hrule := (hbelow.alike.belowRoot fun e => hrefl e _).firstRule (s := s) (f := f)
      hrefl fun _ hr => hr
    rw [hexpr]
    simp only [Traced.value_bind]
    generalize (Node.firstRule s f _ _).value = res at hrule ⊢
    generalize (Node.firstRule s f _ _).value = res' at hrule ⊢
    cases hrule with
    | none => exact hbelow
    | some halike => exact ⟨halike, rfl⟩

theorem passes (hf : Locked rel w f) (hlight : Lightens f) (hrefl : ∀ e t, rel e t t)
    (k : Nat) (h : Alike rel n n') (hw : n.expr.weight ≤ w + 1) :
    Together rel (passes s f k n).value (passes s f k n').value := by
  induction k generalizing n n' with
  | zero => exact ⟨h, rfl⟩
  | succ k ih =>
      have hfirst := hf.pass (s := s) hrefl h hw
      simp only [Node.passes, Traced.value_bind, hfirst.change]
      split
      · exact hfirst
      · exact ⟨(ih hfirst.alike ((hlight.pass n).trans hw)).alike, rfl⟩

end Locked

/-- Folding depends on the expression only. -/
theorem Together.finish {st st' : Step α} (hrefl : ∀ e t, rel e t t) (h : Together rel st st') :
    Together rel (Node.finish env st) (Node.finish env st') := by
  have hexpr := h.alike.expr_eq
  simp only [Node.finish, isConst_congr hexpr, hexpr]
  split
  · exact ⟨h.alike.withTag (hrefl _ _), h.change⟩
  · split
    · exact ⟨.refl hrefl _, rfl⟩
    · exact ⟨h.alike.withTag (hrefl _ _), h.change⟩

end Node

end Formula
