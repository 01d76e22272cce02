/-
Formula/Proofs/Simplify/Fixed.lean

Expressions that the optimizer leaves alone (`Expr.Fixed`): no operator in them
has a value, and no rule applies anywhere.

A run that never reaches the limit of passes ends with such an expression, if
this is true of all marked parts at the start (`fixed_optimizeWithin`).  On such
an expression a run changes nothing (`unchanged_of_fixed`).  So marks on such
parts make no difference to what a run makes of a tree (`locked_optimizeWithin`).
-/
import Formula.Proofs.Simplify.Lockstep
import Formula.Proofs.Simplify.Marking

namespace Formula

universe u

variable {α : Type u} [Arithmetic α] {s : Settings α} {env : Environment α}

namespace Expr

/-- The expression has no value, and no rule applies to its topmost operator. -/
structure Stuck (s : Settings α) (env : Environment α) (e : Expr α) : Prop where
  valueless : ∀ v, e.eval env ≠ .ok v
  halted : ∀ n : Node α, n.expr = e → n.hasConstantOperands = false →
    (Node.firstRule s (Node.optimize s env) n e.rules).value = none

/-- Everything in the expression but constants is stuck. -/
def Fixed (s : Settings α) (env : Environment α) : Expr α → Prop
  | hole => False
  | const _ => True
  | var x => Stuck s env (var x)
  | unary op x => x.Fixed s env ∧ Stuck s env (unary op x)
  | binary op l r => l.Fixed s env ∧ r.Fixed s env ∧ Stuck s env (binary op l r)

end Expr

namespace Node

variable {n n' m : Node α} {w k : Nat} {f : Run α}

/-- Tags differ only where the expression is fixed. -/
def FixedTags (s : Settings α) (env : Environment α) (e : Expr α) (t t' : Tag) : Prop :=
  t = t' ∨ e.Fixed s env

theorem fixedTags_refl (e : Expr α) (t : Tag) : FixedTags s env e t t := .inl rfl

/-- Trees of the same fixed expression may have any tags. -/
theorem alike_of_fixed (hn : n.expr.Fixed s env) (h : n'.expr = n.expr) :
    Alike (FixedTags s env) n n' := by
  induction n generalizing n' with
  | const t v =>
      cases n' <;> simp only [expr, reduceCtorEq, Expr.const.injEq] at h
      subst h
      exact .const (.inr hn)
  | var t x =>
      cases n' <;> simp only [expr, reduceCtorEq, Expr.var.injEq] at h
      subst h
      exact .var (.inr hn)
  | unary t op x ih =>
      cases n' <;> simp only [expr, reduceCtorEq, Expr.unary.injEq] at h
      obtain ⟨rfl, hx⟩ := h
      exact .unary (.inr hn) (ih hn.1 hx)
  | binary t op l r ihl ihr =>
      obtain ⟨t', l', r', rfl, hl, hr⟩ := exists_of_expr_binary h
      exact .binary (.inr hn) (ihl hn.1 hl) (ihr hn.2.1 hr)

/-- A tree differs from its copy only where it is marked. -/
theorem Justified.alike_clean (h : Justified (Expr.Fixed s env) n) :
    Alike (FixedTags s env) n n.clean := by
  have htag : ∀ {e : Expr α} {t : Tag}, (t.settled = true → e.Fixed s env) →
      FixedTags s env e t .fresh := by
    rintro e ⟨_ | _⟩ ht
    · exact .inl rfl
    · exact .inr (ht rfl)
  induction n with
  | const t v => cases h with | const ht => exact .const (htag ht)
  | var t x => cases h with | var ht => exact .var (htag ht)
  | unary t op x ih => cases h with | unary ht hx => exact .unary (htag ht) (ih hx)
  | binary t op l r ihl ihr =>
      cases h with | binary ht hl hr => exact .binary (htag ht) (ihl hl) (ihr hr)

/-! ### Rules of fixed expressions -/

omit [Arithmetic α] in
/-- Trees of the same expression differ in tags only. -/
theorem alike_of_expr_eq (h : n'.expr = n.expr) : Alike (fun _ _ _ => True) n n' := by
  induction n generalizing n' with
  | const | var =>
      cases n' <;> simp only [expr, reduceCtorEq, Expr.const.injEq, Expr.var.injEq] at h
      subst h
      constructor
      trivial
  | unary t op x ih =>
      cases n' <;> simp only [expr, reduceCtorEq, Expr.unary.injEq] at h
      obtain ⟨rfl, hx⟩ := h
      exact .unary trivial (ih hx)
  | binary t op l r ihl ihr =>
      obtain ⟨t', l', r', rfl, hl, hr⟩ := exists_of_expr_binary h
      exact .binary trivial (ihl hl) (ihr hr)

/-- Whether a rule applies is a matter of the expression. -/
theorem firstRule_eq_none_congr (h : n'.expr = n.expr)
    (hn : (firstRule s f n n.expr.rules).value = none) :
    (firstRule s f n' n.expr.rules).value = none := by
  have hbelow : AlikeBelow (fun _ _ _ => True) n n' := (alike_of_expr_eq h).belowRoot fun _ => trivial
  have hrel := hbelow.firstRule (s := s) (f := f) (fun _ _ => trivial) fun _ hr => hr
  rw [hn] at hrel
  generalize (firstRule s f n' n.expr.rules).value = res at hrel
  cases hrel
  rfl

theorem agreeBelow_optimize (fuel : Nat) :
    AgreeBelow (fuel + 1) (optimizeWithin s env fuel) (Node.optimize s env) :=
  fun _ hw => optimizeWithin_eq_optimize (Nat.le_of_lt_succ hw)

/-! ### Fixed expressions stay -/

theorem unchanged_passes {fuel : Nat} (ih : ∀ a : Node α, a.expr.Fixed s env → a.expr.weight ≤ fuel →
      (optimizeWithin s env fuel a).value.change = .unchanged ∧
        (optimizeWithin s env fuel a).value.node.expr = a.expr)
    (hn : n.expr.Fixed s env) (hw : n.expr.weight ≤ fuel + 1) :
    (passes s (optimizeWithin s env fuel) (k + 1) n).value.change = .unchanged ∧
      (passes s (optimizeWithin s env fuel) (k + 1) n).value.node.expr = n.expr := by
  have hbelow : (optimizeOperands (optimizeWithin s env fuel) n).value.change = .unchanged ∧
      (optimizeOperands (optimizeWithin s env fuel) n).value.node.expr = n.expr := by
    cases n with
    | const | var => exact ⟨rfl, rfl⟩
    | unary t op x =>
        simp only [expr, Expr.weight] at hw
        obtain ⟨hchange, hexpr⟩ := ih x hn.1 (by split at hw <;> omega)
        exact ⟨hchange, by simp [optimizeOperands, expr, hexpr]⟩
    | binary t op l r =>
        simp only [expr, Expr.weight] at hw
        obtain ⟨hl, hlexpr⟩ := ih l hn.1 (by split at hw <;> omega)
        obtain ⟨hr, hrexpr⟩ := ih r hn.2.1 (by split at hw <;> omega)
        exact ⟨by simp [optimizeOperands, hl, hr], by simp [optimizeOperands, expr, hlexpr, hrexpr]⟩
  -- no rule applies to what has the expression
  have hhalted : (optimizeOperands (optimizeWithin s env fuel) n).value.node.hasConstantOperands
      = false → (firstRule s (optimizeWithin s env fuel)
        (optimizeOperands (optimizeWithin s env fuel) n).value.node n.expr.rules).value = none := by
    intro hconst
    rw [(agreeBelow_optimize fuel).firstRule (by rw [hbelow.2]; exact hw)]
    cases he : n.expr with
    | hole | const => rfl
    | var => exact (he ▸ hn).halted _ (hbelow.2.trans he) hconst
    | unary => exact (he ▸ hn).2.halted _ (hbelow.2.trans he) hconst
    | binary => exact (he ▸ hn).2.2.halted _ (hbelow.2.trans he) hconst
  have hpass : (pass s (optimizeWithin s env fuel) n).value.change = .unchanged ∧
      (pass s (optimizeWithin s env fuel) n).value.node.expr = n.expr := by
    simp only [pass, Traced.value_bind, hbelow.2]
    split
    · exact hbelow
    · next hconst =>
      simp only [Traced.value_bind, hhalted (Bool.eq_false_iff.mpr hconst)]
      exact hbelow
  rwa [passes_of_unchanged hpass.1]

/-- A run changes nothing in a fixed expression. -/
theorem unchanged_of_fixed {fuel : Nat} (hn : n.expr.Fixed s env) (hw : n.expr.weight ≤ fuel) :
    (optimizeWithin s env fuel n).value.change = .unchanged ∧
      (optimizeWithin s env fuel n).value.node.expr = n.expr := by
  induction fuel generalizing n with
  | zero => exact ⟨rfl, rfl⟩
  | succ fuel ih =>
      unfold optimizeWithin
      split
      · exact ⟨rfl, rfl⟩
      obtain ⟨hchange, hexpr⟩ := unchanged_passes (s := s) (k := 63) (fun a => ih) hn hw
      simp only [Traced.value_bind, Traced.value_pure, finish]
      split
      · exact ⟨hchange, by rw [expr_settle]; exact hexpr⟩
      · next hconst =>
        split
        · next v hv =>
          -- a fixed expression that has a value is a constant
          exfalso
          have hv' : n.expr.eval env = .ok v := hexpr ▸ hv
          have hconst' : n.isConst ≠ true := isConst_congr hexpr ▸ hconst
          cases n with
          | const => exact hconst' rfl
          | var => exact hn.valueless v hv'
          | unary => exact hn.2.valueless v hv'
          | binary => exact hn.2.2.valueless v hv'
        · exact ⟨hchange, by rw [expr_settle]; exact hexpr⟩

/-! ### Runs that reach no limit -/

omit [Arithmetic α] in
theorem fixed_of_operands [Arithmetic α] (hoperands : ∀ a ∈ n.operands, a.expr.Fixed s env)
    (hn : n.isConst = false → Expr.Stuck s env n.expr) : n.expr.Fixed s env := by
  cases n with
  | const => trivial
  | var => exact hn rfl
  | unary t op x => exact ⟨hoperands x (by simp [operands]), hn rfl⟩
  | binary t op l r =>
      exact ⟨hoperands l (by simp [operands]), hoperands r (by simp [operands]), hn rfl⟩

/-- A run that reaches no limit ends with a fixed expression. -/
theorem fixed_optimizeWithin (fuel : Nat) :
    Establishes (Expr.Fixed s env) Event.NoLimit fuel (optimizeWithin s env fuel) := by
  induction fuel with
  | zero => exact fun n _ hw => absurd (one_le_weight n) (Nat.not_le_of_lt (Nat.lt_succ_of_le hw))
  | succ fuel ih =>
      intro n hn hw hclear
      unfold optimizeWithin at hclear ⊢
      split
      · next hsettled => exact ⟨hn, hn.holds_of_settled hsettled⟩
      next hsettled =>
      simp only [if_neg hsettled, Traced.trace_bind, Traced.trace_pure, List.append_nil] at hclear
      have hlight := weight_optimizeWithin s env fuel
      -- the last pass has changed nothing, so it shows that no rule applies
      obtain ⟨m, hm, hmw, hmclear, hunchanged, hnode⟩ := ih.exists_last_pass hlight hn hw hclear
        fun _ => id
      obtain ⟨hbelow, -, hhalted⟩ := unchanged_pass hunchanged
      obtain ⟨hjust, hoperands⟩ := ih.optimizeOperands hm hmw fun e he =>
        hmclear e (List.mem_append_left _ he)
      have hbw := (hlight.optimizeOperands m).trans hmw
      rw [(agreeBelow_optimize fuel).firstRule hbw] at hhalted
      simp only [Traced.value_bind, Traced.value_pure, finish, hnode, hbelow]
      generalize (optimizeOperands (optimizeWithin s env fuel) m).value.node = b at *
      split
      · next hconst =>
        have hfixed : b.expr.Fixed s env := fixed_of_operands hoperands (by simp [hconst])
        exact ⟨hjust.settle hfixed, by rwa [expr_settle]⟩
      · split
        · exact ⟨(Justified.newConst _).settle trivial, trivial⟩
        · next err herr =>
          have hfixed : b.expr.Fixed s env := fixed_of_operands hoperands fun _ => {
            valueless := fun v hv => by rw [herr] at hv; cases hv
            halted := fun n' hn' hconst => firstRule_eq_none_congr hn'
              (hhalted (by rwa [← hasConstantOperands_congr hn'])) }
          exact ⟨hjust.settle hfixed, by rwa [expr_settle]⟩

/-! ### Marks make no difference -/

/-- Runs on trees whose tags differ only where the expression is fixed stay
together. -/
theorem locked_optimizeWithin (fuel : Nat) :
    Locked (FixedTags s env) fuel (optimizeWithin s env fuel) := by
  induction fuel with
  | zero => exact fun n n' h _ => ⟨h, rfl⟩
  | succ fuel ih =>
      intro n n' h hw
      have hw' : n'.expr.weight ≤ fuel + 1 := by rwa [h.expr_eq]
      by_cases htag : n.tag = n'.tag
      · simp only [optimizeWithin, htag]
        split
        · exact ⟨h, rfl⟩
        · exact (ih.passes (weight_optimizeWithin s env fuel) fixedTags_refl maxPasses h hw).finish
            fixedTags_refl
      · -- one of them is skipped, and nothing happens to the other
        have hfixed := h.tag_rel.resolve_left htag
        have hfixed' : n'.expr.Fixed s env := by rwa [h.expr_eq]
        obtain ⟨hchange, hexpr⟩ := unchanged_of_fixed hfixed hw
        obtain ⟨hchange', hexpr'⟩ := unchanged_of_fixed hfixed' hw'
        refine ⟨alike_of_fixed (by rwa [hexpr]) ?_, hchange'.trans hchange.symm⟩
        rw [hexpr, hexpr', h.expr_eq]

/-- Optimizing a tree whose marked parts are fixed gives the same expression as
optimizing it without its marks. -/
theorem expr_optimizeTree_clean (hn : Justified (Expr.Fixed s env) n) :
    (optimizeTree s env n.clean).value.expr = (optimizeTree s env n).value.expr := by
  have hweight : n.clean.expr.weight = n.expr.weight := by rw [expr_clean]
  have hlocked : Together (FixedTags s env) (optimize s env n).value
      (optimizeWithin s env n.expr.weight n.clean).value :=
    locked_optimizeWithin n.expr.weight n n.clean hn.alike_clean (Nat.le_refl _)
  simp only [optimizeTree, wholeTree, optimize, hweight, Traced.value_bind, Traced.value_pure]
  exact hlocked.alike.expr_eq

end Node

end Formula
