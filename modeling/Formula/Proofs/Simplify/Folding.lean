/-
Formula/Proofs/Simplify/Folding.lean

Folding against bindings.  A tree without marks that has a value is folded to that
value, by evaluating operators of constants one after the other and without
applying any rule (`optimizeWithin_of_eval`).  The operands of a node are optimized
first, and where all of them have become constants no rule is tried.

More generally, rules are only applied to nodes that have no value
(`sparesValues_optimizeWithin`): what is optimized is a constant or has no value
(`IsFolded`), so a node all of whose operands have values is an operator of
constants by then.

Variables go in the same way (`unbound_optimizeWithin`): the leaves are replaced by
their values, and no rule makes a variable.
-/
import Formula.Proofs.Simplify.Termination

namespace Formula

universe u

/-! ### Variables -/

namespace Expr

variable {α : Type u} {e f l r : Expr α} {x : String} {p : Path}

@[simp] theorem mem_vars_unary {op : UnaryOp} : x ∈ (unary op e).vars ↔ x ∈ e.vars := Iff.rfl

@[simp] theorem mem_vars_binary {op : BinaryOp} :
    x ∈ (binary op l r).vars ↔ x ∈ l.vars ∨ x ∈ r.vars := by
  simp only [vars, List.mem_append, List.mem_filter, Bool.not_eq_true', List.contains_eq_mem,
    decide_eq_false_iff_not]
  tauto

theorem mem_vars_of_operand? {s : Slot} (h : e.operand? s = some f) (hx : x ∈ f.vars) : x ∈ e.vars := by
  cases e <;> cases s <;> cases h
  · exact hx
  · exact mem_vars_binary.mpr (.inl hx)
  · exact mem_vars_binary.mpr (.inr hx)

theorem mem_vars_of_at? (h : e.at? p = some f) (hx : x ∈ f.vars) : x ∈ e.vars := by
  induction p generalizing e with
  | nil =>
      obtain rfl := Option.some.inj h
      exact hx
  | cons s p ih =>
      obtain ⟨y, hy, h⟩ := Option.bind_eq_some_iff.mp h
      exact mem_vars_of_operand? hy (ih h)

theorem mem_vars_part (hx : x ∈ (e.part p).vars) : x ∈ e.vars := by
  unfold part at hx
  cases h : e.at? p with
  | none => simpa [h] using hx
  | some f => exact mem_vars_of_at? h (by simpa [h] using hx)

theorem mem_vars_build {sk : Sketch α} (hx : x ∈ (e.build sk).vars) : x ∈ e.vars := by
  induction sk with
  | part p => exact mem_vars_part hx
  | const v => cases hx
  | unary op y ih => exact ih hx
  | binary op y z ihy ihz => exact (mem_vars_binary.mp hx).elim ihy ihz

theorem mem_vars_put (hx : x ∈ (e.put p f).vars) : x ∈ e.vars ∨ x ∈ f.vars := by
  induction p generalizing e with
  | nil => exact .inr (by simpa using hx)
  | cons s p ih =>
      cases e <;> cases s <;> simp only [put, mem_vars_unary, mem_vars_binary] at hx ⊢
      case unary.operand => exact ih hx
      case binary.left => exact hx.elim (fun h => (ih h).imp_left .inl) fun h => .inl (.inr h)
      case binary.right => exact hx.elim (fun h => .inl (.inl h)) fun h => (ih h).imp_left .inr
      all_goals exact .inl hx

theorem mem_vars_rebuildAt {sk : Sketch α} (hx : x ∈ (e.rebuildAt p sk).vars) : x ∈ e.vars :=
  (mem_vars_put hx).elim id fun h => mem_vars_part (mem_vars_build h)

theorem mem_vars_graft {op : BinaryOp} (hx : x ∈ (e.graft op p f).vars) : x ∈ e.vars ∨ x ∈ f.vars :=
  (mem_vars_put hx).elim .inl fun h => (mem_vars_binary.mp h).imp_left mem_vars_part

variable [Arithmetic α] {s : Settings α} {env : Environment α} {v : α}

/-- A move makes no variable. -/
theorem mem_vars_perform {m : Move α} (hx : x ∈ (e.perform m).vars) : x ∈ e.vars := by
  cases m with
  | rebuild sketch => exact mem_vars_build hx
  | pushSign factor change => exact mem_vars_rebuildAt (mem_vars_part hx)
  | collapse kind kept v removed =>
      simp only [perform] at hx
      split at hx
      · exact (mem_vars_put (mem_vars_rebuildAt hx)).elim id fun h => by cases h
      · exact hx
  | joinLogarithms op kept slot argument removed =>
      simp only [perform] at hx
      split at hx
      · exact (mem_vars_graft hx).elim mem_vars_rebuildAt mem_vars_part
      · exact hx
  | joinPowers op kept fromRoot exponent removed =>
      simp only [perform] at hx
      split at hx
      · refine (mem_vars_graft hx).elim (fun h => ?_) fun h => mem_vars_part (mem_vars_build h)
        have hnormalized := mem_vars_rebuildAt h
        split at hnormalized
        · exact mem_vars_rebuildAt hnormalized
        · exact hnormalized
      · exact hx

/-- No rewriting step makes a variable. -/
theorem Rewrites.mem_vars (h : Rewrites s env e f) (hx : x ∈ f.vars) : x ∈ e.vars := by
  induction h with
  | rule => exact mem_vars_perform hx
  | fractions =>
      simp only [mem_vars_binary] at hx ⊢
      tauto
  | fold => cases hx
  | unary _ ih => exact ih hx
  | left _ ih => exact mem_vars_binary.mpr ((mem_vars_binary.mp hx).imp_left ih)
  | right _ ih => exact mem_vars_binary.mpr ((mem_vars_binary.mp hx).imp_right ih)

theorem mem_vars_of_reflTransGen (h : Relation.ReflTransGen (Rewrites s env) e f) (hx : x ∈ f.vars) :
    x ∈ e.vars := by
  induction h with
  | refl => exact hx
  | tail _ h ih => exact ih (h.mem_vars hx)

/-! ### Values -/

theorem eval_unary_eq_ok {op : UnaryOp} :
    (unary op e).eval env = .ok v ↔ ∃ a, e.eval env = .ok a ∧ Arithmetic.unary op a = v := by
  rw [eval]
  cases e.eval env <;> simp [bind, Except.bind, pure, Except.pure]

theorem eval_binary_eq_ok {op : BinaryOp} : (binary op l r).eval env = .ok v ↔
    ∃ a b, l.eval env = .ok a ∧ r.eval env = .ok b ∧ Arithmetic.binary op a b = v := by
  rw [eval]
  cases l.eval env <;> cases r.eval env <;> simp [bind, Except.bind, pure, Except.pure]

/-- An expression without empty slots has a value if all its variables have. -/
theorem exists_eval_iff (he : e.isFilled) :
    (∃ v, e.eval env = .ok v) ↔ ∀ x ∈ e.vars, ∃ v, env x = some v := by
  induction e with
  | hole => cases he
  | const v => simp [eval, vars]
  | var x => cases hx : env x <;> simp [eval, vars, hx]
  | unary op y ih =>
      rw [vars, ← ih he]
      simp only [eval_unary_eq_ok]
      exact ⟨fun ⟨_, a, ha, _⟩ => ⟨a, ha⟩, fun ⟨a, ha⟩ => ⟨_, a, ha, rfl⟩⟩
  | binary op l r ihl ihr =>
      obtain ⟨hl, hr⟩ := Bool.and_eq_true_iff.mp he
      simp only [mem_vars_binary, or_imp, forall_and, ← ihl hl, ← ihr hr, eval_binary_eq_ok]
      exact ⟨fun ⟨_, a, b, ha, hb, _⟩ => ⟨⟨a, ha⟩, b, hb⟩, fun ⟨⟨a, ha⟩, b, hb⟩ => ⟨_, a, b, ha, hb, rfl⟩⟩

theorem exists_unbound (he : e.isFilled) (h : ∀ v, e.eval env ≠ .ok v) : ∃ x ∈ e.vars, env x = none := by
  by_contra! hbound
  obtain ⟨v, hv⟩ := (exists_eval_iff he).mpr fun x hx => Option.ne_none_iff_exists'.mp (hbound x hx)
  exact h v hv

/-- The expression is a constant, or it has no value. -/
def IsFolded (env : Environment α) (e : Expr α) : Prop :=
  (∃ v, e = const v) ∨ ∀ v, e.eval env ≠ .ok v

end Expr

/-- If a rule is applied, then to a node that has a variable without a value. -/
def Event.SparesValues {α : Type u} (env : Environment α) : Event α → Prop
  | .applied _ before _ => ∃ x ∈ before.vars, env x = none
  | _ => True

open Expr (IsFolded eval_unary_eq_ok eval_binary_eq_ok)

namespace Node

variable {α : Type u} [Arithmetic α] {s : Settings α} {env : Environment α} {f : Run α} {n m : Node α}
  {v : α} {w k fuel : Nat} {x : String}

/-! ### Trees that have a value -/

/-- Nothing in the tree is settled. -/
abbrev IsUnmarked (n : Node α) : Prop := Justified (fun _ => False) n

theorem optimizeWithin_done (v : α) :
    optimizeWithin s env fuel (const .done v) = ⟨⟨const .done v, .unchanged⟩, []⟩ := by
  cases fuel <;> rfl

/-- A pass over a node whose operands become constants does nothing else. -/
theorem pass_of_constants {t : Tag} {op : UnaryOp} {y : Node α} {a : α} {c : Change}
    (hy : f y = ⟨⟨const .done a, c⟩, []⟩) :
    pass s f (unary t op y) = ⟨⟨unary .fresh op (const .done a), c⟩, []⟩ := by
  simp [pass, optimizeOperands, hy, Bind.bind, Pure.pure, hasConstantOperands, operands, isConst]

theorem pass_of_constants₂ {t : Tag} {op : BinaryOp} {l r : Node α} {a b : α} {c d : Change}
    (hl : f l = ⟨⟨const .done a, c⟩, []⟩) (hr : f r = ⟨⟨const .done b, d⟩, []⟩) :
    pass s f (binary t op l r)
      = ⟨⟨binary .fresh op (const .done a) (const .done b), c.andThen d⟩, []⟩ := by
  simp [pass, optimizeOperands, hl, hr, Bind.bind, Pure.pure, hasConstantOperands, operands, isConst]

/-- If the pass over a node gives a node that passes leave alone, then that is what
the passes give. -/
theorem passes_of_pass {c : Change} (hfirst : pass s f n = ⟨⟨m, c⟩, []⟩)
    (hsecond : pass s f m = ⟨⟨m, .unchanged⟩, []⟩) :
    passes s f (k + 2) n = ⟨⟨m, c⟩, []⟩ := by
  cases c with
  | unchanged => simp [passes, hfirst, Bind.bind, Pure.pure]
  | changed => simp [passes, hfirst, hsecond, Bind.bind, Pure.pure]

/-- A leaf has no rules. -/
theorem passes_leaf (h : n.operands = []) : passes s f (k + 1) n = ⟨⟨n, .unchanged⟩, []⟩ := by
  cases n with
  | const | var => simp [passes, pass, optimizeOperands, hasConstantOperands, operands, firstRule, expr,
      Expr.rules, Bind.bind, Pure.pure]
  | unary | binary => cases h

/-- Folding gives the value that there is. -/
theorem finish_of_eval {c : Change} (hv : n.expr.eval env = .ok v) :
    ∃ c', finish env ⟨n, c⟩ = ⟨const .done v, c'⟩ := by
  cases n with
  | const t w =>
      obtain rfl : w = v := Except.ok.inj hv
      exact ⟨c, rfl⟩
  | var | unary | binary => exact ⟨.changed, by simp [finish, isConst, hv, newConst, settle, withTag]⟩

/-- **A tree without marks that has a value is folded to it**, and no rule is
applied. -/
theorem optimizeWithin_of_eval (hn : n.IsUnmarked) (hv : n.expr.eval env = .ok v)
    (hw : n.expr.weight ≤ fuel) :
    ∃ c, optimizeWithin s env fuel n = ⟨⟨const .done v, c⟩, []⟩ := by
  induction fuel generalizing n v with
  | zero => exact absurd (one_le_weight n) (Nat.not_le_of_lt (Nat.lt_succ_of_le hw))
  | succ fuel ih =>
      have hfresh : n.tag.settled = false := by
        simpa using mt hn.holds_of_settled
      -- after the passes there is a node with the same value whose operands are constants
      have hpasses : ∃ m c, passes s (optimizeWithin s env fuel) maxPasses n = ⟨⟨m, c⟩, []⟩ ∧
          m.expr.eval env = .ok v := by
        cases n with
        | const | var => exact ⟨_, _, passes_leaf rfl, hv⟩
        | unary t op y =>
            obtain ⟨a, ha, rfl⟩ := eval_unary_eq_ok.mp hv
            obtain ⟨c, hc⟩ := ih hn.operand ha (by simp only [expr, Expr.weight] at hw; split at hw <;> omega)
            exact ⟨_, _, passes_of_pass (pass_of_constants hc) (pass_of_constants (optimizeWithin_done a)),
              eval_unary_eq_ok.mpr ⟨a, rfl, rfl⟩⟩
        | binary t op l r =>
            obtain ⟨a, b, ha, hb, rfl⟩ := eval_binary_eq_ok.mp hv
            simp only [expr, Expr.weight] at hw
            obtain ⟨c, hc⟩ := ih hn.left ha (by split at hw <;> omega)
            obtain ⟨d, hd⟩ := ih hn.right hb (by split at hw <;> omega)
            exact ⟨_, _, passes_of_pass (pass_of_constants₂ hc hd)
              (pass_of_constants₂ (optimizeWithin_done a) (optimizeWithin_done b)),
              eval_binary_eq_ok.mpr ⟨a, b, rfl, rfl, rfl⟩⟩
      obtain ⟨m, c, hrun, hm⟩ := hpasses
      obtain ⟨c', hfinish⟩ := finish_of_eval (c := c) hm
      exact ⟨c', by simp [optimizeWithin, hfresh, hrun, hfinish, Bind.bind, Pure.pure]⟩

/-! ### What all runs establish -/

theorem justified_finish {J : Expr α → Prop} {st : Step α} (hst : Justified J st.node)
    (hJ : J (finish env st).node.expr) : Justified J (finish env st).node := by
  unfold finish at hJ ⊢
  split
  · next hconst =>
    rw [if_pos hconst, expr_settle] at hJ
    exact hst.settle hJ
  next hconst =>
  rw [if_neg hconst] at hJ
  split
  · next v hv =>
    rw [hv] at hJ
    exact (Justified.newConst v).settle (by simpa using hJ)
  · next err hv =>
    rw [hv] at hJ
    exact hst.settle (by simpa using hJ)

/-- What holds of each node at the end of its passes if it holds of what is
optimized below, holds of all that is optimized. -/
theorem establishes_optimizeWithin {J : Expr α → Prop}
    (h : ∀ fuel (n : Node α), Establishes J (fun _ => True) fuel (optimizeWithin s env fuel) →
      n.tag.settled = false → Justified J n → n.expr.weight ≤ fuel + 1 →
      J (finish env (passes s (optimizeWithin s env fuel) maxPasses n).value).node.expr) (fuel : Nat) :
    Establishes J (fun _ => True) fuel (optimizeWithin s env fuel) := by
  induction fuel with
  | zero => exact fun n _ hw => absurd (one_le_weight n) (Nat.not_le_of_lt (Nat.lt_succ_of_le hw))
  | succ fuel ih =>
      intro n hn hw _
      unfold optimizeWithin
      split
      · next hsettled => exact ⟨hn, hn.holds_of_settled hsettled⟩
      · next hsettled =>
        have hJ := h fuel n ih (by simpa using hsettled) hn hw
        have hpasses := ih.passes (s := s) (k := maxPasses) (weight_optimizeWithin s env fuel) hn hw
          fun _ _ => trivial
        exact ⟨justified_finish hpasses hJ, hJ⟩

/-! ### Rules and values -/

theorem isFolded_finish (st : Step α) : IsFolded env (finish env st).node.expr := by
  unfold finish
  split
  · next hconst =>
    obtain ⟨t, v, hv⟩ : ∃ t v, st.node = const t v := by
      cases hnode : st.node <;> simp_all [isConst]
    exact .inl ⟨v, by simp [hv, expr]⟩
  · split
    · exact .inl ⟨_, rfl⟩
    · next err herr =>
      refine .inr fun v hv => ?_
      rw [expr_settle, herr] at hv
      cases hv

/-- What is optimized is folded. -/
theorem isFolded_optimizeWithin (fuel : Nat) :
    Establishes (IsFolded env) (fun _ => True) fuel (optimizeWithin s env fuel) :=
  establishes_optimizeWithin (fun _ _ _ _ _ _ => isFolded_finish _) fuel

/-- A node with a rule has no value if its operands are folded, but not all of them
are constants. -/
theorem eval_ne_of_isFolded (hfolded : ∀ a ∈ n.operands, IsFolded env a.expr)
    (hconst : n.hasConstantOperands = false) (hrules : n.expr.rules ≠ []) : n.expr.eval env ≠ .ok v := by
  have hoperand : ∀ a ∈ n.operands, a.isConst = false → ∀ u, a.expr.eval env ≠ .ok u := by
    intro a ha hnot u hu
    rcases hfolded a ha with ⟨c, hc⟩ | hnone
    · cases a <;> simp_all [isConst, expr]
    · exact hnone u hu
  cases n with
  | const | var => exact absurd rfl hrules
  | unary t op y =>
      intro hv
      obtain ⟨a, ha, -⟩ := eval_unary_eq_ok.mp hv
      exact hoperand y (by simp [operands]) (by simpa [hasConstantOperands, operands] using hconst) a ha
  | binary t op l r =>
      intro hv
      obtain ⟨a, b, ha, hb, -⟩ := eval_binary_eq_ok.mp hv
      simp only [hasConstantOperands, operands, List.isEmpty_cons, Bool.not_false, Bool.true_and,
        List.all_cons, List.all_nil, Bool.and_true, Bool.and_eq_false_iff] at hconst
      rcases hconst with hl | hr
      · exact hoperand l (by simp [operands]) hl a ha
      · exact hoperand r (by simp [operands]) hr b hb

/-- On trees up to a weight no rule is applied to a node that has a value. -/
def SparesValues (env : Environment α) (w : Nat) (f : Run α) : Prop :=
  ∀ n, Justified (IsFolded env) n → n.expr.weight ≤ w → ∀ e ∈ (f n).trace, e.SparesValues env

namespace SparesValues

theorem wholeTree (hf : SparesValues env w f) (hn : Justified (IsFolded env) n) (hw : n.expr.weight ≤ w) :
    ∀ e ∈ (wholeTree f n).trace, e.SparesValues env := by
  simp only [Node.wholeTree, Traced.trace_bind, Traced.trace_pure, List.append_nil, List.mem_append,
    Traced.report, List.mem_singleton]
  rintro e (he | rfl)
  exacts [hf n hn hw e he, trivial]

theorem optimizeOperands (hf : SparesValues env w f) (hn : Justified (IsFolded env) n)
    (hw : n.expr.weight ≤ w + 1) : ∀ e ∈ (optimizeOperands f n).trace, e.SparesValues env := by
  cases n with
  | const | var => nofun
  | unary t op y =>
      simp only [expr, Expr.weight] at hw
      simp only [Node.optimizeOperands, Traced.trace_bind, Traced.trace_pure, List.append_nil]
      exact hf y hn.operand (by split at hw <;> omega)
  | binary t op l r =>
      simp only [expr, Expr.weight] at hw
      simp only [Node.optimizeOperands, Traced.trace_bind, Traced.trace_pure, List.append_nil,
        List.mem_append]
      rintro e (he | he)
      · exact hf l hn.left (by split at hw <;> omega) e he
      · exact hf r hn.right (by split at hw <;> omega) e he

theorem combineFractions (hf : SparesValues env w f) (hw : n.expr.weight ≤ w + 1) :
    ∀ e ∈ (combineFractions f n).trace, e.SparesValues env := by
  unfold Node.combineFractions
  split
  · next op _ a b _ c d =>
    have hweight := weight_fractions op a.expr c.expr b.expr d.expr
    simp only [expr] at hw
    simp only [Traced.trace_bind, Traced.trace_pure, List.append_nil, List.mem_append]
    rintro e (he | he)
    · refine hf.wholeTree ((Justified.clean a).newBinary (.clean c) .mul) ?_ e he
      simp only [newBinary, expr, expr_clean]
      omega
    · refine hf.wholeTree ((Justified.clean b).newBinary (.clean d) .mul) ?_ e he
      simp only [newBinary, expr, expr_clean]
      omega
  · exact fun _ he => by cases he

theorem firstRule (hf : SparesValues env w f) (hw : n.expr.weight ≤ w + 1)
    (hn : ∃ x ∈ n.expr.vars, env x = none) (rules : List Rule) :
    ∀ e ∈ (firstRule s f n rules).trace, e.SparesValues env := by
  induction rules with
  | nil => nofun
  | cons rule rest ih =>
      have happly : ∀ e ∈ (applyRule s f rule n).trace, e.SparesValues env := by
        unfold applyRule
        split
        · exact hf.combineFractions hw
        · nofun
      simp only [Node.firstRule, Traced.trace_bind, List.mem_append]
      rintro e (he | he)
      · exact happly e he
      · split at he
        · simp only [Traced.trace_bind, Traced.report, Traced.trace_pure, List.append_nil,
            List.mem_singleton] at he
          subst he
          exact hn
        · exact ih e he

theorem pass (hf : SparesValues env w f) (hfolds : Establishes (IsFolded env) (fun _ => True) w f)
    (hlight : Lightens f) (hn : Justified (IsFolded env) n) (hw : n.expr.weight ≤ w + 1) :
    ∀ e ∈ (pass s f n).trace, e.SparesValues env := by
  obtain ⟨-, hoperands⟩ := hfolds.optimizeOperands hn hw fun _ _ => trivial
  have hbelow := (hlight.optimizeOperands n).trans hw
  simp only [Node.pass, Traced.trace_bind, List.mem_append]
  rintro e (he | he)
  · exact hf.optimizeOperands hn hw e he
  · split at he
    · cases he
    next hconst =>
    simp only [Traced.trace_bind, List.mem_append] at he
    rcases he with he | he
    · by_cases hrules : (Node.optimizeOperands f n).value.node.expr.rules = []
      · rw [hrules] at he
        cases he
      · refine hf.firstRule hbelow (Expr.exists_unbound (isFilled_expr _) fun v => ?_) _ e he
        exact eval_ne_of_isFolded hoperands (by simpa using hconst) hrules
    · split at he <;> cases he

theorem passes (hf : SparesValues env w f) (hfolds : Establishes (IsFolded env) (fun _ => True) w f)
    (hlight : Lightens f) (hn : Justified (IsFolded env) n) (hw : n.expr.weight ≤ w + 1) :
    ∀ e ∈ (passes s f k n).trace, e.SparesValues env := by
  induction k generalizing n with
  | zero =>
      intro e he
      obtain rfl : e = .passLimit n.expr := by simpa [Node.passes, Traced.report] using he
      trivial
  | succ k ih =>
      simp only [Node.passes, Traced.trace_bind, List.mem_append]
      rintro e (he | he)
      · exact hf.pass hfolds hlight hn hw e he
      · split at he
        · cases he
        · simp only [Traced.trace_bind, Traced.trace_pure, List.append_nil] at he
          have hfirst := hfolds.pass (s := s) hlight hn hw fun _ _ => trivial
          exact ih hfirst ((hlight.pass n).trans hw) e he

end SparesValues

/-- The optimizer applies no rule to a node that has a value. -/
theorem sparesValues_optimizeWithin (fuel : Nat) :
    SparesValues env fuel (optimizeWithin s env fuel) := by
  induction fuel with
  | zero => exact fun n _ hw => absurd (one_le_weight n) (Nat.not_le_of_lt (Nat.lt_succ_of_le hw))
  | succ fuel ih =>
      intro n hn hw
      unfold optimizeWithin
      split
      · exact fun _ he => by cases he
      · simp only [Traced.trace_bind, Traced.trace_pure, List.append_nil]
        exact ih.passes (isFolded_optimizeWithin fuel) (weight_optimizeWithin s env fuel) hn hw

/-! ### Bound variables -/

/-- After its operands no variable enters a node. -/
theorem mem_vars_passes (hf : Descends s env f) (hx : x ∈ (passes s f (k + 1) n).value.node.expr.vars) :
    x ∈ (optimizeOperands f n).value.node.expr.vars := by
  have hpass : x ∈ (pass s f n).value.node.expr.vars := by
    simp only [passes, Traced.value_bind] at hx
    split at hx
    · exact hx
    · exact Expr.mem_vars_of_reflTransGen ((hf.passes k).reflTransGen _) hx
  simp only [pass, Traced.value_bind] at hpass
  split at hpass
  · exact hpass
  · simp only [Traced.value_bind] at hpass
    split at hpass
    · next m hm => exact Expr.mem_vars_of_reflTransGen (hf.firstRule hm).to_reflTransGen hpass
    · exact hpass

theorem mem_vars_finish {st : Step α} (hx : x ∈ (finish env st).node.expr.vars) :
    x ∈ st.node.expr.vars := by
  unfold finish at hx
  split at hx
  · simpa using hx
  · split at hx
    · cases hx
    · simpa using hx

/-- No variable of what is optimized has a value, if this is so for what is marked. -/
theorem unbound_optimizeWithin (fuel : Nat) :
    Establishes (fun e => ∀ x ∈ e.vars, env x = none) (fun _ => True) fuel
      (optimizeWithin s env fuel) := by
  refine establishes_optimizeWithin (fun fuel n hf _ hn hw x hx => ?_) fuel
  have hdescends := descends_optimizeCapped s env maxPasses fuel
  rw [optimizeCapped_maxPasses] at hdescends
  have hbelow := mem_vars_passes hdescends (mem_vars_finish hx)
  obtain ⟨-, hoperands⟩ := hf.optimizeOperands hn hw fun _ _ => trivial
  cases n with
  | const => cases hbelow
  | var t y =>
      obtain rfl : x = y := List.mem_singleton.mp hbelow
      have hleaf : passes s (optimizeWithin s env fuel) maxPasses (var t x) = ⟨⟨var t x, .unchanged⟩, []⟩ :=
        passes_leaf rfl
      rw [hleaf] at hx
      by_contra hbound
      obtain ⟨v, hv⟩ := Option.ne_none_iff_exists'.mp hbound
      -- the leaf is folded
      have hvalue : (var t x).expr.eval env = .ok v := by simp [expr, Expr.eval, hv]
      obtain ⟨c, hfinish⟩ := finish_of_eval (c := .unchanged) hvalue
      rw [hfinish] at hx
      cases hx
  | unary t op y => exact hoperands _ List.mem_cons_self x hbelow
  | binary t op l r =>
      simp only [optimizeOperands, Traced.value_bind, Traced.value_pure, expr,
        Expr.mem_vars_binary] at hbelow
      exact hbelow.elim (hoperands _ List.mem_cons_self x)
        (hoperands _ (List.mem_cons_of_mem _ List.mem_cons_self) x)

end Node

end Formula
