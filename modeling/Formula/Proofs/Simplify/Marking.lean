/-
Formula/Proofs/Simplify/Marking.lean

What a run marks.  `Establishes J clear w f` says of a run `f` that it ends with
a tree that has the property `J`, and marks only trees that have it, if this is
so for what is marked at the start.  It speaks of trees up to a weight and of
runs in which all events are allowed by `clear`.

The parts of a run inherit this from the runs that they call.  Where no limit of
passes is reached, the last pass of a run is one that has changed nothing
(`Establishes.exists_last_pass`).
-/
import Formula.Proofs.Simplify.Alike
import Formula.Proofs.Simplify.Bound

namespace Formula

universe u

/-- The event does not say that the limit of passes was reached. -/
def Event.NoLimit {α : Type u} : Event α → Prop
  | passLimit _ => False
  | _ => True

instance {α : Type u} : DecidablePred (Event.NoLimit (α := α))
  | .applied .. | .optimized .. => .isTrue trivial
  | .passLimit _ => .isFalse id

namespace Node

variable {α : Type u} [Arithmetic α] {J : Expr α → Prop} {clear : Event α → Prop} {w k : Nat}
  {f : Run α} {n m : Node α} {s : Settings α} {env : Environment α}

/-- The run ends with a tree that has the property, and keeps marks justified. -/
def Establishes (J : Expr α → Prop) (clear : Event α → Prop) (w : Nat) (f : Run α) : Prop :=
  ∀ n, Justified J n → n.expr.weight ≤ w → (∀ e ∈ (f n).trace, clear e) →
    Justified J (f n).value.node ∧ J (f n).value.node.expr

namespace Establishes

omit [Arithmetic α] in
/-- Afterwards all operands have the property. -/
theorem optimizeOperands (hf : Establishes J clear w f) (hn : Justified J n)
    (hw : n.expr.weight ≤ w + 1) (hclear : ∀ e ∈ (optimizeOperands f n).trace, clear e) :
    Justified J (optimizeOperands f n).value.node ∧
      ∀ a ∈ (optimizeOperands f n).value.node.operands, J a.expr := by
  cases n with
  | const | var => exact ⟨hn, nofun⟩
  | unary t op x =>
      simp only [expr, Expr.weight] at hw
      obtain ⟨hx, hJ⟩ := hf x hn.operand (by split at hw <;> omega) fun e he =>
        hclear e (List.mem_append_left _ he)
      exact ⟨hx.newUnary op, by simpa [Node.optimizeOperands, operands] using hJ⟩
  | binary t op l r =>
      simp only [expr, Expr.weight] at hw
      simp only [Node.optimizeOperands, Traced.trace_bind, Traced.trace_pure, List.append_nil,
        List.mem_append] at hclear
      obtain ⟨hl, hJl⟩ := hf l hn.left (by split at hw <;> omega) fun e he => hclear e (.inl he)
      obtain ⟨hr, hJr⟩ := hf r hn.right (by split at hw <;> omega) fun e he => hclear e (.inr he)
      refine ⟨hl.newBinary hr op, ?_⟩
      simpa [Node.optimizeOperands, operands] using ⟨hJl, hJr⟩

omit [Arithmetic α] in
theorem wholeTree (hf : Establishes J clear w f) (hn : Justified J n) (hw : n.expr.weight ≤ w)
    (hclear : ∀ e ∈ (wholeTree f n).trace, clear e) : Justified J (wholeTree f n).value :=
  (hf n hn hw fun e he => hclear e (List.mem_append_left _ he)).1

omit [Arithmetic α] in
theorem combineFractions (hf : Establishes J clear w f) (hw : n.expr.weight ≤ w + 1)
    (hclear : ∀ e ∈ (combineFractions f n).trace, clear e)
    (hm : (combineFractions f n).value = some m) : Justified J m := by
  unfold Node.combineFractions at hm hclear
  split at hm
  · next op _ a b _ c d =>
    have hweight := weight_fractions op a.expr c.expr b.expr d.expr
    simp only [Traced.value_bind, Traced.value_pure] at hm
    simp only [Traced.trace_bind, Traced.trace_pure, List.append_nil, List.mem_append] at hclear
    simp only [expr] at hw
    have habove := hf.wholeTree (n := newBinary .mul a.clean c.clean)
      ((Justified.clean a).newBinary (.clean c) _) (by simp only [newBinary, expr, expr_clean]; omega)
      fun e he => hclear e (.inl he)
    have hbelow := hf.wholeTree (n := newBinary .mul b.clean d.clean)
      ((Justified.clean b).newBinary (.clean d) _) (by simp only [newBinary, expr, expr_clean]; omega)
      fun e he => hclear e (.inr he)
    split at hm
    · cases hm
    · obtain rfl := Option.some.inj hm
      exact habove.newBinary hbelow .div
  · cases hm

theorem firstRule {rules : List Rule} (hf : Establishes J clear w f) (hn : Justified J n)
    (hw : n.expr.weight ≤ w + 1) (hrules : ∀ r ∈ rules, r ∈ n.expr.rules)
    (hclear : ∀ e ∈ (firstRule s f n rules).trace, clear e)
    (hm : (firstRule s f n rules).value = some m) : Justified J m := by
  induction rules with
  | nil => cases hm
  | cons rule rest ih =>
      simp only [Node.firstRule, Traced.value_bind, Traced.trace_bind, List.mem_append] at hm hclear
      have happlied : ∀ m', (applyRule s f rule n).value = some m' → Justified J m' := by
        intro m' hm'
        unfold applyRule at hm' hclear
        split at hm'
        · next hrule =>
          rw [if_pos hrule] at hclear
          exact hf.combineFractions hw (fun e he => hclear e (.inl he)) hm'
        · obtain ⟨move, hmove, rfl⟩ := Option.map_eq_some_iff.mp hm'
          exact hn.perform (fits_of_move? n.isFilled_expr (hrules rule (by simp)) hmove)
      split at hm
      · next m' hm' =>
        obtain rfl : m' = m := Option.some.inj hm
        exact happlied m' hm'
      · next hnone =>
        rw [hnone] at hclear
        exact ih (fun r hr => hrules r (by simp [hr])) (fun e he => hclear e (.inr he)) hm

theorem pass (hf : Establishes J clear w f) (hlight : Lightens f) (hn : Justified J n)
    (hw : n.expr.weight ≤ w + 1) (hclear : ∀ e ∈ (pass s f n).trace, clear e) :
    Justified J (pass s f n).value.node := by
  simp only [Node.pass, Traced.value_bind, Traced.trace_bind, List.mem_append] at hclear ⊢
  have hbelow := (hf.optimizeOperands hn hw fun e he => hclear e (.inl he)).1
  split
  · exact hbelow
  · next hconst =>
    rw [if_neg hconst] at hclear
    simp only [Traced.value_bind, Traced.trace_bind, List.mem_append] at hclear ⊢
    split
    · next m hm =>
      exact hf.firstRule hbelow ((hlight.optimizeOperands n).trans hw) (fun _ hr => hr)
        (fun e he => hclear e (.inr (.inl he))) hm
    · exact hbelow

theorem passes (hf : Establishes J clear w f) (hlight : Lightens f) (hn : Justified J n)
    (hw : n.expr.weight ≤ w + 1) (hclear : ∀ e ∈ (passes s f k n).trace, clear e) :
    Justified J (passes s f k n).value.node := by
  induction k generalizing n with
  | zero => exact hn
  | succ k ih =>
      simp only [Node.passes, Traced.value_bind, Traced.trace_bind, List.mem_append] at hclear ⊢
      have hfirst := hf.pass hlight hn hw fun e he => hclear e (.inl he)
      split
      · exact hfirst
      · next hchanged =>
        rw [if_neg hchanged] at hclear
        simp only [Traced.trace_bind, List.mem_append] at hclear
        exact ih hfirst ((hlight.pass n).trans hw) fun e he => hclear e (.inr (.inl he))

/-- If no limit is reached, the passes end with one that has changed nothing. -/
theorem exists_last_pass (hf : Establishes J clear w f) (hlight : Lightens f) (hn : Justified J n)
    (hw : n.expr.weight ≤ w + 1) (hclear : ∀ e ∈ (Node.passes s f k n).trace, clear e)
    (hlimit : ∀ reached, ¬clear (.passLimit reached)) :
    ∃ m, Justified J m ∧ m.expr.weight ≤ w + 1 ∧ (∀ e ∈ (Node.pass s f m).trace, clear e) ∧
      (Node.pass s f m).value.change = .unchanged ∧
      (Node.passes s f k n).value.node = (Node.pass s f m).value.node := by
  induction k generalizing n with
  | zero => exact absurd (hclear (.passLimit n.expr) (by simp [Node.passes, Traced.report])) (hlimit _)
  | succ k ih =>
      simp only [Node.passes, Traced.value_bind, Traced.trace_bind, List.mem_append] at hclear ⊢
      have hfirst := hf.pass hlight hn hw fun e he => hclear e (.inl he)
      split
      · next hunchanged => exact ⟨n, hn, hw, fun e he => hclear e (.inl he), hunchanged, rfl⟩
      · next hchanged =>
        rw [if_neg hchanged] at hclear
        simp only [Traced.trace_bind, List.mem_append] at hclear
        exact ih hfirst ((hlight.pass n).trans hw) fun e he => hclear e (.inr (.inl he))

end Establishes

/-- A pass that changes nothing leaves operands that have been optimized, and
finds no rule that applies. -/
theorem unchanged_pass (h : (pass s f n).value.change = .unchanged) :
    (pass s f n).value.node = (optimizeOperands f n).value.node ∧
      (optimizeOperands f n).value.change = .unchanged ∧
      ((optimizeOperands f n).value.node.hasConstantOperands = false →
        (firstRule s f (optimizeOperands f n).value.node
          (optimizeOperands f n).value.node.expr.rules).value = none) := by
  simp only [pass, Traced.value_bind] at h ⊢
  split at h
  · next hconst => simp_all
  · next hconst =>
    simp only [Traced.value_bind] at h ⊢
    split at h
    · cases h
    · next hnone => simp_all

/-- Whether anything has changed does not depend on later steps if a pass
changes nothing. -/
theorem passes_of_unchanged (h : (pass s f n).value.change = .unchanged) :
    (passes s f (k + 1) n).value = (pass s f n).value := by
  simp only [passes, Traced.value_bind, if_pos h, Traced.value_pure]

/-- What has been optimized is settled. -/
theorem settled_optimizeWithin {fuel : Nat} (h : n.expr.weight ≤ fuel) :
    (optimizeWithin s env fuel n).value.node.tag.settled = true := by
  cases fuel with
  | zero => exact absurd (one_le_weight n) (Nat.not_le_of_lt (Nat.lt_succ_of_le h))
  | succ fuel =>
      unfold optimizeWithin
      split
      · assumption
      · simp only [Traced.value_bind, Traced.value_pure, finish]
        split
        · simp [settle]
        · split <;> simp [settle]

end Node

end Formula
