/-
Formula/Proofs/Simplify/Termination.lean

The optimizer ends.  `Rewrites s env e f` says that `f` comes from `e` by one
rewriting step somewhere in the tree: a rule is applied, fractions are combined,
or a part is folded.  There is no infinite sequence of such steps
(`wellFounded_rewrites`), and what a run does is such a sequence
(`Descends.optimizeCapped`).

So the limit of passes is not what makes a run end.  From some limit on, a run is
the same for all limits, and none is reached (`stabilizes_optimizeCapped`): every
loop of passes ends with a pass that changes nothing.
-/
import Formula.Proofs.Simplify.Lowering
import Formula.Proofs.Simplify.Marking
import Mathlib.Order.Filter.AtTopBot.Basic

namespace Formula

universe u

open Relation (ReflTransGen TransGen)

namespace Expr

variable {α : Type u} [Arithmetic α] {s : Settings α} {env : Environment α} {e f x : Expr α}

/-- One step of rewriting. -/
inductive Rewrites (s : Settings α) (env : Environment α) : Expr α → Expr α → Prop
  | rule {e : Expr α} {rule : Rule} {m : Move α} : rule ∈ e.rules → rule.move? s e = some m →
      Rewrites s env e (e.perform m)
  | fractions {a b c d : Expr α} :
      Rewrites s env (binary .mul (binary .div a b) (binary .div c d))
        (binary .div (binary .mul a c) (binary .mul b d))
  | fold {e : Expr α} {v : α} : (∀ w, e ≠ const w) → e.eval env = .ok v → Rewrites s env e (const v)
  | unary {op : UnaryOp} {x y : Expr α} : Rewrites s env x y → Rewrites s env (unary op x) (unary op y)
  | left {op : BinaryOp} {x y r : Expr α} : Rewrites s env x y →
      Rewrites s env (binary op x r) (binary op y r)
  | right {op : BinaryOp} {x y l : Expr α} : Rewrites s env x y →
      Rewrites s env (binary op l x) (binary op l y)

omit [Arithmetic α] in
theorem exists_expr_eq (he : e.isFilled) : ∃ n : Node α, n.expr = e := by
  rw [← Node.isSome_ofExpr?] at he
  obtain ⟨n, hn⟩ := Option.isSome_iff_exists.mp he
  exact ⟨n, Node.expr_of_ofExpr? hn⟩

/-- No step makes an empty slot. -/
theorem Rewrites.isFilled (h : Rewrites s env e f) (he : e.isFilled) : f.isFilled := by
  induction h with
  | @rule e rule m hrule hm =>
      obtain ⟨n, rfl⟩ := exists_expr_eq he
      rw [← Node.expr_perform]
      exact (n.perform m).isFilled_expr
  | fractions => simp_all [Expr.isFilled]
  | fold => rfl
  | unary _ ih => exact ih he
  | left _ ih | right _ ih => simp_all [Expr.isFilled]

/-- Every step lowers the expression. -/
theorem Rewrites.lower (h : Rewrites s env e f) (he : e.isFilled) : Lower f e := by
  induction h with
  | rule hrule hm => exact lower_perform he hrule hm
  | fractions => exact lower_fractions
  | fold hconst _ => exact lower_const he hconst
  | unary _ ih => exact (ih he).unary _
  | left _ ih => exact (ih (Bool.and_eq_true_iff.mp he).1).left _ _
  | right _ ih => exact (ih (Bool.and_eq_true_iff.mp he).2).right _ _

/-- Steps below a filled expression are steps of filled expressions. -/
theorem lower_of_transGen (h : TransGen (Rewrites s env) e f) (he : e.isFilled) :
    Lower f e ∧ f.isFilled := by
  induction h with
  | single h => exact ⟨h.lower he, h.isFilled he⟩
  | tail _ h ih => exact ⟨ih.1.trans (h.lower ih.2), h.isFilled ih.2⟩

end Expr

open Expr (Rewrites)

namespace Node

variable {α : Type u} [Arithmetic α] {s : Settings α} {env : Environment α} {f : Run α}
  {n m : Node α} {e e' : Expr α}

/-- There is no infinite sequence of rewriting steps. -/
theorem wellFounded_rewrites (s : Settings α) (env : Environment α) :
    WellFounded fun m n : Node α => TransGen (Rewrites s env) n.expr m.expr :=
  Subrelation.wf (fun h => (Expr.lower_of_transGen h (isFilled_expr _)).1)
    (InvImage.wf expr Expr.wellFounded_lower)

/-! ### Runs rewrite -/

/-- The run tells whether the tree has changed, and if so it has been rewritten. -/
def Descends (s : Settings α) (env : Environment α) (f : Run α) : Prop :=
  ∀ n, ((f n).value.change = .unchanged ∧ (f n).value.node.expr = n.expr) ∨
    ((f n).value.change = .changed ∧ TransGen (Rewrites s env) n.expr (f n).value.node.expr)

namespace Descends

theorem reflTransGen (hf : Descends s env f) (n : Node α) :
    ReflTransGen (Rewrites s env) n.expr (f n).value.node.expr := by
  rcases hf n with ⟨-, h⟩ | ⟨-, h⟩
  · rw [h]
  · exact h.to_reflTransGen

theorem optimizeOperands (hf : Descends s env f) : Descends s env (optimizeOperands f) := by
  rintro (_ | _ | ⟨t, op, x⟩ | ⟨t, op, l, r⟩)
  · exact .inl ⟨rfl, rfl⟩
  · exact .inl ⟨rfl, rfl⟩
  · simp only [Node.optimizeOperands, Traced.value_bind, Traced.value_pure, expr]
    rcases hf x with ⟨hc, hx⟩ | ⟨hc, hx⟩
    · exact .inl ⟨hc, by rw [hx]⟩
    · exact .inr ⟨hc, hx.lift _ fun _ _ => .unary⟩
  · simp only [Node.optimizeOperands, Traced.value_bind, Traced.value_pure, expr]
    have hright := (hf.reflTransGen r).lift (Expr.binary op (f l).value.node.expr) fun _ _ => Rewrites.right
    rcases hf l with ⟨hc, hl⟩ | ⟨hc, hl⟩
    · rcases hf r with ⟨hc', hr⟩ | ⟨hc', hr⟩
      · exact .inl ⟨by rw [hc, hc']; rfl, by rw [hl, hr]⟩
      · exact .inr ⟨by rw [hc, hc']; rfl, by rw [hl]; exact hr.lift _ fun _ _ => .right⟩
    · refine .inr ⟨by rw [hc]; rfl, ?_⟩
      exact (hl.lift (Expr.binary op · r.expr) fun _ _ => .left).trans_left hright

/-- Fractions are combined by one step, and what comes of the products by more. -/
theorem combineFractions (hf : Descends s env f) (hrule : .combineFractions ∈ n.expr.rules)
    (hm : (combineFractions f n).value = some m) : TransGen (Rewrites s env) n.expr m.expr := by
  unfold Node.combineFractions at hm
  split at hm
  · next t op _ a b _ c d =>
    obtain rfl : op = .mul := by
      cases op <;> simp [expr, Expr.rules] at hrule
      rfl
    simp only [Traced.value_bind, Traced.value_pure] at hm
    split at hm
    · cases hm
    · obtain rfl := Option.some.inj hm
      have habove := hf.reflTransGen (newBinary .mul a.clean c.clean)
      have hbelow := hf.reflTransGen (newBinary .mul b.clean d.clean)
      simp only [newBinary, expr, expr_clean] at habove hbelow ⊢
      refine (TransGen.single Rewrites.fractions).trans_left ?_
      exact (habove.lift (Expr.binary .div · _) fun _ _ => .left).trans
        (hbelow.lift (Expr.binary .div _) fun _ _ => .right)
  · cases hm

theorem firstRule (hf : Descends s env f) (hm : (firstRule s f n n.expr.rules).value = some m) :
    TransGen (Rewrites s env) n.expr m.expr := by
  obtain ⟨before, rule, after, hrules, -, happlied, -⟩ := firstRule_eq_some hm
  have hrule : rule ∈ n.expr.rules := by simp [hrules]
  unfold applyRule at happlied
  split at happlied
  · next heq =>
    subst heq
    exact hf.combineFractions hrule happlied
  · obtain ⟨move, hmove, rfl⟩ := Option.map_eq_some_iff.mp happlied
    rw [expr_perform]
    exact .single (.rule hrule hmove)

theorem pass (hf : Descends s env f) : Descends s env (pass s f) := by
  intro n
  have hoperands := hf.optimizeOperands n
  simp only [Node.pass, Traced.value_bind]
  split
  · exact hoperands
  · simp only [Traced.value_bind]
    split
    · next m hm =>
      exact .inr ⟨rfl, (hf.firstRule hm).trans_right (hf.optimizeOperands.reflTransGen n)⟩
    · exact hoperands

theorem passes (hf : Descends s env f) (k : Nat) : Descends s env (passes s f k) := by
  induction k with
  | zero => exact fun n => .inl ⟨rfl, rfl⟩
  | succ k ih =>
      intro n
      simp only [Node.passes, Traced.value_bind]
      rcases hf.pass n with ⟨hc, hn⟩ | ⟨hc, hn⟩
      · rw [if_pos hc]
        exact .inl ⟨hc, hn⟩
      · rw [if_neg (by simp [hc])]
        exact .inr ⟨rfl, hn.trans_left (ih.reflTransGen _)⟩

/-- Folding is a step, too. -/
theorem finish {st : Step α}
    (h : (st.change = .unchanged ∧ st.node.expr = e) ∨
      (st.change = .changed ∧ TransGen (Rewrites s env) e st.node.expr)) :
    ((finish env st).change = .unchanged ∧ (finish env st).node.expr = e) ∨
      ((finish env st).change = .changed ∧ TransGen (Rewrites s env) e (finish env st).node.expr) := by
  unfold Node.finish
  split
  · simpa using h
  next hconst =>
  split
  · next v hv =>
    have hfold : Rewrites s env st.node.expr (.const v) := .fold (fun w hw => hconst (by
      cases hnode : st.node <;> rw [hnode] at hw <;> first | rfl | cases hw)) hv
    refine .inr ⟨rfl, ?_⟩
    rw [expr_settle]
    rcases h with ⟨-, h⟩ | ⟨-, h⟩
    · exact .single (h ▸ hfold)
    · exact h.tail hfold
  · simpa using h

end Descends

/-- A run is a sequence of rewriting steps. -/
theorem descends_optimizeCapped (s : Settings α) (env : Environment α) (cap fuel : Nat) :
    Descends s env (optimizeCapped s env cap fuel) := by
  induction fuel with
  | zero => exact fun n => .inl ⟨rfl, rfl⟩
  | succ fuel ih =>
      intro n
      unfold optimizeCapped
      split
      · exact .inl ⟨rfl, rfl⟩
      · exact Descends.finish (ih.passes cap n)

/-- The optimizer rewrites a tree. -/
theorem rewrites_optimizeTree (s : Settings α) (env : Environment α) (n : Node α) :
    ReflTransGen (Rewrites s env) n.expr (n.optimizeTree s env).value.expr := by
  have hdescends := descends_optimizeCapped s env maxPasses n.expr.weight
  rw [optimizeCapped_maxPasses] at hdescends
  exact hdescends.reflTransGen n

/-! ### From some limit on -/

open Filter (Tendsto atTop)

section Stabilizing

variable {β γ : Type u}

/-- From some limit on it is always the same, and no limit is reached in it. -/
def Stabilizes (x : Nat → Traced (Event α) β) : Prop :=
  ∃ t, (∀ e ∈ t.trace, e.NoLimit) ∧ ∀ᶠ cap in atTop, x cap = t

omit [Arithmetic α] in
theorem Stabilizes.always {t : Traced (Event α) β} (ht : ∀ e ∈ t.trace, e.NoLimit) :
    Stabilizes fun _ => t :=
  ⟨t, ht, .of_forall fun _ => rfl⟩

omit [Arithmetic α] in
theorem Stabilizes.bind {x : Nat → Traced (Event α) β} {k : Nat → β → Traced (Event α) γ}
    (hx : Stabilizes x) (hk : ∀ cap, Stabilizes (k · (x cap).value)) :
    Stabilizes fun cap => x cap >>= k cap := by
  obtain ⟨t, ht, hx⟩ := hx
  obtain ⟨cap, hcap⟩ := hx.exists
  obtain ⟨u, hu, hk⟩ := hk cap
  refine ⟨⟨u.value, t.trace ++ u.trace⟩, fun e he => ?_, ?_⟩
  · rcases List.mem_append.mp he with he | he
    exacts [ht e he, hu e he]
  · filter_upwards [hx, hk] with cap' h h'
    rw [hcap] at h'
    simp [h, Bind.bind, h']

omit [Arithmetic α] in
/-- What is the same from some limit on stabilizes likewise. -/
theorem Stabilizes.congr {x y : Nat → Traced (Event α) β} (hx : Stabilizes x)
    (h : ∀ᶠ cap in atTop, y cap = x cap) : Stabilizes y := by
  obtain ⟨t, ht, hx⟩ := hx
  refine ⟨t, ht, ?_⟩
  filter_upwards [hx, h] with cap hx h
  rw [h, hx]

end Stabilizing

variable {F : Nat → Run α}

omit [Arithmetic α] in
theorem Stabilizes.wholeTree (hF : Stabilizes (F · n)) : Stabilizes fun cap => wholeTree (F cap) n :=
  hF.bind fun _ => .bind (.always (by simp [Traced.report, Event.NoLimit])) fun _ => .always nofun

omit [Arithmetic α] in
theorem Stabilizes.combineFractions (hF : ∀ n, Stabilizes (F · n)) :
    Stabilizes fun cap => combineFractions (F cap) n := by
  unfold Node.combineFractions
  split
  · exact (hF _).wholeTree.bind fun _ => (hF _).wholeTree.bind fun _ => .always nofun
  · exact .always nofun

theorem Stabilizes.firstRule (hF : ∀ n, Stabilizes (F · n)) (rules : List Rule) :
    Stabilizes fun cap => firstRule s (F cap) n rules := by
  have happly : ∀ rule, Stabilizes fun cap => applyRule s (F cap) rule n := by
    intro rule
    unfold applyRule
    split
    · exact .combineFractions hF
    · exact .always nofun
  induction rules with
  | nil => exact .always nofun
  | cons rule rest ih =>
      refine (happly rule).bind fun cap => ?_
      cases (applyRule s (F cap) rule n).value with
      | some m => exact .bind (.always (by simp [Traced.report, Event.NoLimit])) fun _ => .always nofun
      | none => exact ih

omit [Arithmetic α] in
theorem Stabilizes.optimizeOperands (hF : ∀ n, Stabilizes (F · n)) :
    Stabilizes fun cap => optimizeOperands (F cap) n := by
  cases n with
  | const | var => exact .always nofun
  | unary t op x => exact (hF x).bind fun _ => .always nofun
  | binary t op l r => exact (hF l).bind fun _ => (hF r).bind fun _ => .always nofun

theorem Stabilizes.pass (hF : ∀ n, Stabilizes (F · n)) (n : Node α) :
    Stabilizes fun cap => pass s (F cap) n := by
  refine (optimizeOperands hF).bind fun cap => ?_
  split
  · exact .always nofun
  · refine (firstRule hF _).bind fun cap' => ?_
    split <;> exact .always nofun

/-- The loop of passes ends: each pass but the last one rewrites the tree. -/
theorem Stabilizes.passes (hF : ∀ n, Stabilizes (F · n)) (hdescends : ∀ cap, Descends s env (F cap))
    {k : Nat → Nat} (hk : Tendsto k atTop atTop) (n : Node α) :
    Stabilizes fun cap => passes s (F cap) (k cap) n := by
  induction n using (wellFounded_rewrites s env).induction generalizing k with
  | _ n ih =>
  have hloop : Stabilizes fun cap => do
      let first ← Node.pass s (F cap) n
      if first.change = .unchanged then return first
      else
        let rest ← Node.passes s (F cap) (k cap - 1) first.node
        return ⟨rest.node, .changed⟩ := by
    refine (pass hF n).bind fun cap => ?_
    split
    · exact .always nofun
    next hchanged =>
    refine (ih _ ?_ ((Filter.tendsto_sub_atTop_nat 1).comp hk)).bind fun _ => .always nofun
    rcases (hdescends cap).pass n with ⟨hc, -⟩ | ⟨-, hn⟩
    · exact absurd hc hchanged
    · exact hn
  refine hloop.congr ?_
  filter_upwards [hk.eventually_ge_atTop 1] with cap hcap
  obtain ⟨j, hj⟩ := Nat.exists_eq_add_of_le' hcap
  rw [hj]
  rfl

/-- **The optimizer ends without a limit of passes.**  From some limit on it does the
same for all limits, and none is reached. -/
theorem stabilizes_optimizeCapped (s : Settings α) (env : Environment α) (fuel : Nat) (n : Node α) :
    Stabilizes fun cap => optimizeCapped s env cap fuel n := by
  induction fuel generalizing n with
  | zero => exact .always fun _ he => by cases he
  | succ fuel ih =>
      unfold optimizeCapped
      split
      · exact .always fun _ he => by cases he
      · exact (Stabilizes.passes ih (descends_optimizeCapped s env · fuel) Filter.tendsto_id n).bind
          fun _ => .always fun _ he => by cases he

end Node

end Formula
