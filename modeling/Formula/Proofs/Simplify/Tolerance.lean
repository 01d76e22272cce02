/-
Formula/Proofs/Simplify/Tolerance.lean

What the tolerance does.  Without powers the tolerance matters in one place only: a
difference or quotient of operands that are alike is cancelled.  So a run with a
tolerance is the same as the run without, as long as only equal operands are
cancelled (`optimizeWithin_of_cancelsEqual`), and this is so for all tolerances
below some bound, which depends on the tree alone (`eventually_optimizeWithin`).

Both follow from one comparison of runs (`Coincides`): for the tolerances of a
filter, a run whose events are all clear is the same as another run.
-/
import Formula.Proofs.Simplify.Exact
import Formula.Proofs.Simplify.Respecting
import Mathlib.Topology.Order.LeftRightNhds
import Mathlib.Algebra.Order.Group.Abs

namespace Formula

universe u

open Topology

variable {K : Type u}

/-- The settings with another tolerance. -/
def Settings.withEpsilon (s : Settings K) (ε : K) : Settings K := { s with epsilon := ε }

/-- The rules that cancel alike operands, and what they put in the place of them. -/
inductive Cancellation [Arithmetic K] : Rule → BinaryOp → K → Prop
  | difference : Cancellation .simplifySubtraction .sub Arithmetic.zero
  | quotient : Cancellation .simplifyDivision .div Arithmetic.one

/-- If the event is a cancellation, then of equal operands. -/
def Event.CancelsEqual [Arithmetic K] (event : Event K) : Prop :=
  ∀ rule op v l r, Cancellation rule op v → event = .applied rule (.binary op l r) (.const v) → l = r

/-! ### Decisions -/

namespace Expr

variable [Arithmetic K] {s : Settings K} {ε : K} {e l r : Expr K} {rule : Rule}

theorem simplifySubtraction_withEpsilon (hmono : l.equals s.epsilon r = true → l.equals ε r = true) :
    l.simplifySubtraction (s.withEpsilon ε) r = l.simplifySubtraction s r ∨
      l.simplifySubtraction (s.withEpsilon ε) r = some (.const Arithmetic.zero) ∧
        l.equals ε r = true ∧ l.equals s.epsilon r = false := by
  unfold simplifySubtraction alike Settings.withEpsilon
  by_cases hbase : l.equals s.epsilon r = true
  · simp [hbase, hmono hbase]
  by_cases hε : l.equals ε r = true
  · split_ifs <;> simp_all
  · simp [hbase, hε]

theorem simplifyDivision_withEpsilon (hmono : l.equals s.epsilon r = true → l.equals ε r = true) :
    l.simplifyDivision (s.withEpsilon ε) r = l.simplifyDivision s r ∨
      l.simplifyDivision (s.withEpsilon ε) r = some (.const Arithmetic.one) ∧
        l.equals ε r = true ∧ l.equals s.epsilon r = false := by
  unfold simplifyDivision alike Settings.withEpsilon
  by_cases hbase : l.equals s.epsilon r = true
  · simp [hbase, hmono hbase]
  by_cases hε : l.equals ε r = true
  · split_ifs <;> simp_all
  · simp [hbase, hε]

/-- With a greater tolerance a rule decides the same or cancels. -/
theorem move?_withEpsilon (he : e.In .arithmetic) (hrule : rule ∈ e.rules)
    (hmono : ∀ l r : Expr K, l.equals s.epsilon r = true → l.equals ε r = true) :
    rule.move? (s.withEpsilon ε) e = rule.move? s e ∨
      ∃ op v l r, Cancellation rule op v ∧ e = .binary op l r ∧
        rule.move? (s.withEpsilon ε) e = some (.rebuild (.const v)) ∧
        l.equals ε r = true ∧ l.equals s.epsilon r = false := by
  cases e with
  | hole | const | var => simp [rules] at hrule
  | unary op x =>
      cases op <;> simp only [rules, List.mem_singleton, List.not_mem_nil] at hrule <;> subst hrule
      case neg => exact .inl rfl
      case ln => exact absurd rfl he.1
  | binary op l r =>
      have hlogs : (binary op l r).combineLogarithms (s.withEpsilon ε)
          = (binary op l r).combineLogarithms s :=
        he.combineLogarithms_eq_none.trans he.combineLogarithms_eq_none.symm
      have hpowers : (binary op l r).combineExponents (s.withEpsilon ε)
          = (binary op l r).combineExponents s :=
        he.combineExponents_eq_none.trans he.combineExponents_eq_none.symm
      cases op <;> simp only [rules, List.mem_cons, List.not_mem_nil, or_false] at hrule
      case add =>
        rcases hrule with rfl | rfl | rfl
        exacts [.inl rfl, .inl rfl, .inl hlogs]
      case sub =>
        rcases hrule with rfl | rfl | rfl
        · refine (simplifySubtraction_withEpsilon (hmono l r)).imp (congrArg (Option.map Move.rebuild))
            fun h => ?_
          exact ⟨.sub, _, l, r, .difference, rfl, congrArg (Option.map Move.rebuild) h.1, h.2⟩
        exacts [.inl rfl, .inl hlogs]
      case mul =>
        rcases hrule with rfl | rfl | rfl | rfl
        exacts [.inl rfl, .inl rfl, .inl hpowers, .inl rfl]
      case div =>
        rcases hrule with rfl | rfl | rfl
        · refine (simplifyDivision_withEpsilon (hmono l r)).imp (congrArg (Option.map Move.rebuild))
            fun h => ?_
          exact ⟨.div, _, l, r, .quotient, rfl, congrArg (Option.map Move.rebuild) h.1, h.2⟩
        exacts [.inl rfl, .inl hpowers]
      case pow | root | log => simp [In, Fragment.arithmetic] at he

end Expr

/-! ### Comparing runs -/

section Coincidence

variable {β γ : Type u} {l : Filter K} {clear : Event K → Prop}

/-- For the tolerances in question, a run is the given one if all its events are
clear. -/
def Coincides (l : Filter K) (clear : Event K → Prop) (x : K → Traced (Event K) β)
    (t : Traced (Event K) β) : Prop :=
  ∀ᶠ ε in l, (∀ e ∈ (x ε).trace, clear e) → x ε = t

theorem Coincides.rfl {t : Traced (Event K) β} : Coincides l clear (fun _ => t) t :=
  .of_forall fun _ _ => Eq.refl t

theorem Coincides.bind {x : K → Traced (Event K) β} {t : Traced (Event K) β}
    {k : K → β → Traced (Event K) γ} {k' : β → Traced (Event K) γ} (hx : Coincides l clear x t)
    (hk : Coincides l clear (k · t.value) (k' t.value)) :
    Coincides l clear (fun ε => x ε >>= k ε) (t >>= k') := by
  filter_upwards [hx, hk] with ε hx hk hclear
  simp only [Traced.trace_bind, List.mem_append] at hclear
  obtain rfl := hx fun e he => hclear e (.inl he)
  simp only [Bind.bind, hk fun e he => hclear e (.inr he)]

end Coincidence

namespace Node

variable [Arithmetic K] {s : Settings K} {env : Environment K} {l : Filter K}
  {clear : Event K → Prop} {F : K → Run K} {f : Run K} {n : Node K}

/-- For the tolerances in question, rules decide as in the given settings if what
they do is clear. -/
def Decides (s : Settings K) (l : Filter K) (clear : Event K → Prop) : Prop :=
  ∀ (e : Expr K) (rule : Rule), e.In .arithmetic → rule ∈ e.rules → ∀ᶠ ε in l,
    (∀ m, rule.move? (s.withEpsilon ε) e = some m → clear (.applied rule e (e.perform m))) →
      rule.move? (s.withEpsilon ε) e = rule.move? s e

/-- For the tolerances in question, clear runs on trees without powers are the given
one. -/
def CoincidesBelow (l : Filter K) (clear : Event K → Prop) (F : K → Run K) (f : Run K) : Prop :=
  ∀ n, n.expr.In .arithmetic → Coincides l clear (F · n) (f n)

namespace CoincidesBelow

omit [Arithmetic K] in
theorem optimizeOperands (hF : CoincidesBelow l clear F f) :
    CoincidesBelow l clear (fun ε => optimizeOperands (F ε)) (optimizeOperands f) := by
  intro n hn
  cases n with
  | const | var => exact .rfl
  | unary t op x => exact (hF x hn.2).bind .rfl
  | binary t op l r => exact (hF l hn.2.1).bind ((hF r hn.2.2).bind .rfl)

omit [Arithmetic K] in
theorem wholeTree (hF : CoincidesBelow l clear F f) (hn : n.expr.In .arithmetic) :
    Coincides l clear (fun ε => wholeTree (F ε) n) (wholeTree f n) :=
  (hF n hn).bind .rfl

omit [Arithmetic K] in
theorem combineFractions (hF : CoincidesBelow l clear F f) (hn : n.expr.In .arithmetic) :
    Coincides l clear (fun ε => combineFractions (F ε) n) (combineFractions f n) := by
  unfold Node.combineFractions
  split
  · next op _ a b _ c d =>
    obtain ⟨-, ⟨-, ha, hb⟩, -, hc, hd⟩ := hn
    have habove : (newBinary .mul a.clean c.clean).expr.In .arithmetic := by
      simp only [newBinary, expr, expr_clean]
      exact ⟨Fragment.mul _, ha, hc⟩
    have hbelow : (newBinary .mul b.clean d.clean).expr.In .arithmetic := by
      simp only [newBinary, expr, expr_clean]
      exact ⟨Fragment.mul _, hb, hd⟩
    exact (hF.wholeTree habove).bind ((hF.wholeTree hbelow).bind .rfl)
  · exact .rfl

theorem firstRule (hdecides : Decides s l clear) (hF : CoincidesBelow l clear F f)
    (hn : n.expr.In .arithmetic) (rules : List Rule) (hrules : ∀ r ∈ rules, r ∈ n.expr.rules) :
    Coincides l clear (fun ε => firstRule (s.withEpsilon ε) (F ε) n rules) (firstRule s f n rules) := by
  induction rules with
  | nil => exact .rfl
  | cons rule rest ih =>
      filter_upwards [hF.combineFractions hn, hdecides n.expr rule hn (hrules rule List.mem_cons_self),
        ih fun r hr => hrules r (List.mem_cons_of_mem _ hr)] with ε hfractions hmove hrest hclear
      simp only [Node.firstRule, Traced.trace_bind, List.mem_append] at hclear
      have happly : applyRule (s.withEpsilon ε) (F ε) rule n = applyRule s f rule n := by
        by_cases hcombine : rule = .combineFractions
        · rw [applyRule, applyRule, if_pos hcombine, if_pos hcombine]
          refine hfractions fun e he => hclear e (.inl ?_)
          rwa [applyRule, if_pos hcombine]
        · rw [applyRule, applyRule, if_neg hcombine, if_neg hcombine, hmove fun m hm => ?_]
          refine hclear _ (.inr ?_)
          simp [applyRule, hcombine, hm, Traced.report]
      simp only [Node.firstRule, Bind.bind, happly] at hclear ⊢
      cases hvalue : (applyRule s f rule n).value with
      | some m => rfl
      | none =>
          simp only [hvalue] at hclear
          simp only [hrest fun e he => hclear e (.inr he)]

variable (hdecides : Decides s l clear) (hF : CoincidesBelow l clear F f)
  (hf : Respects (fun e e' => e.In .arithmetic → e'.In .arithmetic) (fun _ => True) f)

include hdecides hF hf

theorem pass : CoincidesBelow l clear (fun ε => pass (s.withEpsilon ε) (F ε)) (pass s f) := by
  intro n hn
  have hbelow := (stepRelation_in s .empty .arithmetic).optimizeOperands hf n (fun _ _ => trivial) hn
  refine (hF.optimizeOperands n hn).bind ?_
  split
  · exact .rfl
  · exact (hF.firstRule hdecides hbelow _ fun _ hr => hr).bind .rfl

theorem passes (k : Nat) :
    CoincidesBelow l clear (fun ε => passes (s.withEpsilon ε) (F ε) k) (passes s f k) := by
  induction k with
  | zero => exact fun n _ => .rfl
  | succ k ih =>
      intro n hn
      have hpass := (stepRelation_in s .empty .arithmetic).pass hf n (fun _ _ => trivial) hn
      refine (hF.pass hdecides hf n hn).bind ?_
      split
      · exact .rfl
      · exact (ih _ hpass).bind .rfl

end CoincidesBelow

/-- If the rules decide alike, then the optimizer does the same. -/
theorem coincides_optimizeWithin (env : Environment K) (hdecides : Decides s l clear) (fuel : Nat) :
    CoincidesBelow l clear (fun ε => optimizeWithin (s.withEpsilon ε) env fuel)
      (optimizeWithin s env fuel) := by
  induction fuel with
  | zero => exact fun n _ => .rfl
  | succ fuel ih =>
      intro n hn
      simp only [optimizeWithin]
      split
      · exact .rfl
      · have hf := (stepRelation_in s env .arithmetic).optimizeWithin fuel
        exact (ih.passes hdecides hf maxPasses n hn).bind .rfl

end Node

/-! ### Tolerances in a field -/

section Field

variable [Field K] [Arithmetic K] {s : Settings K} {env : Environment K} {n : Node K} {fuel : Nat}

namespace FieldArithmetic

variable (hK : FieldArithmetic K)

include hK

theorem equals_self (e : Expr K) (ε : K) : e.equals ε e = true := by
  induction e with
  | const v => simp [Expr.equals, Arithmetic.alike, (hK.same v v).mpr rfl]
  | _ => simp_all [Expr.equals]

/-- What is alike without a tolerance is alike with any. -/
theorem equals_mono {l r : Expr K} (h : l.equals 0 r = true) (ε : K) : l.equals ε r = true :=
  hK.eq_of_equals h ▸ hK.equals_self l ε

/-- Rules that only cancel equal operands decide as without a tolerance. -/
theorem decides_of_cancelsEqual (hε : s.epsilon = 0) : Node.Decides s ⊤ Event.CancelsEqual := by
  refine fun e rule he hrule => .of_forall fun ε hclear => ?_
  have hmono : ∀ l r : Expr K, l.equals s.epsilon r = true → l.equals ε r = true := fun l r h =>
    hK.equals_mono (hε ▸ h) ε
  rcases Expr.move?_withEpsilon he hrule hmono with h | ⟨op, v, l, r, hcancel, rfl, hmove, -, hne⟩
  · exact h
  · obtain rfl := hclear _ hmove rule op v l r hcancel rfl
    rw [hK.equals_self] at hne
    cases hne

variable [LinearOrder K] [IsStrictOrderedRing K] [TopologicalSpace K] [OrderTopology K]
  (hwithin : ∀ ε a b : K, Arithmetic.within ε a b = true ↔ |a - b| < ε)

include hwithin

/-- Small tolerances tell constants apart. -/
theorem eventually_alike (a b : K) :
    ∀ᶠ ε in 𝓝[>] (0 : K), Arithmetic.alike ε a b = Arithmetic.alike 0 a b := by
  by_cases hab : a = b
  · exact .of_forall fun ε => by simp [Arithmetic.alike, (hK.same a b).mpr hab]
  · filter_upwards [Ioc_mem_nhdsGT (abs_pos.mpr (sub_ne_zero.mpr hab))] with ε hε
    have hfar : Arithmetic.within ε a b = false := by
      rw [Bool.eq_false_iff, ne_eq, hwithin]
      exact not_lt.mpr hε.2
    simp [Arithmetic.alike, hfar, hK.within]

/-- Small tolerances tell expressions apart. -/
theorem eventually_equals (e e' : Expr K) : ∀ᶠ ε in 𝓝[>] (0 : K), e.equals ε e' = e.equals 0 e' := by
  induction e generalizing e' with
  | hole | var => exact .of_forall fun ε => by cases e' <;> rfl
  | const a =>
      cases e' with
      | const b => exact hK.eventually_alike hwithin b a
      | _ => exact .of_forall fun _ => rfl
  | unary op x ih =>
      cases e' with
      | unary op' y =>
          filter_upwards [ih y] with ε h
          rw [Expr.equals, Expr.equals, h]
      | _ => exact .of_forall fun _ => rfl
  | binary op l r ihl ihr =>
      cases e' with
      | binary op' l' r' =>
          filter_upwards [ihl l', ihr r'] with ε hl hr
          rw [Expr.equals, Expr.equals, hl, hr]
      | _ => exact .of_forall fun _ => rfl

/-- With a small tolerance rules decide as without one. -/
theorem decides_nhdsGT (hε : s.epsilon = 0) : Node.Decides s (𝓝[>] 0) fun _ => True := by
  intro e rule he hrule
  have hmono : ∀ ε, ∀ l r : Expr K, l.equals s.epsilon r = true → l.equals ε r = true := fun ε l r h =>
    hK.equals_mono (hε ▸ h) ε
  have hcompare : ∀ᶠ ε in 𝓝[>] (0 : K), ∀ op l r, e = .binary op l r → l.equals ε r = l.equals 0 r := by
    cases e with
    | binary op l r =>
        filter_upwards [hK.eventually_equals hwithin l r] with ε h
        rintro _ _ _ ⟨⟩
        exact h
    | _ => exact .of_forall nofun
  filter_upwards [hcompare] with ε hcompare _
  rcases Expr.move?_withEpsilon he hrule (hmono ε) with h | ⟨op, v, l, r, -, heq, -, halike, hne⟩
  · exact h
  · rw [hcompare op l r heq, ← hε, hne] at halike
    cases halike

end FieldArithmetic

namespace Node

/-- **Runs that only cancel equal operands** do what they do without a tolerance. -/
theorem optimizeWithin_of_cancelsEqual (hK : FieldArithmetic K) (hε : s.epsilon = 0)
    (hn : n.expr.In .arithmetic) (ε : K)
    (hclear : ∀ e ∈ (optimizeWithin (s.withEpsilon ε) env fuel n).trace, e.CancelsEqual) :
    optimizeWithin (s.withEpsilon ε) env fuel n = optimizeWithin s env fuel n :=
  Filter.eventually_top.mp (coincides_optimizeWithin env (hK.decides_of_cancelsEqual hε) fuel n hn) ε hclear

/-- **With a small tolerance** the optimizer does what it does without one. -/
theorem eventually_optimizeWithin [LinearOrder K] [IsStrictOrderedRing K] [TopologicalSpace K]
    [OrderTopology K] (hK : FieldArithmetic K)
    (hwithin : ∀ ε a b : K, Arithmetic.within ε a b = true ↔ |a - b| < ε) (hε : s.epsilon = 0)
    (env : Environment K) (fuel : Nat) (hn : n.expr.In .arithmetic) :
    ∀ᶠ ε in 𝓝[>] (0 : K), optimizeWithin (s.withEpsilon ε) env fuel n = optimizeWithin s env fuel n := by
  filter_upwards [coincides_optimizeWithin env (hK.decides_nhdsGT hwithin hε) fuel n hn] with ε h
  exact h fun _ _ => trivial

end Node

end Field

end Formula
