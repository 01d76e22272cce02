/-
Formula/Proofs/Simplify/Growth.lean

How a run changes the size of a tree.  No rule makes what it is applied to larger,
but for the merging of exponents: a root becomes a power with a quotient for its
exponent, and a factor under a negation leaves the factor minus one.  A merge adds
up to three nodes, and a run adds no more than the merges that it reports
(`accounts_optimizeWithin`).

The leaves that are variables never get more, not even by merging exponents
(`Tally.steady_freeLeaves`).  Without powers and roots there are no exponents to merge,
and then the size never grows (`Tally.steady_nodes`).
-/
import Formula.Proofs.Simplify.Steady
import Mathlib.Algebra.GroupWithZero.Nat

namespace Formula

universe u

variable {α : Type u}

/-! ### What merges of exponents add -/

/-- How many nodes merging exponents adds. -/
def Event.growth : Event α → Nat
  | .applied .combineExponents before after => after.size - before.size
  | _ => 0

/-- How many nodes the merges of exponents in a run add, one by one. -/
def growth (events : List (Event α)) : Nat := (events.map Event.growth).sum

@[simp] theorem growth_nil : growth ([] : List (Event α)) = 0 := rfl

@[simp] theorem growth_cons (e : Event α) (events : List (Event α)) :
    growth (e :: events) = e.growth + growth events := rfl

@[simp] theorem growth_append (events events' : List (Event α)) :
    growth (events ++ events') = growth events + growth events' := by
  simp [growth]

/-- Without powers and roots. -/
def Fragment.powerless : Fragment where
  unary _ := True
  binary op := op ≠ .pow ∧ op ≠ .root
  neg := trivial
  add := by decide
  sub := by decide
  mul := by decide
  div := by decide
  pow_of_root h := absurd rfl h.2

namespace Tally

variable [Arithmetic α]

/-- Leaves that are variables do not get more in any way. -/
theorem steady_freeLeaves (env : Environment α) : (freeLeaves α).Steady .all env where
  fair := fair_freeLeaves
  unary _ _ _ := le_rfl
  binary _ _ _ _ := le_rfl
  reciprocal _ _ := le_rfl
  cancel _ := le_rfl
  powers _ := ⟨rfl, rfl⟩
  known _ _ _ := Nat.zero_le 1

/-- Nodes do not get more without powers and roots. -/
theorem steady_nodes (env : Environment α) : (nodes α).Steady Fragment.powerless.vocabulary env where
  fair := fair_nodes
  unary _ _ _ := le_rfl
  binary _ _ _ _ := Nat.le_succ 1
  reciprocal _ _ := le_rfl
  cancel _ := le_rfl
  powers h := absurd rfl h.1
  known _ _ _ := le_rfl

end Tally

namespace Expr

variable {e f : Expr α}

/-- How often an operator with one operand occurs. -/
def countUnary (op : UnaryOp) : Expr α → Nat
  | unary op' x => (if op' = op then 1 else 0) + x.countUnary op
  | binary _ l r => l.countUnary op + r.countUnary op
  | _ => 0

/-- How often an operator with two operands occurs. -/
def countBinary (op : BinaryOp) : Expr α → Nat
  | unary _ x => x.countBinary op
  | binary op' l r => (if op' = op then 1 else 0) + (l.countBinary op + r.countBinary op)
  | _ => 0

/-- What the weight adds to the size. -/
theorem weight_eq (e : Expr α) :
    e.weight = e.size + (e.countUnary .neg + e.countUnary .ln + 2 * e.countBinary .root) := by
  induction e with
  | hole | const | var => rfl
  | unary op x ih =>
      cases op <;> simp [weight, size, countUnary, countBinary, ih] <;> omega
  | binary op l r ihl ihr =>
      cases op <;> simp [weight, size, countUnary, countBinary, ihl, ihr] <;> omega

theorem one_le_size (he : e.isFilled) : 1 ≤ e.size := by
  cases e <;> simp_all [isFilled, size]

variable [Arithmetic α] {s : Settings α} {env : Environment α} {rule : Rule} {m : Move α}

/-- A rule that merges no exponents makes nothing larger. -/
theorem size_perform (he : e.isFilled) (hrule : rule ∈ e.rules) (h : rule.move? s e = some m)
    (hpowers : rule ≠ .combineExponents) : (e.perform m).size ≤ e.size := by
  rw [← tally_nodes, ← tally_nodes]
  exact tally_perform Tally.fair_nodes he hrule h hpowers (fun _ => le_rfl) fun _ _ _ _ _ _ => by
    simp [Tally.nodes]

/-- A merge of exponents adds at most three nodes. -/
theorem size_combineExponents (he : e.isFilled) (h : e.combineExponents s = some m) :
    (e.perform m).size ≤ e.size + 3 := by
  obtain ⟨b, hb, hle⟩ := tally_combineExponents Tally.fair_nodes he h
  have hb' := one_le_size hb
  simp only [tally_nodes] at hle
  simp only [Tally.nodes] at hle
  omega

end Expr

/-! ### Runs -/

/-- A part of a run makes what it works on no larger than by the merges of exponents
that it reports, each of which adds at most three nodes. -/
structure Accounts (events : List (Event α)) (before after : Nat) : Prop where
  size : after ≤ before + growth events
  merge : ∀ e ∈ events, e.growth ≤ 3

namespace Accounts

variable {events events' : List (Event α)} {a b c d : Nat}

theorem nil (h : b ≤ a) : Accounts ([] : List (Event α)) a b := ⟨h, nofun⟩

/-- One part of a run after another. -/
theorem trans (h : Accounts events a b) (h' : Accounts events' b c) : Accounts (events ++ events') a c where
  size := by
    have := h.size
    have := h'.size
    rw [growth_append]
    omega
  merge e he := (List.mem_append.mp he).elim (h.merge e) (h'.merge e)

/-- Two operands, one after the other. -/
theorem add (h : Accounts events a b) (h' : Accounts events' c d) :
    Accounts (events ++ events') (a + c) (b + d) where
  size := by
    have := h.size
    have := h'.size
    rw [growth_append]
    omega
  merge e he := (List.mem_append.mp he).elim (h.merge e) (h'.merge e)

/-- Under an operator. -/
theorem succ (h : Accounts events a b) : Accounts events (1 + a) (1 + b) where
  size := by
    have := h.size
    omega
  merge := h.merge

/-- What gets smaller afterwards. -/
theorem le (h : Accounts events a b) (hc : c ≤ b) : Accounts events a c := ⟨hc.trans h.size, h.merge⟩

/-- An event that is no merge. -/
theorem report {e : Event α} (he : e.growth = 0) : Accounts [e] a a where
  size := by simp [he]
  merge e' he' := by
    rw [List.mem_singleton.mp he', he]
    exact Nat.zero_le 3

end Accounts

namespace Node

variable [Arithmetic α] {s : Settings α} {env : Environment α} {f : Run α} {n m : Node α}

/-- The run adds no more to a tree than the merges it reports. -/
def Accounted (f : Run α) : Prop :=
  ∀ n, Accounts (f n).trace n.size (f n).value.node.size

namespace Accounted

omit [Arithmetic α] in
theorem wholeTree (hf : Accounted f) (n : Node α) :
    Accounts (wholeTree f n).trace n.size (wholeTree f n).value.size :=
  (hf n).trans (.report rfl)

omit [Arithmetic α] in
/-- The trial counts, whether the fractions are combined or not. -/
theorem combineFractions (hf : Accounted f) (n : Node α) :
    (∀ e ∈ (combineFractions f n).trace, e.growth ≤ 3) ∧
      ∀ m, (combineFractions f n).value = some m →
        Accounts (combineFractions f n).trace n.size m.size := by
  unfold Node.combineFractions
  split
  · next a b _ c d =>
    have habove := hf.wholeTree (newBinary .mul a.clean c.clean)
    have hbelow := hf.wholeTree (newBinary .mul b.clean d.clean)
    simp only [Traced.value_bind, Traced.value_pure, Traced.trace_bind, Traced.trace_pure,
      List.append_nil]
    have hboth := (habove.add hbelow).succ
    refine ⟨hboth.merge, fun m hm => ?_⟩
    split at hm
    · cases hm
    · obtain rfl := Option.some.inj hm
      have hsize : ∀ x y : Node α, (newBinary .mul x.clean y.clean).size = 1 + (x.size + y.size) := by
        intro x y
        rw [← size_expr]
        simp [newBinary, expr, Expr.size]
      rw [hsize, hsize] at hboth
      refine ⟨hboth.size.trans ?_, hboth.merge⟩
      simp only [size]
      omega
  · -- nothing is reported, and nothing given
    refine ⟨fun e he => (List.not_mem_nil he).elim, fun m hm => ?_⟩
    cases hm

/-- What a rule makes, together with the report of it. -/
theorem applyRule (hf : Accounted f) {rule : Rule} (hrule : rule ∈ n.expr.rules) :
    (∀ e ∈ (applyRule s f rule n).trace, e.growth ≤ 3) ∧
      ∀ m, (applyRule s f rule n).value = some m →
        Accounts ((applyRule s f rule n).trace ++ [.applied rule n.expr m.expr]) n.size m.size := by
  unfold Node.applyRule
  split
  · next heq =>
    subst heq
    obtain ⟨hmerge, hsize⟩ := hf.combineFractions n
    exact ⟨hmerge, fun m hm => (hsize m hm).trans (.report rfl)⟩
  · refine ⟨nofun, fun m hm => ?_⟩
    obtain ⟨move, hmove, rfl⟩ := Option.map_eq_some_iff.mp hm
    have hfilled := n.isFilled_expr
    by_cases hpowers : rule = .combineExponents
    · subst hpowers
      have hmove : n.expr.combineExponents s = some move := by cases h : n.expr <;> rw [h] at hmove <;> exact hmove
      have hle := Expr.size_combineExponents hfilled hmove
      rw [← expr_perform] at hle
      refine ⟨?_, fun e he => ?_⟩
      · simp only [Traced.trace_pure, List.nil_append, growth_cons, growth_nil, Event.growth, size_expr]
        omega
      · obtain rfl := List.mem_singleton.mp he
        simp only [Event.growth]
        omega
    · have hle := Expr.size_perform hfilled hrule hmove hpowers
      rw [← expr_perform, size_expr, size_expr] at hle
      refine (Accounts.report ?_).le hle
      cases rule <;> first | rfl | exact absurd rfl hpowers

theorem firstRule (hf : Accounted f) {rules : List Rule} (hrules : ∀ r ∈ rules, r ∈ n.expr.rules) :
    (∀ e ∈ (firstRule s f n rules).trace, e.growth ≤ 3) ∧
      ∀ m, (firstRule s f n rules).value = some m →
        Accounts (firstRule s f n rules).trace n.size m.size := by
  induction rules with
  | nil => exact ⟨nofun, nofun⟩
  | cons rule rest ih =>
      obtain ⟨hmerge, happlied⟩ := hf.applyRule (s := s) (hrules rule List.mem_cons_self)
      obtain ⟨hmerge', hrest⟩ := ih fun r hr => hrules r (List.mem_cons_of_mem _ hr)
      simp only [Node.firstRule, Traced.value_bind, Traced.trace_bind]
      split
      · next m hm =>
        have hm := happlied m hm
        refine ⟨hm.merge, fun m' hm' => ?_⟩
        obtain rfl := Option.some.inj hm'
        exact hm
      · refine ⟨fun e he => (List.mem_append.mp he).elim (hmerge e) (hmerge' e), fun m hm => ?_⟩
        -- rules that do not apply add nothing
        have hm := hrest m hm
        refine ⟨hm.size.trans ?_, fun e he => (List.mem_append.mp he).elim (hmerge e) (hmerge' e)⟩
        rw [growth_append]
        omega

omit [Arithmetic α] in
theorem optimizeOperands (hf : Accounted f) : Accounted (optimizeOperands f) := by
  intro n
  cases n with
  | const | var => exact .nil (Nat.le_refl _)
  | unary t op x =>
      simp only [Node.optimizeOperands, Traced.value_bind, Traced.value_pure, Traced.trace_bind,
        Traced.trace_pure, List.append_nil]
      exact (hf x).succ
  | binary t op l r =>
      simp only [Node.optimizeOperands, Traced.value_bind, Traced.value_pure, Traced.trace_bind,
        Traced.trace_pure, List.append_nil]
      exact ((hf l).add (hf r)).succ

theorem pass (hf : Accounted f) : Accounted (pass s f) := by
  intro n
  have hoperands := hf.optimizeOperands n
  simp only [Node.pass, Traced.value_bind, Traced.trace_bind]
  split
  · simpa using hoperands
  obtain ⟨hmerge, hrule⟩ := hf.firstRule (s := s) (n := (Node.optimizeOperands f n).value.node)
    fun _ hr => hr
  simp only [Traced.value_bind, Traced.trace_bind]
  split
  · next m hm => simpa using hoperands.trans (hrule m hm)
  · refine hoperands.trans ⟨Nat.le_add_right _ _, fun e he => hmerge e (by simpa using he)⟩

theorem passes (hf : Accounted f) (k : Nat) : Accounted (passes s f k) := by
  induction k with
  | zero => exact fun n => .report rfl
  | succ k ih =>
      intro n
      have hpass := hf.pass (s := s) n
      simp only [Node.passes, Traced.value_bind, Traced.trace_bind]
      split
      · simpa using hpass
      · simpa using hpass.trans (ih _)

theorem finish (env : Environment α) (st : Step α) : (finish env st).node.size ≤ st.node.size := by
  rw [← size_expr, ← size_expr]
  unfold Node.finish
  split
  · simp
  · split
    · simpa [newConst, expr, Expr.size] using Expr.one_le_size st.node.isFilled_expr
    · simp

end Accounted

/-- **A run adds no more to a tree than the merges of exponents it reports.** -/
theorem accounts_optimizeWithin (s : Settings α) (env : Environment α) (fuel : Nat) :
    Accounted (optimizeWithin s env fuel) := by
  induction fuel with
  | zero => exact fun n => .nil (Nat.le_refl _)
  | succ fuel ih =>
      intro n
      unfold optimizeWithin
      split
      · exact .nil (Nat.le_refl _)
      · simp only [Traced.value_bind, Traced.value_pure, Traced.trace_bind, Traced.trace_pure,
          List.append_nil]
        exact (ih.passes maxPasses n).le (Accounted.finish env _)

end Node

end Formula
