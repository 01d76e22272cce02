/-
Formula/Proofs/Graph/Overflow.lean

Infinities that the optimizer brings in.  Constants of a chain are multiplied, added
and inverted although the tree never has them side by side, and nobody looks at whether
the result overflows; so a tree whose constants and constant parts are finite may get
an infinite constant (`optimizeTree_overflows`).  It may also get one by a division
when the divisor is cancelled to zero.

No constant gets infinite in another way than by a rule, and the run reports the rule
(`Event.Keeps`).  Where overflow is the only danger, magnitudes tell whether there is
any.  In a polynomial the binary logarithms of the constants are counted, together with
one for each node, for the carry of a sum; in a quotient of products the logarithms of
the reciprocals count too, so that nothing underflows to a zero either.  If the count
is at most 1024, then all constants stay finite.
-/
import Formula.Proofs.Graph.Incremental
import Formula.Proofs.Kinds.Magnitude
import Formula.Proofs.Simplify.Steady
import Formula.Proofs.Simplify.Tame

namespace Formula

open Binary64 (height spread)

/-! ### Magnitudes -/

/-- The operators of polynomials, with the extrema of polynomials. -/
def Vocabulary.polynomial : Vocabulary where
  unary op := op = .neg
  binary op := op = .add ∨ op = .sub ∨ op = .mul ∨ op = .max ∨ op = .min
  sub_of_add _ := by decide
  add_of_sub _ := by decide
  neg_of_sub _ := rfl
  mul_of_div _ := by decide
  mul_of_pow _ := by decide
  add_of_pow _ := by decide
  pow_of_root h := absurd h (by decide)
  div_of_root h := absurd h (by decide)
  div_of_log h := absurd h (by decide)
  div_of_ln h := absurd h (by decide)

/-- The operators of products and quotients. -/
def Vocabulary.monomial : Vocabulary where
  unary op := op = .neg
  binary op := op = .mul ∨ op = .div
  sub_of_add h := absurd h (by decide)
  add_of_sub h := absurd h (by decide)
  neg_of_sub _ := rfl
  mul_of_div _ := .inl rfl
  mul_of_pow _ := .inl rfl
  add_of_pow h := absurd h (by decide)
  pow_of_root h := absurd h (by decide)
  div_of_root _ := .inr rfl
  div_of_log _ := .inr rfl
  div_of_ln _ := .inr rfl

namespace Tally

/-- Constants count how large they may be. -/
def height : Tally Float := ⟨fun v => 1 + Binary64.height v, 1, 1⟩

/-- Constants count how large or how small they may be. -/
def spread : Tally Float := ⟨fun v => 1 + Binary64.spread v, 1, 1⟩

theorem fair_height : height.Fair where
  zero := by
    intro v _
    have hzero : Binary64.height 0.0 = 0 := by decide +kernel
    show 1 + Binary64.height 0.0 ≤ 1 + Binary64.height v
    omega
  one := by decide +kernel
  negOne := by decide +kernel
  neg v := (congrArg (1 + ·) (Binary64.height_neg v)).le

theorem fair_spread : spread.Fair where
  zero := by
    intro v hv
    -- zeros have the greatest spread
    have hspread : ¬Binary64.spread v < 1024 := by
      intro h
      have hnonzero := (Binary64.isFinite_of_spread h).2
      exact Bool.false_ne_true (hnonzero.symm.trans hv)
    have hzero := Binary64.spread_le 0.0
    show 1 + Binary64.spread 0.0 ≤ 1 + Binary64.spread v
    omega
  one := by decide +kernel
  negOne := by decide +kernel
  neg v := (congrArg (1 + ·) (Binary64.spread_neg v)).le

/-- A constant of a polynomial is at most as large as the ones together that it is
computed from, with a one for the carry of a sum. -/
theorem steady_height : height.Steady .polynomial .empty where
  fair := fair_height
  unary op v h := by
    obtain rfl : op = .neg := h
    exact fair_height.neg v
  binary op v w h := by
    have hadd := Binary64.height_add v w
    have hsub := Binary64.height_sub v w
    have hmul := Binary64.height_mul v w
    have hmax := Binary64.height_maximum v w
    have hmin := Binary64.height_minimum v w
    rcases h with rfl | rfl | rfl | rfl | rfl
    · show 1 + Binary64.height (v + w) ≤ 1 + Binary64.height v + (1 + Binary64.height w)
      omega
    · show 1 + Binary64.height (v - w) ≤ 1 + Binary64.height v + (1 + Binary64.height w)
      omega
    · show 1 + Binary64.height (v * w) ≤ 1 + Binary64.height v + (1 + Binary64.height w)
      omega
    · show 1 + Binary64.height (Binary64.maximum v w) ≤ 1 + Binary64.height v + (1 + Binary64.height w)
      omega
    · show 1 + Binary64.height (Binary64.minimum v w) ≤ 1 + Binary64.height v + (1 + Binary64.height w)
      omega
  reciprocal _ h := by simp [Vocabulary.polynomial] at h
  cancel _ := by decide +kernel
  powers h := by simp [Vocabulary.polynomial] at h
  known _ _ h := by cases h

/-- A constant of products and quotients is at most as far from one as the ones
together that it is computed from. -/
theorem steady_spread : spread.Steady .monomial .empty where
  fair := fair_spread
  unary op v h := by
    obtain rfl : op = .neg := h
    exact fair_spread.neg v
  binary op v w h := by
    have hmul := Binary64.spread_mul v w
    have hdiv := Binary64.spread_div v w
    rcases h with rfl | rfl
    · show 1 + Binary64.spread (v * w) ≤ 1 + Binary64.spread v + (1 + Binary64.spread w)
      omega
    · show 1 + Binary64.spread (v / w) ≤ 1 + Binary64.spread v + (1 + Binary64.spread w)
      omega
  reciprocal v _ := by
    have hone : Binary64.spread 1.0 = 0 := by decide +kernel
    have hdiv := Binary64.spread_div 1.0 v
    show 1 + Binary64.spread (1.0 / v) ≤ 1 + Binary64.spread v
    omega
  cancel h := by simp [Vocabulary.monomial] at h
  powers h := by simp [Vocabulary.monomial] at h
  known _ _ h := by cases h

end Tally

namespace Graph

variable {g : Graph Float} {i : Nat}

/-- **Where infinities come from.**  On a well-formed tree of a reachable graph the
optimizer succeeds, with all settings.  If the constants and the values of the constant
parts of the tree are finite, then so are the constants of the result, unless a rule
that the run reports makes an infinity or lets the last variable vanish.  The constants
are finite without further ado if the tree is a polynomial and the count of the
magnitudes is at most 1024; and they are finite and not zero if it is built with products
and quotients, and the count is at most 1024 for the magnitudes and their reciprocals. -/
theorem optimizeTree_constants_isFinite (hg : Reachable g) (hi : g.isWellFormed i = true)
    (s : Settings Float) :
    ∃ g' root events, g.optimizeTree s .empty i = ⟨(g', .ok root), events⟩ ∧
      g'.isWellFormed root = true ∧
      ((g.expr i).Tame .empty (fun v => v.isFinite = true) →
        (∀ e ∈ events, e.Keeps .empty fun v => v.isFinite = true) →
          ∀ v ∈ (g'.expr root).constants, v.isFinite = true) ∧
      ((g.expr i).Over .polynomial → (g.expr i).tally .height ≤ 1024 →
        ∀ v ∈ (g'.expr root).constants, v.isFinite = true) ∧
      ((g.expr i).Over .monomial → (g.expr i).tally .spread ≤ 1024 →
        ∀ v ∈ (g'.expr root).constants, v.isFinite = true ∧ (v == 0.0) = false) := by
  obtain ⟨n, F, hn⟩ := isWellFormed_iff.mp hi
  obtain ⟨g', root, E, hrun, hroot, -⟩ := optimizeTree_spec (marksOnly_true s .empty) hg.sound hn
    fun _ _ => trivial
  have hsteps := Node.rewrites_optimizeTree s .empty n
  refine ⟨g', root, _, hrun, isWellFormed_iff.mpr ⟨_, _, hroot⟩, ?_⟩
  rw [hn.expr_eq, hroot.expr_eq]
  refine ⟨fun htame hkeeps => ?_, fun hover hle v hv => ?_, fun hover hle v hv => ?_⟩
  · exact (Node.keeps_optimizeTree hkeeps htame).1.constants
  · have hconst := Expr.const_le_of_reflTransGen hsteps Tally.steady_height n.isFilled_expr hover v hv
    have hmagnitude : 1 + height v ≤ 1024 := hconst.trans hle
    apply Binary64.isFinite_of_height
    omega
  · have hconst := Expr.const_le_of_reflTransGen hsteps Tally.steady_spread n.isFilled_expr hover v hv
    have hmagnitude : 1 + spread v ≤ 1024 := hconst.trans hle
    apply Binary64.isFinite_of_spread
    omega

/-- The product of `x * 2` and 3. -/
def scaledTwice : Graph Float :=
  ((((empty.add (.var "x")).1.add (.const 2)).1.newBinary .mul (some 0) (some 1)).1.add
    (.const 3)).1.newBinary .mul (some 2) (some 3) |>.1

/-- No constant of `x * 6` is infinite or zero, for each of the reasons. -/
theorem optimizeTree_constants_isFinite_scaledTwice :
    ∃ g' root events, scaledTwice.optimizeTree .default .empty 4 = ⟨(g', .ok root), events⟩ ∧
      ((scaledTwice.expr 4).Tame .empty (fun v => v.isFinite = true) ∧
        ∀ e ∈ events, e.Keeps .empty fun v => v.isFinite = true) ∧
      ((scaledTwice.expr 4).Over .polynomial ∧ (scaledTwice.expr 4).tally .height ≤ 1024) ∧
      ((scaledTwice.expr 4).Over .monomial ∧ (scaledTwice.expr 4).tally .spread ≤ 1024) ∧
      ∀ v ∈ (g'.expr root).constants, v.isFinite = true ∧ (v == 0.0) = false := by
  have hreachable : Reachable scaledTwice :=
    .newBinary _ _ _ <| .newConst _ <| .newBinary _ _ _ <| .newConst _ <| .newVar _ .empty
  have hexpr : scaledTwice.expr 4 = .binary .mul (.binary .mul (.var "x") (.const 2)) (.const 3) := by
    decide +kernel
  have htame : (scaledTwice.expr 4).Tame .empty (fun v => v.isFinite = true) := by decide +kernel
  have hkeeps : ∀ e ∈ (scaledTwice.optimizeTree .default .empty 4).trace,
      e.Keeps .empty fun v => v.isFinite = true := by
    decide +kernel
  have hpolynomial : (scaledTwice.expr 4).Over .polynomial := by
    rw [hexpr]
    simp [Expr.Over, Vocabulary.polynomial]
  have hmonomial : (scaledTwice.expr 4).Over .monomial := by
    rw [hexpr]
    simp [Expr.Over, Vocabulary.monomial]
  have hheight : (scaledTwice.expr 4).tally .height ≤ 1024 := by decide +kernel
  have hspread : (scaledTwice.expr 4).tally .spread ≤ 1024 := by decide +kernel
  obtain ⟨g', root, events, hrun, -, hblame, -, hquotients⟩ :=
    optimizeTree_constants_isFinite hreachable (i := 4) (by decide +kernel) .default
  rw [hrun] at hkeeps
  refine ⟨g', root, events, hrun, ⟨htame, hkeeps⟩, ⟨hpolynomial, hheight⟩, ⟨hmonomial, hspread⟩, ?_⟩
  intro v hv
  exact ⟨hblame htame hkeeps v hv, (hquotients hmonomial hspread v hv).2⟩

/-! ### Overflow -/

/-- The optimizer makes a tree with a constant that is not finite, though the constants
and the values of the constant parts of the tree are. -/
def Overflows (g : Graph Float) (s : Settings Float) (i : Nat) : Prop :=
  (g.expr i).Tame .empty (fun v => v.isFinite = true) ∧
    ∃ g' root events, g.optimizeTree s .empty i = ⟨(g', .ok root), events⟩ ∧
      ∃ v ∈ (g'.expr root).constants, v.isFinite = false

theorem Overflows.of_run {s : Settings Float} {j : Nat} {e : Expr Float}
    (htame : (g.expr i).Tame .empty (fun v => v.isFinite = true))
    (hroot : (g.optimizeTree s .empty i).value.2 = .ok j)
    (hexpr : (g.optimizeTree s .empty i).value.1.expr j = e)
    (hconst : ∃ v ∈ e.constants, v.isFinite = false) : g.Overflows s i := by
  refine ⟨htame, ?_⟩
  generalize g.optimizeTree s .empty i = run at hroot hexpr ⊢
  obtain ⟨⟨g', res⟩, events⟩ := run
  obtain rfl : res = .ok j := hroot
  exact ⟨g', j, events, rfl, hexpr ▸ hconst⟩

/-- The product of `x * 1e200` and `1e200`. -/
def farProduct : Graph Float :=
  ((((empty.add (.var "x")).1.add (.const 1e200)).1.newBinary .mul (some 0) (some 1)).1.add
    (.const 1e200)).1.newBinary .mul (some 2) (some 3) |>.1

/-- The quotient of 1 and `x - x`. -/
def cancelledDivisor : Graph Float :=
  ((((empty.add (.const 1)).1.add (.var "x")).1.add (.var "x")).1.newBinary .sub (some 1)
    (some 2)).1.newBinary .div (some 0) (some 3) |>.1

/-- **The optimizer may bring in infinities.**  The constants of `x * 1e200 * 1e200` are
multiplied, whether operands are taken to be finite or not, and the divisor of
`1 / (x - x)` is cancelled. -/
theorem optimizeTree_overflows :
    (Reachable farProduct ∧ farProduct.isWellFormed 4 = true ∧
      ∀ rational, farProduct.Overflows ⟨rational, defaultEpsilon, false⟩ 4) ∧
    Reachable cancelledDivisor ∧ cancelledDivisor.isWellFormed 4 = true ∧
      cancelledDivisor.Overflows .default 4 := by
  have hproduct : ∃ v ∈ (Expr.binary .mul (.var "x") (.const (1e200 * 1e200 : Float))).constants,
      v.isFinite = false := by
    refine ⟨1e200 * 1e200, ?_, by decide +kernel⟩
    simp [Expr.constants, Expr.nodes, Expr.walk, TraversalOrder.enqueue, Expr.operands, Expr.isHole,
      Expr.constant?]
  have hquotient : ∃ v ∈ (Expr.const (1 / 0 : Float)).constants, v.isFinite = false := by
    refine ⟨1 / 0, ?_, by decide +kernel⟩
    simp [Expr.constants, Expr.nodes, Expr.walk, TraversalOrder.enqueue, Expr.operands, Expr.constant?]
  refine ⟨⟨?_, by decide +kernel, fun rational => ?_⟩, ?_, by decide +kernel, ?_⟩
  · exact .newBinary _ _ _ <| .newConst _ <| .newBinary _ _ _ <| .newConst _ <| .newVar _ .empty
  · cases rational <;> refine .of_run (j := 4) ?_ ?_ ?_ hproduct <;> decide +kernel
  · exact .newBinary _ _ _ <| .newBinary _ _ _ <| .newVar _ <| .newVar _ <| .newConst _ .empty
  · refine .of_run (j := 6) ?_ ?_ ?_ hquotient <;> decide +kernel

end Graph

end Formula
