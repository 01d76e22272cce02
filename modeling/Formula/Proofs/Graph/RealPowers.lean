/-
Formula/Proofs/Graph/RealPowers.lean

Powers and roots of real numbers.  The optimizer multiplies exponents that are
raised one upon the other, divides them by degrees of roots, and adds the
exponents of equal bases.  These are laws of real powers if the bases are positive,
and they are laws if the exponents are integers; they are no laws of all real
powers.

Accordingly the optimizer is sound if all powers in a tree have positive bases, or
if they all have integer exponents (`optimizeTree_evaluates_powers`); a base zero
may have positive exponents.  The square of minus two, raised to one half, is what
it does not preserve (`optimizeTree_changes_sign`).
-/
import Formula.Proofs.Graph.Exactness
import Mathlib.Analysis.SpecialFunctions.Pow.Real
import Mathlib.Analysis.SpecialFunctions.Trigonometric.Basic

namespace Formula

open Expr (Evaluates)

/-! ### The real numbers -/

/-- The arithmetic of the real numbers.  Halves are rounded up, and a root is a power
with the reciprocal degree. -/
noncomputable instance : Arithmetic ℝ where
  zero := 0
  one := 1
  euler := Real.exp 1
  unary
    | .neg, a => -a
    | .cos, a => Real.cos a
    | .sin, a => Real.sin a
    | .tan, a => Real.tan a
    | .ln, a => Real.log a
    | .round, a => ⌊a + 1 / 2⌋
    | .ceil, a => ⌈a⌉
    | .floor, a => ⌊a⌋
  binary
    | .add, a, b => a + b
    | .sub, a, b => a - b
    | .mul, a, b => a * b
    | .div, a, b => a / b
    | .pow, a, b => a ^ b
    | .root, a, b => b ^ (1 / a)
    | .log, a, b => Real.log b / Real.log a
    | .max, a, b => max a b
    | .min, a, b => min a b
  same a b := decide (a = b)
  within ε a b := decide (|a - b| < ε)

noncomputable instance : Numeral ℝ where
  text _ := ""
  ofText? _ := none

theorem fieldArithmetic_real : FieldArithmetic ℝ where
  zero := rfl
  one := rfl
  neg _ := rfl
  add _ _ := rfl
  sub _ _ := rfl
  mul _ _ := rfl
  div _ _ := rfl
  same _ _ := decide_eq_true_iff
  within _ _ := decide_eq_false (not_lt.mpr (abs_nonneg _))

/-! ### Where the laws of powers hold -/

/-- The base is positive, or it is zero and the exponent positive. -/
def PositiveBase (x a : ℝ) : Prop := 0 < x ∨ x = 0 ∧ 0 < a

/-- The exponent is an integer, and positive if the base is zero. -/
def IntegerExponent (x a : ℝ) : Prop := (∃ k : ℤ, a = k) ∧ (x ≠ 0 ∨ 0 < a)

/-- The power is a real number. -/
def RealPower (x a : ℝ) : Prop := PositiveBase x a ∨ IntegerExponent x a

theorem PositiveBase.nonneg {x a : ℝ} (h : PositiveBase x a) : 0 ≤ x := by
  rcases h with hx | ⟨rfl, -⟩
  · exact hx.le
  · exact le_rfl

theorem powerLaws_positiveBase : PowerLaws PositiveBase where
  root _ _ _ _ := rfl
  one_mem x a h := h.imp_right fun h => ⟨h.1, one_pos⟩
  pow_one x _ := Real.rpow_one x
  pow_zero x _ := Real.rpow_zero x
  one_pow a _ := Real.one_rpow a
  pow_pow x a b h h' := by
    refine ⟨?_, Real.rpow_mul h.nonneg a b⟩
    rcases h with hx | ⟨rfl, ha⟩
    · exact .inl hx
    · have hzero : Arithmetic.binary .pow (0 : ℝ) a = 0 := Real.zero_rpow ha.ne'
      rw [hzero] at h'
      exact .inr ⟨rfl, mul_pos ha (h'.resolve_left (lt_irrefl 0)).2⟩
  pow_add x a b h h' := by
    rcases h with hx | ⟨rfl, ha⟩
    · exact ⟨.inl hx, Real.rpow_add hx a b⟩
    · have hb : 0 < b := (h'.resolve_left (lt_irrefl 0)).2
      refine ⟨.inr ⟨rfl, add_pos ha hb⟩, ?_⟩
      change (0 : ℝ) ^ (a + b) = 0 ^ a * 0 ^ b
      rw [Real.zero_rpow ha.ne', Real.zero_rpow (add_pos ha hb).ne', zero_mul]
  pow_sub x a b h h' hne := by
    rcases h' with hx | ⟨rfl, hb⟩
    · exact ⟨.inl hx, Real.rpow_sub hx a b⟩
    · exact absurd (Real.zero_rpow hb.ne') hne
  pow_ne_zero x a b h _ hne := by
    rcases h with hx | ⟨rfl, ha⟩
    · exact (Real.rpow_pos_of_pos hx b).ne'
    · exact absurd (Real.zero_rpow ha.ne') hne

theorem IntegerExponent.positiveBase {a : ℝ} (h : IntegerExponent 0 a) : PositiveBase 0 a :=
  .inr ⟨rfl, h.2.resolve_left (absurd rfl)⟩

theorem PositiveBase.integerExponent {a : ℝ} (h : PositiveBase 0 a) (k : ℤ) (ha : a = k) :
    IntegerExponent 0 a :=
  ⟨⟨k, ha⟩, .inr (h.resolve_left (lt_irrefl 0)).2⟩

/-- For the base zero the laws are those of a base that is not negative. -/
theorem powerLaws_integerExponent : PowerLaws IntegerExponent where
  root _ _ _ _ := rfl
  one_mem x a _ := ⟨⟨1, Int.cast_one.symm⟩, .inr one_pos⟩
  pow_one x _ := Real.rpow_one x
  pow_zero x _ := Real.rpow_zero x
  one_pow a _ := Real.one_rpow a
  pow_pow x a b h h' := by
    obtain ⟨⟨k, hk⟩, hx⟩ := h
    obtain ⟨⟨l, hl⟩, hx'⟩ := h'
    have hkl : a * b = (k * l : ℤ) := by rw [hk, hl, Int.cast_mul]
    -- to the base zero the laws ask for positive exponents; every other base is a unit
    by_cases h0 : x = 0
    · subst h0
      have ha : 0 < a := hx.resolve_left (absurd rfl)
      have hb : 0 < b := hx'.resolve_left (absurd (Real.zero_rpow ha.ne'))
      exact ⟨⟨⟨_, hkl⟩, .inr (mul_pos ha hb)⟩, Real.rpow_mul le_rfl a b⟩
    · refine ⟨⟨⟨_, hkl⟩, .inl h0⟩, ?_⟩
      change x ^ (a * b) = (x ^ a) ^ b
      rw [hkl, hk, hl, Real.rpow_intCast, Real.rpow_intCast, Real.rpow_intCast, zpow_mul]
  pow_add x a b h h' := by
    obtain ⟨k, hk⟩ := h.1
    obtain ⟨l, hl⟩ := h'.1
    have hkl : a + b = (k + l : ℤ) := by rw [hk, hl, Int.cast_add]
    by_cases h0 : x = 0
    · subst h0
      obtain ⟨hmem, hadd⟩ := powerLaws_positiveBase.pow_add 0 a b h.positiveBase h'.positiveBase
      exact ⟨hmem.integerExponent _ hkl, hadd⟩
    · refine ⟨⟨⟨_, hkl⟩, .inl h0⟩, ?_⟩
      change x ^ (a + b) = x ^ a * x ^ b
      rw [hkl, hk, hl, Real.rpow_intCast, Real.rpow_intCast, Real.rpow_intCast, zpow_add₀ h0]
  pow_sub x a b h h' hne := by
    obtain ⟨k, hk⟩ := h.1
    obtain ⟨l, hl⟩ := h'.1
    have hkl : a - b = (k - l : ℤ) := by rw [hk, hl, Int.cast_sub]
    by_cases h0 : x = 0
    · subst h0
      obtain ⟨hmem, hsub⟩ := powerLaws_positiveBase.pow_sub 0 a b h.positiveBase h'.positiveBase hne
      exact ⟨hmem.integerExponent _ hkl, hsub⟩
    · refine ⟨⟨⟨_, hkl⟩, .inl h0⟩, ?_⟩
      change x ^ (a - b) = x ^ a / x ^ b
      rw [hkl, hk, hl, Real.rpow_intCast, Real.rpow_intCast, Real.rpow_intCast, zpow_sub₀ h0]
  pow_ne_zero x a b h h' hne := by
    by_cases h0 : x = 0
    · subst h0
      exact powerLaws_positiveBase.pow_ne_zero 0 a b h.positiveBase h'.positiveBase hne
    · obtain ⟨l, rfl⟩ := h'.1
      change x ^ (l : ℝ) ≠ 0
      rw [Real.rpow_intCast]
      exact zpow_ne_zero l h0

/-! ### Soundness -/

namespace Graph

variable {s : Settings ℝ} {ctx : Environment ℝ} {g : Graph ℝ} {i : Nat}

/-- **The optimizer is sound for powers and roots** of positive bases, and for powers
with integer exponents.  If no limit of passes is reached, then for every binding
under which all powers of a well-formed tree are such powers the result has the
same value, and all its powers are again such powers. -/
theorem optimizeTree_evaluates_powers (hs : s.rational = true) (hε : s.epsilon = 0)
    (hg : Reachable g) (hi : g.isWellFormed i = true)
    (hmarks : ∀ p c, g.follow i p = some c → g.isSettled c = true → (g.expr c).Fixed s ctx)
    (hlimit : ∀ e ∈ (g.optimizeTree s ctx i).trace, e.NoLimit) :
    ∃ g' root events, g.optimizeTree s ctx i = ⟨(g', .ok root), events⟩ ∧
      g'.isWellFormed root = true ∧
      ∀ env v, (∀ x v, ctx x = some v → env x = some v) →
        (Evaluates (.withPowers PositiveBase) env (g.expr i) v →
          Evaluates (.withPowers PositiveBase) env (g'.expr root) v) ∧
        (Evaluates (.withPowers IntegerExponent) env (g.expr i) v →
          Evaluates (.withPowers IntegerExponent) env (g'.expr root) v) := by
  obtain ⟨g', root, events, hrun, hroot, hpositive⟩ := exists_evaluates
    (fieldArithmetic_real.exact powerLaws_positiveBase) hs hε hg hi hmarks (.inr hlimit)
  obtain ⟨g'', root', events', hrun', -, hinteger⟩ := exists_evaluates
    (fieldArithmetic_real.exact powerLaws_integerExponent) hs hε hg hi hmarks (.inr hlimit)
  obtain ⟨⟨rfl, rfl⟩, rfl⟩ : (g' = g'' ∧ root = root') ∧ events = events' := by
    simpa using hrun.symm.trans hrun'
  exact ⟨g', root, events, hrun, hroot, fun env v hle => ⟨hpositive env v hle, hinteger env v hle⟩⟩

/-! ### A power of a power -/

/-- A power, raised to a variable. -/
def nestedPower : Graph ℝ :=
  ((((empty.add (.var "x")).1.add (.var "y")).1.newBinary .pow (some 0) (some 1)).1.add
    (.var "z")).1.newBinary .pow (some 2) (some 3) |>.1

theorem tended_nestedPower (s : Settings ℝ) (ctx : Environment ℝ) : Tended s ctx nestedPower :=
  .newBinary _ _ _ <| .newVar _ <| .newBinary _ _ _ <| .newVar _ <| .newVar _ .empty

theorem reachable_nestedPower : Reachable nestedPower :=
  .newBinary _ _ _ <| .newVar _ <| .newBinary _ _ _ <| .newVar _ <| .newVar _ .empty

/-- The values of the three variables. -/
def atPoint (x y z : ℝ) : Environment ℝ
  | "x" => some x
  | "y" => some y
  | "z" => some z
  | _ => none

theorem evaluates_nestedPower {P : ℝ → ℝ → Prop} {x y z : ℝ} (h : P x y) (h' : P (x ^ y) z) :
    Evaluates (.withPowers P) (atPoint x y z) (nestedPower.expr 4) ((x ^ y) ^ z) :=
  .binary (.binary (.var rfl) (.var rfl) h) (.var rfl) h'

/-- The cube of four, which is the square of two and of minus two. -/
theorem optimizeTree_evaluates_powers_cube :
    ∃ g' root events, nestedPower.optimizeTree ⟨true, 0, false⟩ .empty 4 = ⟨(g', .ok root), events⟩ ∧
      g'.isWellFormed root = true ∧
      Evaluates (.withPowers PositiveBase) (atPoint 2 2 3) (g'.expr root) 64 ∧
      Evaluates (.withPowers IntegerExponent) (atPoint (-2) 2 3) (g'.expr root) 64 := by
  have hi : nestedPower.isWellFormed 4 = true := by decide +kernel
  obtain ⟨g', root, events, hrun, hroot, hv⟩ := optimizeTree_evaluates_powers rfl rfl
    reachable_nestedPower hi ((tended_nestedPower ⟨true, 0, false⟩ .empty).fixed_of_isSettled hi) (by decide)
  refine ⟨g', root, events, hrun, hroot, ?_, ?_⟩
  · refine (hv _ _ nofun).1 (Evaluates.of_eq (evaluates_nestedPower (.inl ?_) (.inl ?_)) ?_) <;> norm_num
  · have hsquare : ((-2 : ℝ)) ^ (2 : ℝ) = 4 := by norm_num
    refine (hv _ _ nofun).2 (Evaluates.of_eq (evaluates_nestedPower ⟨⟨2, by norm_num⟩, .inl ?_⟩
      ⟨⟨3, by norm_num⟩, .inl ?_⟩) ?_) <;> norm_num

/-- **The sign is not always kept.**  The square of minus two, raised to one half, is
two, and all powers in it are real numbers; what the optimizer makes of it is minus
two. -/
theorem optimizeTree_changes_sign :
    Reachable nestedPower ∧ nestedPower.isWellFormed 4 = true ∧
    Evaluates (.withPowers RealPower) (atPoint (-2) 2 (1 / 2)) (nestedPower.expr 4) 2 ∧
    ∃ g' root events, nestedPower.optimizeTree ⟨true, 0, false⟩ .empty 4 = ⟨(g', .ok root), events⟩ ∧
      Evaluates (.withPowers RealPower) (atPoint (-2) 2 (1 / 2)) (g'.expr root) (-2) := by
  have hsquare : IntegerExponent (-2) 2 := ⟨⟨2, by norm_num⟩, .inl (by norm_num)⟩
  have hfour : ((-2 : ℝ)) ^ (2 : ℝ) = 4 := by norm_num
  refine ⟨reachable_nestedPower, by decide +kernel, ?_, _, 6, _, rfl, ?_⟩
  · refine Evaluates.of_eq (evaluates_nestedPower (.inr hsquare) (.inl (.inl ?_))) ?_
    · norm_num
    · rw [hfour, show (4 : ℝ) = 2 ^ (2 : ℝ) by norm_num, ← Real.rpow_mul (by norm_num)]
      norm_num
  · have hone : IntegerExponent (-2) (2 * (1 / 2)) := ⟨⟨1, by norm_num⟩, .inl (by norm_num)⟩
    have hresult : Evaluates (.withPowers RealPower) (atPoint (-2) 2 (1 / 2))
        (.binary .pow (.var "x") (.binary .mul (.var "y") (.var "z"))) ((-2) ^ ((2 : ℝ) * (1 / 2))) :=
      .binary (.var rfl) (.binary (.var rfl) (.var rfl) trivial) (.inr hone)
    exact hresult.of_eq (by norm_num)

end Graph

end Formula
