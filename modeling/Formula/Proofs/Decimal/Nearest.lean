/-
Formula/Proofs/Decimal/Nearest.lean

Floats and their bits.  The bits of a float are those of its sign, its exponent and
its significand, the leading bit of which is carried into the exponent
(`toNat_toBits_of_finite`).  The nearest float is put together in the same way, so a
float is found again once the exponent and the significand are right (`nearest_eq`).
-/
import Mathlib
import Formula.Decimal.Layout

namespace Formula.Decimal

variable {v : Float} {negative : Bool} {b : Binary} {n : Nat}

theorem pow2_eq (k : Nat) : pow2 k = 2 ^ k := rfl

/-- The bits of the sign. -/
def signBits (negative : Bool) : Nat := if negative then pow2 63 else 0

/-- The significand and the exponent of a float.  It has 53 bits, or the least exponent;
and the floats below are twice as dense where it begins a binade, but for the first. -/
structure Binary.Normalized (b : Binary) : Prop where
  pos : 0 < b.significand
  lt : b.significand < 2 ^ 53
  ge : -1074 ≤ b.exponent
  le : b.exponent ≤ 971
  leading : 2 ^ 52 ≤ b.significand ∨ b.exponent = -1074
  step : b.isPowerStep = true ↔ b.significand = 2 ^ 52 ∧ b.exponent ≠ -1074

theorem signBits_add_mod {bits : Nat} (h : bits < 2 ^ 64) :
    signBits (pow2 63 ≤ bits) + bits % 2 ^ 63 = bits := by
  have hpow : pow2 63 = 2 ^ 63 := rfl
  by_cases hsign : pow2 63 ≤ bits
  · simp only [signBits, hsign, decide_true, if_true]
    omega
  · simp only [signBits, hsign, decide_false, Bool.false_eq_true, if_false]
    omega

/-- The bits of a float, by its magnitude. -/
theorem toNat_toBits_of_finite (h : Magnitude.ofFloat v = (negative, .finite b)) :
    b.Normalized ∧
      v.toBits.toNat = signBits negative + ((b.exponent + 1074).toNat * 2 ^ 52 + b.significand) := by
  have hbits := signBits_add_mod v.toBits.toNat_lt
  simp only [Magnitude.ofFloat, Prod.mk.injEq] at h
  generalize v.toBits.toNat = bits at *
  obtain ⟨rfl, h⟩ := h
  generalize signBits _ = sign at *
  have hpow : pow2 52 = 2 ^ 52 ∧ pow2 11 = 2 ^ 11 := ⟨rfl, rfl⟩
  split at h
  · split at h <;> cases h
  split at h
  · split at h
    · cases h
    · obtain rfl := Magnitude.finite.inj h
      refine ⟨⟨?_, ?_, ?_, ?_, .inr rfl, by simp⟩, ?_⟩ <;> simp only [hpow] at * <;> omega
  · obtain rfl := Magnitude.finite.inj h
    refine ⟨⟨?_, ?_, ?_, ?_, .inl ?_, ?_⟩, ?_⟩ <;>
      simp only [hpow, Bool.and_eq_true, decide_eq_true_eq] at * <;> omega

theorem normalized_of_finite (h : Magnitude.ofFloat v = (negative, .finite b)) : b.Normalized :=
  (toNat_toBits_of_finite h).1

theorem toNat_toBits_of_zero (h : Magnitude.ofFloat v = (negative, .zero)) :
    v.toBits.toNat = signBits negative := by
  have hbits := signBits_add_mod v.toBits.toNat_lt
  simp only [Magnitude.ofFloat, Prod.mk.injEq] at h
  generalize v.toBits.toNat = bits at *
  obtain ⟨rfl, h⟩ := h
  generalize signBits _ = sign at *
  have hpow : pow2 52 = 2 ^ 52 ∧ pow2 11 = 2 ^ 11 := ⟨rfl, rfl⟩
  split at h
  · split at h <;> cases h
  split at h
  · split at h
    · simp only [hpow] at *
      omega
    · cases h
  · cases h

/-! ### The nearest float -/

/-- The bits of the nearest float, when the significand fits the format. -/
theorem nearestBits_eq {num den m d : Nat} {e : Int} (hnum : num ≠ 0) (he : exponentFor num den = e)
    (hscale : scaleDown num den e = (m, d))
    (hbound : (e + 1074).toNat * pow2 52 + roundHalfEven m d ≤ 2047 * pow2 52) :
    nearestBits num den = (e + 1074).toNat * pow2 52 + roundHalfEven m d := by
  unfold nearestBits
  rw [if_neg hnum, he]
  simp only [hscale]
  rw [Nat.min_eq_left hbound]

theorem nearest_eq {num den : Nat} (h : v.toBits.toNat = signBits negative + nearestBits num den) :
    nearest negative num den = v := by
  rw [nearest]
  change Float.ofBits (UInt64.ofNat (signBits negative + nearestBits num den)) = v
  rw [← h, UInt64.ofNat_toNat, Float.ofBits_toBits]

theorem nearest_zero (h : Magnitude.ofFloat v = (negative, .zero)) : nearest negative 0 1 = v :=
  nearest_eq (by rw [toNat_toBits_of_zero h]; rfl)

end Formula.Decimal
