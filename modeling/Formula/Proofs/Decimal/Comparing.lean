/-
Formula/Proofs/Decimal/Comparing.lean

Floats are compared by their values.  What a float is made of is the same for printing
and for comparing (`Magnitude.isUnpacked`).  Of two finite floats the one with the
greater exponent is the greater, and with one exponent the one with the greater
significand; and so it is with their values, since the significands of all floats but
the least have the same number of bits (`Binary.Normalized.value_le_iff`).
-/
import Formula.Proofs.Decimal.Rounding
import Formula.Proofs.Kinds.Magnitude

namespace Formula

open Float.Model (Format UnpackedFloat)
open Float.Model.UnpackedFloat

namespace Decimal

variable {v w : Float} {negative : Bool} {b c : Binary}

/-! ### What a float is made of -/

section

variable (bits : BitVec Format.binary64.numBits)

theorem toNat_unpackMantissa : (unpackMantissa bits).toNat = bits.toNat % pow2 52 := by
  simp [unpackMantissa, pow2_eq]

theorem toNat_unpackExponent : (unpackExponent bits).toNat = bits.toNat / pow2 52 % pow2 11 := by
  simp [unpackExponent, pow2_eq, Nat.shiftRight_eq_div_pow]

/-- The sign of a float. -/
def signOf (negative : Bool) : Sign := if negative then .negative else .positive

theorem ofBitVec_unpackSign : Sign.ofBitVec (unpackSign bits) = signOf (pow2 63 ≤ bits.toNat) := by
  have hbit : (unpackSign bits).toNat = bits.toNat / 2 ^ 63 % 2 := by
    simp [unpackSign, Nat.shiftRight_eq_div_pow]
  have hlt : bits.toNat < 2 ^ 64 := bits.isLt
  have hnegative : unpackSign bits = 0#1 ↔ ¬pow2 63 ≤ bits.toNat := by
    rw [← BitVec.toNat_inj, hbit, pow2_eq, BitVec.toNat_zero]
    omega
  simp only [Sign.ofBitVec, signOf, hnegative, ite_not, decide_eq_true_eq]

end

/-- A magnitude with a sign is what was unpacked. -/
def Magnitude.IsUnpacked (negative : Bool) : Magnitude → UnpackedFloat → Prop
  | nan, u => u = .notANumber
  | infinite, u => u = .infinity (signOf negative)
  | zero, u => u = .zero (signOf negative)
  | finite b, u => ∃ hpos, u = .finite (signOf negative) b.significand b.exponent hpos

theorem Magnitude.isUnpacked (v : Float) :
    (ofFloat v).2.IsUnpacked (ofFloat v).1 v.toModel.unpack := by
  have hbits : v.toBits.toNat = v.toModel.toBits.toBitVec.toNat := rfl
  have hunpack : v.toModel.unpack = unpack .binary64 v.toModel.toBits.toBitVec := rfl
  rw [hunpack]
  simp only [ofFloat, hbits]
  generalize v.toModel.toBits.toBitVec = bits
  have hfraction := toNat_unpackMantissa bits
  have hfield := toNat_unpackExponent bits
  have hsign := ofBitVec_unpackSign bits
  unfold unpack
  extract_lets fraction field exponent signBit sign
  have hexponent : exponent = (field.toNat : Int) - 1075 := rfl
  have hmax : field = -1#_ ↔ field.toNat = 2047 := BitVec.toNat_inj.symm
  have hmin : field = 0#_ ↔ field.toNat = 0 := BitVec.toNat_inj.symm
  have hzero : fraction = 0#_ ↔ fraction.toNat = 0 := BitVec.toNat_inj.symm
  change fraction.toNat = _ at hfraction
  change field.toNat = _ at hfield
  change sign = _ at hsign
  rw [← hfraction, ← hfield, hsign]
  generalize decide (pow2 63 ≤ bits.toNat) = negative
  simp only [hmax, hmin, hzero]
  split
  · split <;> rfl
  split
  · next hleast =>
    split
    · rfl
    · next hpos =>
      rw [show exponent + 1 = -1074 by omega]
      exact ⟨Nat.pos_of_ne_zero hpos, rfl⟩
  · have hsignificand : (1#1 ++ fraction).toNat = pow2 52 + fraction.toNat :=
      Kinds.toNat_leading_append fraction
    exact ⟨Nat.add_pos_left (Nat.two_pow_pos 52) _, by simp only [hsignificand, hexponent]⟩

/-- A float that is finite is a zero, or it has a value. -/
theorem magnitude_of_isFinite (hv : v.isFinite = true) :
    (∃ negative, Magnitude.ofFloat v = (negative, .zero)) ∨
      ∃ negative b, Magnitude.ofFloat v = (negative, .finite b) := by
  have hunpacked := Magnitude.isUnpacked v
  change v.toModel.unpack.isFinite = true at hv
  rcases h : Magnitude.ofFloat v with ⟨negative, magnitude⟩
  rw [h] at hunpacked
  cases magnitude with
  | nan | infinite =>
      rw [show v.toModel.unpack = _ from hunpacked] at hv
      cases hv
  | zero => exact .inl ⟨negative, rfl⟩
  | finite b => exact .inr ⟨negative, b, rfl⟩

theorem unpack_of_zero (h : Magnitude.ofFloat v = (negative, .zero)) :
    v.toModel.unpack = .zero (signOf negative) := by
  have hunpacked := Magnitude.isUnpacked v
  rwa [h] at hunpacked

theorem unpack_of_finite (h : Magnitude.ofFloat v = (negative, .finite b)) :
    ∃ hpos, v.toModel.unpack = .finite (signOf negative) b.significand b.exponent hpos := by
  have hunpacked := Magnitude.isUnpacked v
  rwa [h] at hunpacked

/-! ### The order of values -/

theorem Binary.Normalized.value_lt (hb : b.Normalized) (hc : c.Normalized) (h : b.exponent < c.exponent) :
    b.value < c.value := by
  have hlt : (b.significand : ℚ) < 2 ^ 53 := by exact_mod_cast hb.lt
  have hleading : (2 : ℚ) ^ 52 ≤ c.significand := by
    have hge := hb.ge
    exact_mod_cast hc.leading.resolve_right (by omega)
  calc b.value < 2 ^ 53 * 2 ^ b.exponent := mul_lt_mul_of_pos_right hlt (two_zpow_pos _)
    _ = 2 ^ 52 * 2 ^ (b.exponent + 1) := by
        rw [zpow_add₀ two_ne_zero]
        ring
    _ ≤ 2 ^ 52 * 2 ^ c.exponent :=
        mul_le_mul_of_nonneg_left (zpow_le_zpow_right₀ one_le_two h) (by norm_num)
    _ ≤ c.value := mul_le_mul_of_nonneg_right hleading (two_zpow_pos _).le

theorem Binary.Normalized.value_le_iff (hb : b.Normalized) (hc : c.Normalized) :
    b.value ≤ c.value ↔
      b.exponent < c.exponent ∨ b.exponent = c.exponent ∧ b.significand ≤ c.significand := by
  rcases lt_trichotomy b.exponent c.exponent with hlt | heq | hgt
  · exact iff_of_true (hb.value_lt hc hlt).le (.inl hlt)
  · rw [Binary.value, Binary.value, heq, mul_le_mul_iff_left₀ (two_zpow_pos _), Nat.cast_le]
    simp
  · exact iff_of_false (hc.value_lt hb hgt).not_ge (by omega)

/-! ### The order of floats -/

section

variable {m m' : Nat} {e e' : Int} {hm : 0 < m} {hm' : 0 < m'}

theorem finite_le_iff : (UnpackedFloat.finite .positive m e hm).le (.finite .positive m' e' hm') = true ↔
    e < e' ∨ e = e' ∧ m ≤ m' := by
  simp [UnpackedFloat.le, UnpackedFloat.compare, Ordering.isLE_then_iff_or, Nat.isLE_compare,
    Int.compare_eq_lt]

theorem finite_lt_iff : (UnpackedFloat.finite .positive m e hm).lt (.finite .positive m' e' hm') = true ↔
    e < e' ∨ e = e' ∧ m < m' := by
  simp [UnpackedFloat.lt, UnpackedFloat.compare, Ordering.then_eq_lt, Nat.compare_eq_lt,
    Int.compare_eq_lt]

end

section

variable {negative' : Bool} (hv : Magnitude.ofFloat v = (negative, .finite b))
  (hw : Magnitude.ofFloat w = (negative', .finite c))
include hv hw

/-- Absolute values are ordered like the values. -/
theorem abs_le_abs_iff : v.abs ≤ w.abs ↔ b.value ≤ c.value := by
  obtain ⟨hpos, hunpack⟩ := unpack_of_finite hv
  obtain ⟨hpos', hunpack'⟩ := unpack_of_finite hw
  rw [(normalized_of_finite hv).value_le_iff (normalized_of_finite hw),
    ← decide_eq_true_iff (p := v.abs ≤ w.abs), Kinds.decide_le, Binary64.unpack_abs, Binary64.unpack_abs,
    hunpack, hunpack']
  exact finite_le_iff

theorem abs_lt_abs_iff : v.abs < w.abs ↔ b.value < c.value := by
  obtain ⟨hpos, hunpack⟩ := unpack_of_finite hv
  obtain ⟨hpos', hunpack'⟩ := unpack_of_finite hw
  rw [← not_le, (normalized_of_finite hw).value_le_iff (normalized_of_finite hv),
    ← decide_eq_true_iff (p := v.abs < w.abs), Kinds.decide_lt, Binary64.unpack_abs, Binary64.unpack_abs,
    hunpack, hunpack']
  refine finite_lt_iff.trans ?_
  omega

end

/-! ### Negation -/

/-- A finite float is equal to every float that is unpacked alike. -/
theorem beq_of_unpack_eq (hv : v.isFinite = true) (h : w.toModel.unpack = v.toModel.unpack) :
    (w == v) = true := by
  have hself : (v == v) = true := by
    rw [Float.beq_self_iff]
    rintro rfl
    exact absurd hv (by decide +kernel)
  change w.toModel.unpack.beq v.toModel.unpack = true
  rw [h]
  exact hself

theorem neg_neg_beq (hv : v.isFinite = true) : (- -v == v) = true := by
  refine beq_of_unpack_eq hv ?_
  rw [Binary64.unpack_neg, Binary64.unpack_neg]
  cases hu : v.toModel.unpack with
  | notANumber => rfl
  | infinity s | zero s | finite s => cases s <;> rfl

/-- The significand and the exponent say what a float is. -/
theorem Binary.Normalized.ext (hb : b.Normalized) (hc : c.Normalized)
    (hsignificand : b.significand = c.significand) (hexponent : b.exponent = c.exponent) : b = c := by
  have hstep : b.isPowerStep = c.isPowerStep := by
    rw [Bool.eq_iff_iff, hb.step, hc.step, hsignificand, hexponent]
  obtain ⟨m, e, step⟩ := b
  obtain ⟨m', e', step'⟩ := c
  cases hsignificand
  cases hexponent
  cases hstep
  rfl

/-- The negated float has the other sign. -/
theorem ofFloat_neg (h : Magnitude.ofFloat v = (negative, .finite b)) :
    Magnitude.ofFloat (-v) = (!negative, .finite b) := by
  obtain ⟨hpos, hunpack⟩ := unpack_of_finite h
  have hneg := Binary64.unpack_neg v
  have hunpacked := Magnitude.isUnpacked (-v)
  rw [hneg, hunpack] at hunpacked
  rcases h' : Magnitude.ofFloat (-v) with ⟨negative', magnitude⟩
  rw [h'] at hunpacked
  cases magnitude with
  | nan | infinite | zero => cases hunpacked
  | finite c =>
      obtain ⟨hpos', hsame⟩ := hunpacked
      obtain ⟨hsign, hsignificand, hexponent⟩ := UnpackedFloat.finite.inj hsame
      rw [(normalized_of_finite h).ext (normalized_of_finite h') hsignificand hexponent]
      cases negative <;> cases negative' <;> first | rfl | cases hsign

end Decimal

end Formula
