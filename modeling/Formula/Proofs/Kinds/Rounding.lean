/-
Formula/Proofs/Kinds/Rounding.lean

What rounding and packing do to the kind of a number.  A rounded number keeps its sign
(`packed_roundWithAccuracy`).  If its exponent is not below the least one there is,
then it does not become zero either: it is canonical, which is to say that its
significand has no more bits than fit (`canonical_roundWithAccuracy`), and of a
canonical number packing keeps everything but an exponent that is too great
(`packed_finite`).
-/
import Mathlib
import Formula.Proofs.Kinds.Basic

namespace Formula

open Float.Model (Format UnpackedFloat totalExponent)
open Float.Model.UnpackedFloat

namespace Kinds

/-- Whether a sign is negative. -/
def isNegative : Sign → Bool
  | .negative => true
  | .positive => false

/-- The kind of a number that is not packed. -/
def ofUnpacked : UnpackedFloat → Kinds
  | .notANumber => ∅
  | .infinity s => {⟨isNegative s, .infinite⟩}
  | .zero s => {⟨isNegative s, .zero⟩}
  | .finite s _ _ _ => {⟨isNegative s, .ordinary⟩}

/-- The kind of a number after it is packed. -/
def packed (u : UnpackedFloat) : Kinds := ofUnpacked (unpack .binary64 (pack .binary64 u))

/-- The kinds with one sign. -/
def signed (negative : Bool) : Kinds :=
  {⟨negative, .zero⟩, ⟨negative, .ordinary⟩, ⟨negative, .infinite⟩}

/-! ### Packing -/

/-- The leading bit of a significand is not stored. -/
theorem toNat_leading_append {k : Nat} (fraction : BitVec k) :
    (1#1 ++ fraction).toNat = 2 ^ k + fraction.toNat := by
  rw [BitVec.toNat_append, ← Nat.shiftLeft_add_eq_or_of_lt fraction.isLt, Nat.shiftLeft_eq]
  simp

/-- The kind of a number that is packed from its three fields. -/
theorem ofUnpacked_packComponents (s : Sign) (field : BitVec 11) (fraction : BitVec 52) :
    ofUnpacked (unpack .binary64 (packComponents .binary64 s field fraction))
      = if field = -1#11 then if fraction = 0#52 then {⟨isNegative s, .infinite⟩} else ∅
        else if field = 0#11 ∧ fraction = 0#52 then {⟨isNegative s, .zero⟩}
        else {⟨isNegative s, .ordinary⟩} := by
  unfold unpack
  simp only [unpackMantissa_packComponents, unpackExponent_packComponents, unpackSign_packComponents,
    Sign.ofBitVec_toBitVec]
  split_ifs <;> simp_all [ofUnpacked]

@[simp] theorem packed_notANumber : packed .notANumber = ∅ := rfl

@[simp] theorem packed_infinity (s : Sign) : packed (.infinity s) = {⟨isNegative s, .infinite⟩} := by
  cases s <;> rfl

@[simp] theorem packed_zero (s : Sign) : packed (.zero s) = {⟨isNegative s, .zero⟩} := by
  cases s <;> rfl

/-- A significand of at most 53 bits, and an exponent that is not too small. -/
def Canonical : UnpackedFloat → Prop
  | .finite _ m e _ => m < 2 ^ 53 ∧ -1074 ≤ e
  | _ => True

theorem pack_finite (s : Sign) (m : Nat) (e : Int) (hm : 0 < m) :
    pack .binary64 (.finite s m e hm)
      = if 972 ≤ e then packedInfinity .binary64 s
        else if m.log2 = 52 then
          packComponents .binary64 s (BitVec.ofNat 11 (e + 1075).toNat) (BitVec.ofNat 52 m)
        else packComponents .binary64 s 0#11 (BitVec.ofNat 52 m) := by
  have hbiased : e + (Format.binary64.exponentBias : Int) + ((52 : Nat) : Int) = e + 1075 := by
    have hbias : Format.binary64.exponentBias = 1023 := rfl
    omega
  have hbits : Format.binary64.mantissaBits = 53 := rfl
  simp only [pack, hbiased, hbits]
  grind

/-- A number keeps its sign. -/
theorem packed_finite_subset (s : Sign) (m : Nat) (e : Int) (hm : 0 < m) :
    packed (.finite s m e hm) ⊆ signed (isNegative s) := by
  rw [packed, pack_finite]
  split_ifs with hmax hnormal
  · exact (packed_infinity s).trans_subset (by simp [signed])
  · have hfield : BitVec.ofNat 11 (e + 1075).toNat ≠ -1#11 := fun h => by
      have h' := congrArg BitVec.toNat h
      simp only [BitVec.toNat_ofNat, BitVec.reduceNeg] at h'
      omega
    rw [ofUnpacked_packComponents, if_neg hfield]
    split_ifs <;> simp [signed]
  · rw [ofUnpacked_packComponents, if_neg (by decide)]
    split_ifs <;> simp [signed]

/-- Packing a canonical number makes it infinite if the exponent is too great. -/
theorem packed_finite {s : Sign} {m : Nat} {e : Int} {hm : 0 < m} (h : Canonical (.finite s m e hm)) :
    packed (.finite s m e hm) = {⟨isNegative s, if e ≤ 971 then .ordinary else .infinite⟩} := by
  obtain ⟨hbits, hexp⟩ := h
  rw [packed, pack_finite]
  -- an overflow, a normal number or one below, each against the bound on the exponent
  split_ifs with hmax hle hnormal hle hle
  · omega
  · exact packed_infinity s
  · have hfield : (BitVec.ofNat 11 (e + 1075).toNat).toNat = (e + 1075).toNat := by
      rw [BitVec.toNat_ofNat]
      omega
    rw [ofUnpacked_packComponents, if_neg, if_neg]
    · rintro ⟨h, -⟩
      rw [h] at hfield
      simp only [BitVec.toNat_ofNat, Nat.zero_mod] at hfield
      omega
    · intro h
      rw [h] at hfield
      simp only [BitVec.reduceNeg, BitVec.reduceToNat] at hfield
      omega
  · omega
  · have hlow : m < 2 ^ 52 := by
      have hlog := (Nat.log2_lt hm.ne').mpr hbits
      exact (Nat.log2_lt hm.ne').mp (by omega)
    rw [ofUnpacked_packComponents, if_neg (by decide), if_neg]
    rintro ⟨-, h⟩
    have h' := congrArg BitVec.toNat h
    simp only [BitVec.toNat_ofNat] at h'
    omega
  · omega

/-! ### Rounding -/

theorem mantissa_shiftRight (em : ExtendedMantissa) (n : Nat) :
    (em >>> n).mantissa = em.mantissa / 2 ^ n := by
  change (n.repeat ExtendedMantissa.shiftRightOne em).mantissa = _
  induction n with
  | zero => exact (Nat.div_one _).symm
  | succ n ih => rw [Nat.repeat, ExtendedMantissa.shiftRightOne, ih, Nat.div_div_eq_div_mul, Nat.pow_succ]

theorem mantissa_ofMantissaAndAccuracy (m : Nat) (accuracy : Accuracy) :
    (ExtendedMantissa.ofMantissaAndAccuracy m accuracy).mantissa = m := by
  rcases accuracy with - | (_ | _ | _) <;> rfl

theorem le_roundedMantissa (em : ExtendedMantissa) : em.mantissa ≤ em.roundedMantissa := by
  have hround : ∀ (m : Nat) (a : Accuracy), m ≤ a.roundToNearestEven m := by
    rintro m (- | (_ | _ | _)) <;> simp only [Accuracy.roundToNearestEven] <;> omega
  exact hround _ _

/-- The exponent that a number is rounded to. -/
theorem targetExponent_eq (m : Nat) (e : Int) :
    Format.binary64.targetExponent (totalExponent m e) = max (m.log2 + e - 52) (-1074) := by
  have hmin : Format.binary64.minExponent = -1074 := rfl
  have hbits : Format.binary64.mantissaBits = 53 := rfl
  simp only [Format.targetExponent, totalExponent, hmin, hbits]
  omega

/-- Rounding keeps the sign. -/
theorem packed_roundWithAccuracy (s : Sign) (m : Nat) (e : Int) (accuracy : Accuracy) :
    packed (roundWithAccuracy .binary64 s m e accuracy) ⊆ signed (isNegative s) := by
  simp only [roundWithAccuracy]
  split
  · exact (packed_zero s).trans_subset (by simp [signed])
  · exact packed_finite_subset ..

/-- Where the exponent is not too small, no more bits are kept than fit, and they are
not all zero. -/
theorem shiftToTargetExponent_bounds {m : Nat} {e : Int} (accuracy : Accuracy) (hm : 0 < m)
    (hmin : -1074 ≤ e) :
    0 < (shiftToTargetExponent .binary64 m e accuracy).1.mantissa ∧
      (shiftToTargetExponent .binary64 m e accuracy).1.mantissa < 2 ^ 53 ∧
      -1074 ≤ (shiftToTargetExponent .binary64 m e accuracy).2 := by
  simp only [shiftToTargetExponent, shiftToExponent, targetExponent_eq, mantissa_shiftRight,
    mantissa_ofMantissaAndAccuracy]
  generalize hk : (max ((m.log2 : Int) + e - 52) (-1074) - e).toNat = k
  have hlow : 2 ^ m.log2 ≤ m := (Nat.le_log2 hm.ne').mp le_rfl
  have hhigh : m < 2 ^ (m.log2 + 1) := (Nat.log2_lt hm.ne').mp (Nat.lt_succ_self _)
  have hge : k ≤ m.log2 := by omega
  have hle : m.log2 + 1 ≤ 53 + k := by omega
  refine ⟨?_, ?_, by omega⟩
  · exact Nat.div_pos ((Nat.pow_le_pow_right Nat.two_pos hge).trans hlow) (Nat.two_pow_pos _)
  · rw [Nat.div_lt_iff_lt_mul (Nat.two_pow_pos _), ← Nat.pow_add]
    exact hhigh.trans_le (Nat.pow_le_pow_right Nat.two_pos hle)

/-- Rounding gives a canonical number that is not zero, unless the exponent is too
small. -/
theorem canonical_roundWithAccuracy (s : Sign) {m : Nat} {e : Int} (accuracy : Accuracy) (hm : 0 < m)
    (hmin : -1074 ≤ e) :
    ∃ m' e' hm', roundWithAccuracy .binary64 s m e accuracy = .finite s m' e' hm' ∧
      Canonical (.finite s m' e' hm') := by
  obtain ⟨hpos, -, hexp⟩ := shiftToTargetExponent_bounds accuracy hm hmin
  have hrounded := le_roundedMantissa (shiftToTargetExponent .binary64 m e accuracy).1
  obtain ⟨hpos', hlt, hexp'⟩ := shiftToTargetExponent_bounds .exact (hpos.trans_le hrounded) hexp
  refine ⟨_, _, hpos', ?_, hlt, hexp'⟩
  rw [roundWithAccuracy]
  exact dif_neg hpos'.ne'

/-- A number other than zero keeps its sign and does not become zero. -/
theorem packed_round (s : Sign) {m : Nat} {e : Int} (hm : 0 < m) (hmin : -1074 ≤ e) :
    packed (UnpackedFloat.round .binary64 s m e) ⊆ {⟨isNegative s, .ordinary⟩, ⟨isNegative s, .infinite⟩} := by
  simp only [UnpackedFloat.round, decreaseExponent, targetExponent_eq]
  obtain ⟨m', e', hm', hround, hcanonical⟩ := canonical_roundWithAccuracy s .exact
    (m := m <<< (e - max ((m.log2 : Int) + e - 52) (-1074)).toNat)
    (e := e - (e - max ((m.log2 : Int) + e - 52) (-1074)).toNat)
    (by rw [Nat.shiftLeft_eq]; exact Nat.mul_pos hm (Nat.two_pow_pos _)) (by omega)
  rw [hround, packed_finite hcanonical]
  split_ifs <;> simp

end Kinds

end Formula
