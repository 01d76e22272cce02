/-
Formula/Proofs/Kinds/Magnitude.lean

How great and how small the results of binary64 operations can be.  Powers of two
are binary64 numbers, so that rounding crosses none of them: a number that is at
most a power of two, or at least one, is so after rounding too
(`atMost_roundWithAccuracy`, `atLeast_roundWithAccuracy`).

The *height* of a number is the least `k` for which it is at most `2 ^ k`, apart
from its sign, and its *spread* the least `k` for which it is at least `2 ^ -k`
besides.  Heights are added by a product, and a sum has at most one more than its
operands together; spreads are added by products and quotients.  All this holds of
every binary64 number, with 1024 for those that have no such `k`.
-/
import Formula.Proofs.Kinds.Binary64

namespace Formula

open Float.Model (Format UnpackedFloat totalExponent)
open Float.Model.UnpackedFloat

/-! ### Powers of two -/

/-- A power of two, for exponents that are not negative. -/
def twoTo (a : Int) : Nat := 2 ^ a.toNat

section

variable {a b : Int}

theorem twoTo_pos (a : Int) : 0 < twoTo a := Nat.two_pow_pos _

theorem twoTo_mono (h : a ≤ b) : twoTo a ≤ twoTo b :=
  Nat.pow_le_pow_right Nat.two_pos (Int.toNat_le_toNat h)

theorem twoTo_add (ha : 0 ≤ a) (hb : 0 ≤ b) : twoTo (a + b) = twoTo a * twoTo b := by
  rw [twoTo, twoTo, twoTo, ← Nat.pow_add, Int.toNat_add ha hb]

theorem twoTo_add_le (a b : Int) : twoTo (a + b) ≤ twoTo a * twoTo b := by
  rw [twoTo, twoTo, twoTo, ← Nat.pow_add]
  exact Nat.pow_le_pow_right Nat.two_pos (by omega)

theorem log2_le_of_le_twoTo {m : Nat} (ha : 0 ≤ a) (h : m ≤ twoTo a) : (m.log2 : Int) ≤ a := by
  have hle : m.log2 ≤ a.toNat := by
    rw [Nat.log2_eq_log_two]
    exact (Nat.log_mono_right h).trans_eq (Nat.log_pow Nat.one_lt_two _)
  omega

theorem le_log2_of_twoTo_le {m : Nat} (h : twoTo a ≤ m) : a ≤ m.log2 := by
  have hle : a.toNat ≤ m.log2 := (Nat.le_log2 ((twoTo_pos a).trans_le h).ne').mpr h
  omega

theorem twoTo_of_nonpos (ha : a ≤ 0) : twoTo a = 1 := by
  rw [twoTo, Int.toNat_of_nonpos ha, Nat.pow_zero]

end

namespace Binary64

/-! ### Bounds -/

/-- The number is at most a power of two, apart from its sign. -/
def AtMost (k : Int) : UnpackedFloat → Prop
  | .zero _ => True
  | .finite _ m e _ => e ≤ k ∧ m ≤ twoTo (k - e)
  | _ => False

/-- The number is at least a power of two, apart from its sign. -/
def AtLeast (k : Int) : UnpackedFloat → Prop
  | .finite _ m e _ => twoTo (k - e) ≤ m
  | _ => False

variable {a b : UnpackedFloat} {i j k : Int}

theorem AtMost.cases (h : AtMost k a) :
    (∃ s, a = .zero s) ∨ ∃ s m e hm, a = .finite s m e hm ∧ e ≤ k ∧ m ≤ twoTo (k - e) := by
  cases a with
  | zero s => exact .inl ⟨s, rfl⟩
  | finite s m e hm => exact .inr ⟨s, m, e, hm, rfl, h⟩
  | notANumber | infinity => cases h

theorem AtLeast.exists_finite (h : AtLeast k a) :
    ∃ s m e hm, a = .finite s m e hm ∧ twoTo (k - e) ≤ m := by
  cases a with
  | finite s m e hm => exact ⟨s, m, e, hm, rfl, h⟩
  | zero | notANumber | infinity => cases h

theorem AtMost.mono (h : AtMost i a) (hij : i ≤ j) : AtMost j a := by
  obtain ⟨s, rfl⟩ | ⟨s, m, e, hm, rfl, he, hle⟩ := h.cases
  · trivial
  · exact ⟨he.trans hij, hle.trans (twoTo_mono (by omega))⟩

theorem AtLeast.mono (h : AtLeast i a) (hji : j ≤ i) : AtLeast j a := by
  obtain ⟨s, m, e, hm, rfl, hle⟩ := h.exists_finite
  exact (twoTo_mono (by omega)).trans hle

/-! ### Rounding up -/

/-- The least significand that is not below a number. -/
def ceiling (em : ExtendedMantissa) : Nat :=
  if em.roundBit || em.stickyBit then em.mantissa + 1 else em.mantissa

theorem mantissa_le_ceiling (em : ExtendedMantissa) : em.mantissa ≤ ceiling em := by
  unfold ceiling
  split <;> omega

theorem roundedMantissa_le_ceiling (em : ExtendedMantissa) : em.roundedMantissa ≤ ceiling em := by
  obtain ⟨m, r, s⟩ := em
  cases r <;> cases s <;>
    simp [ceiling, ExtendedMantissa.roundedMantissa, ExtendedMantissa.accuracy,
      Accuracy.roundToNearestEven]
  omega

theorem ceiling_shiftRightOne {em : ExtendedMantissa} {n : Nat} (h : ceiling em ≤ 2 * n) :
    ceiling em.shiftRightOne ≤ n := by
  obtain ⟨m, r, s⟩ := em
  cases r <;> cases s <;> simp [ceiling, ExtendedMantissa.shiftRightOne] at h ⊢
  · split <;> omega
  all_goals omega

/-- A number that is not above a multiple of what it is divided by is not above the
quotient. -/
theorem ceiling_shiftRight {em : ExtendedMantissa} {j n : Nat} (h : ceiling em ≤ 2 ^ j * n) :
    ceiling (em >>> j) ≤ n := by
  change ceiling (j.repeat ExtendedMantissa.shiftRightOne em) ≤ n
  induction j generalizing n with
  | zero => exact h.trans (Nat.one_mul n).le
  | succ j ih =>
      rw [Nat.repeat]
      refine ceiling_shiftRightOne (ih ?_)
      rw [Nat.pow_succ, Nat.mul_assoc] at h
      exact h

theorem ceiling_exact (m : Nat) : ceiling (.ofMantissaAndAccuracy m .exact) = m := rfl

/-- The shift to the exponent that a number is rounded to. -/
theorem shiftToTargetExponent_eq (m : Nat) (e : Int) (accuracy : Accuracy) :
    shiftToTargetExponent .binary64 m e accuracy =
      (ExtendedMantissa.ofMantissaAndAccuracy m accuracy >>>
          (max ((m.log2 : Int) + e - 52) (-1074) - e).toNat,
        e + (max ((m.log2 : Int) + e - 52) (-1074) - e).toNat) := by
  simp only [shiftToTargetExponent, shiftToExponent, Kinds.targetExponent_eq]

/-- A shift to the target does not cross a power of two from below. -/
theorem shiftToTargetExponent_le {m : Nat} {e k : Int} (accuracy : Accuracy) (hk : -1074 ≤ k)
    (he : e ≤ k) (h : ceiling (.ofMantissaAndAccuracy m accuracy) ≤ twoTo (k - e)) :
    (shiftToTargetExponent .binary64 m e accuracy).2 ≤ k ∧
      ceiling (shiftToTargetExponent .binary64 m e accuracy).1
        ≤ twoTo (k - (shiftToTargetExponent .binary64 m e accuracy).2) := by
  have hm : m ≤ twoTo (k - e) := by
    refine le_trans ?_ h
    have hmantissa := mantissa_le_ceiling (.ofMantissaAndAccuracy m accuracy)
    rwa [Kinds.mantissa_ofMantissaAndAccuracy] at hmantissa
  have hlog := log2_le_of_le_twoTo (by omega) hm
  rw [shiftToTargetExponent_eq]
  generalize hj : (max ((m.log2 : Int) + e - 52) (-1074) - e).toNat = j
  have hjk : (j : Int) ≤ k - e := by omega
  refine ⟨by simp only; omega, ceiling_shiftRight ?_⟩
  rw [show 2 ^ j = twoTo (j : Int) from rfl, ← twoTo_add (by omega) (by omega)]
  exact h.trans (twoTo_mono (by omega))

/-- Rounding does not cross a power of two from below. -/
theorem atMost_roundWithAccuracy {s : Sign} {m : Nat} {e k : Int} {accuracy : Accuracy}
    (hk : -1074 ≤ k) (he : e ≤ k) (h : ceiling (.ofMantissaAndAccuracy m accuracy) ≤ twoTo (k - e)) :
    AtMost k (roundWithAccuracy .binary64 s m e accuracy) := by
  obtain ⟨hexp, hceiling⟩ := shiftToTargetExponent_le _ hk he h
  have hrounded := (roundedMantissa_le_ceiling _).trans hceiling
  obtain ⟨hexp', hceiling'⟩ := shiftToTargetExponent_le .exact hk hexp hrounded
  simp only [roundWithAccuracy]
  split
  · trivial
  · exact ⟨hexp', (mantissa_le_ceiling _).trans hceiling'⟩

/-! ### Rounding down -/

/-- A shift to the target does not cross a power of two from above. -/
theorem le_shiftToTargetExponent {m : Nat} {e k : Int} (accuracy : Accuracy) (hk : -1074 ≤ k)
    (h : twoTo (k - e) ≤ m) :
    twoTo (k - (shiftToTargetExponent .binary64 m e accuracy).2)
      ≤ (shiftToTargetExponent .binary64 m e accuracy).1.mantissa := by
  have hm : 0 < m := (twoTo_pos _).trans_le h
  have hlow : 2 ^ m.log2 ≤ m := (Nat.le_log2 hm.ne').mp le_rfl
  rw [shiftToTargetExponent_eq]
  simp only [Kinds.mantissa_shiftRight, Kinds.mantissa_ofMantissaAndAccuracy]
  generalize hj : (max ((m.log2 : Int) + e - 52) (-1074) - e).toNat = j
  rw [Nat.le_div_iff_mul_le (Nat.two_pow_pos j)]
  by_cases hjk : (j : Int) ≤ k - e
  · rw [show 2 ^ j = twoTo (j : Int) from rfl, ← twoTo_add (by omega) (by omega)]
    exact (twoTo_mono (by omega)).trans h
  · -- so much is shifted out only if there are more bits than fit
    rw [twoTo_of_nonpos (by omega), Nat.one_mul]
    exact (Nat.pow_le_pow_right Nat.two_pos (by omega)).trans hlow

/-- Rounding does not cross a power of two from above. -/
theorem atLeast_roundWithAccuracy {s : Sign} {m : Nat} {e k : Int} {accuracy : Accuracy}
    (hk : -1074 ≤ k) (h : twoTo (k - e) ≤ m) :
    AtLeast k (roundWithAccuracy .binary64 s m e accuracy) := by
  have hrounded := (le_shiftToTargetExponent accuracy hk h).trans
    (Kinds.le_roundedMantissa _)
  have hfinal := le_shiftToTargetExponent .exact hk hrounded
  simp only [roundWithAccuracy]
  split
  · next hzero => exact absurd hzero ((twoTo_pos _).trans_le hfinal).ne'
  · exact hfinal

/-! ### Packing -/

/-- The significand has 53 bits, or fewer with the least exponent. -/
def Normal : UnpackedFloat → Prop
  | .finite _ m e _ => m < 2 ^ 53 ∧ (2 ^ 52 ≤ m ∨ e = -1074) ∧ -1074 ≤ e
  | _ => True

/-- A shift to the target leaves 53 bits, if there are that many or the exponent is
low. -/
theorem normal_shiftToTargetExponent {m : Nat} {e : Int} (accuracy : Accuracy)
    (h : 52 ≤ m.log2 ∨ e ≤ -1074) :
    (shiftToTargetExponent .binary64 m e accuracy).1.mantissa < 2 ^ 53 ∧
      (2 ^ 52 ≤ (shiftToTargetExponent .binary64 m e accuracy).1.mantissa ∨
        (shiftToTargetExponent .binary64 m e accuracy).2 = -1074) ∧
      -1074 ≤ (shiftToTargetExponent .binary64 m e accuracy).2 := by
  rw [shiftToTargetExponent_eq]
  simp only [Kinds.mantissa_shiftRight, Kinds.mantissa_ofMantissaAndAccuracy]
  generalize hj : (max ((m.log2 : Int) + e - 52) (-1074) - e).toNat = j
  refine ⟨?_, ?_, by omega⟩
  · rw [Nat.div_lt_iff_lt_mul (Nat.two_pow_pos j), ← Nat.pow_add]
    exact Nat.lt_log2_self.trans_le (Nat.pow_le_pow_right Nat.two_pos (by omega))
  · by_cases hlow : (m.log2 : Int) + e - 52 ≤ -1074
    · right
      omega
    · left
      have hm : m ≠ 0 := by
        rintro rfl
        simp only [Nat.log2_zero] at h hlow
        omega
      rw [Nat.le_div_iff_mul_le (Nat.two_pow_pos j), ← Nat.pow_add]
      exact (Nat.pow_le_pow_right Nat.two_pos (by omega)).trans ((Nat.le_log2 hm).mp le_rfl)

theorem normal_roundWithAccuracy {s : Sign} {m : Nat} {e : Int} {accuracy : Accuracy}
    (h : 52 ≤ m.log2 ∨ e ≤ -1074) : Normal (roundWithAccuracy .binary64 s m e accuracy) := by
  obtain ⟨-, hbits, hmin⟩ := normal_shiftToTargetExponent accuracy h
  have hrounded := Kinds.le_roundedMantissa (shiftToTargetExponent .binary64 m e accuracy).1
  have hnormal := normal_shiftToTargetExponent .exact
    (m := (shiftToTargetExponent .binary64 m e accuracy).1.roundedMantissa)
    (e := (shiftToTargetExponent .binary64 m e accuracy).2) ?_
  · simp only [roundWithAccuracy]
    split
    · trivial
    · exact hnormal
  · rcases hbits with hbits | hbits
    · left
      exact (Nat.le_log2 (by omega)).mpr (hbits.trans hrounded)
    · right
      exact hbits.le

/-- A number of 53 bits is stored without the first one. -/
theorem unpack_packComponents_normal (s : Sign) {m : Nat} {e : Int} (hm : 0 < m) (hlog : m.log2 = 52)
    (hmin : -1074 ≤ e) (hmax : e ≤ 971) :
    unpack .binary64
        (packComponents .binary64 s (BitVec.ofNat 11 (e + 1075).toNat) (BitVec.ofNat 52 m)) =
      .finite s m e hm := by
  obtain ⟨hlow, hhigh⟩ := (Nat.log2_eq_iff hm.ne').mp hlog
  have hfield : (BitVec.ofNat 11 (e + 1075).toNat).toNat = (e + 1075).toNat := by
    rw [BitVec.toNat_ofNat]
    omega
  have hneOnes : BitVec.ofNat 11 (e + 1075).toNat ≠ -1#11 := by
    intro h
    rw [h] at hfield
    simp only [BitVec.reduceNeg, BitVec.reduceToNat] at hfield
    omega
  have hneZero : BitVec.ofNat 11 (e + 1075).toNat ≠ 0#11 := by
    intro h
    rw [h] at hfield
    simp only [BitVec.toNat_zero] at hfield
    omega
  have hsignificand : (1#1 ++ BitVec.ofNat 52 m).toNat = m := by
    rw [Kinds.toNat_leading_append, BitVec.toNat_ofNat]
    omega
  unfold unpack
  simp only [unpackMantissa_packComponents, unpackExponent_packComponents, unpackSign_packComponents,
    Sign.ofBitVec_toBitVec]
  rw [if_neg hneOnes, if_neg hneZero]
  congr 1
  rw [hfield, show (Format.binary64.exponentBias : Int) = 1023 from rfl]
  omega

/-- A number of fewer bits is stored with a field of zeros. -/
theorem unpack_packComponents_subnormal (s : Sign) {m : Nat} (hm : 0 < m) (hlt : m < 2 ^ 52) :
    unpack .binary64 (packComponents .binary64 s 0#11 (BitVec.ofNat 52 m)) =
      .finite s m (-1074) hm := by
  have hfraction : (BitVec.ofNat 52 m).toNat = m := by
    rw [BitVec.toNat_ofNat]
    omega
  have hneZero : BitVec.ofNat 52 m ≠ 0#52 := by
    intro h
    rw [h] at hfraction
    simp only [BitVec.toNat_zero] at hfraction
    omega
  unfold unpack
  simp only [unpackMantissa_packComponents, unpackExponent_packComponents, unpackSign_packComponents,
    Sign.ofBitVec_toBitVec]
  rw [if_neg (by decide), if_pos trivial, dif_neg hneZero]
  congr 1

/-- A number that is not too great is packed without a loss. -/
theorem unpack_pack {u : UnpackedFloat} (hu : Normal u)
    (hmax : ∀ s m e hm, u = .finite s m e hm → e ≤ 971) : unpack .binary64 (pack .binary64 u) = u := by
  cases u with
  | notANumber => exact unpack_packedNaN
  | infinity s => cases s <;> rfl
  | zero s => exact unpack_packedZero
  | finite s m e hm =>
      obtain ⟨hbits, hlow, hmin⟩ := hu
      have hmax := hmax s m e hm rfl
      rw [Kinds.pack_finite, if_neg (by omega)]
      split
      · next hlog =>
        exact unpack_packComponents_normal s hm hlog hmin hmax
      · next hlog =>
        have hlt : m < 2 ^ 52 := by
          have hlog' := (Nat.log2_lt hm.ne').mpr hbits
          exact (Nat.log2_lt hm.ne').mp (by omega)
        obtain rfl : e = -1074 := hlow.resolve_left (by omega)
        exact unpack_packComponents_subnormal s hm hlt

theorem unpack_pack_of_atMost (hu : Normal a) (hk : k ≤ 1023) (h : AtMost k a) :
    unpack .binary64 (pack .binary64 a) = a := by
  refine unpack_pack hu ?_
  rintro s m e hm rfl
  obtain ⟨-, hlow, hmin⟩ := hu
  rcases hlow with hlow | rfl
  · have hpow : 2 ^ 52 ≤ 2 ^ (k - e).toNat := hlow.trans h.2
    have hexp := (Nat.pow_le_pow_iff_right Nat.one_lt_two).mp hpow
    omega
  · omega

/-- A binary64 number is normal as it is stored. -/
theorem normal_unpack (b : BitVec Format.binary64.numBits) : Normal (unpack .binary64 b) := by
  cases h : unpack .binary64 b with
  | finite => exact Kinds.bounds_of_unpack h
  | _ => trivial

/-! ### Operations -/

/-- Rounding to 53 bits, with zeros appended if there are fewer. -/
theorem atMost_round {s : Sign} {m : Nat} {e : Int} (hm : 0 < m) (hk : -1074 ≤ k) (he : e ≤ k)
    (h : m ≤ twoTo (k - e)) :
    AtMost k (UnpackedFloat.round .binary64 s m e) ∧ Normal (UnpackedFloat.round .binary64 s m e) := by
  simp only [UnpackedFloat.round, decreaseExponent, Kinds.targetExponent_eq]
  generalize hj : (e - max ((m.log2 : Int) + e - 52) (-1074)).toNat = j
  have hlog : m.log2 + j ≤ (m <<< j).log2 := by
    rw [Nat.shiftLeft_eq, Nat.le_log2 (Nat.mul_pos hm (Nat.two_pow_pos j)).ne', Nat.pow_add]
    exact Nat.mul_le_mul_right _ ((Nat.le_log2 hm.ne').mp le_rfl)
  refine ⟨atMost_roundWithAccuracy hk (by omega) ?_, normal_roundWithAccuracy (by omega)⟩
  rw [ceiling_exact, Nat.shiftLeft_eq, show k - (e - (j : Int)) = k - e + j by omega,
    twoTo_add (by omega) (by omega)]
  exact Nat.mul_le_mul_right _ h

/-- A sum is at most twice as great as its operands may be. -/
theorem atMost_add (ha : AtMost k a) (hb : AtMost k b) (hna : Normal a) (hnb : Normal b)
    (hk : -1075 ≤ k) :
    AtMost (k + 1) (UnpackedFloat.add .binary64 a b) ∧ Normal (UnpackedFloat.add .binary64 a b) := by
  obtain ⟨s, rfl⟩ | ⟨s, m, e, hm, rfl, he, hle⟩ := ha.cases <;>
    obtain ⟨s', rfl⟩ | ⟨s', m', e', hm', rfl, he', hle'⟩ := hb.cases
  · cases s <;> cases s' <;> exact ⟨trivial, trivial⟩
  · exact ⟨hb.mono (by omega), hnb⟩
  · exact ⟨ha.mono (by omega), hna⟩
  · simp only [UnpackedFloat.add, decreaseExponent, Nat.shiftLeft_eq]
    -- with the lesser exponent both significands are multiples of the old ones
    have halign : ∀ {n : Nat} {f : Int}, f ≤ k → min e e' ≤ f → n ≤ twoTo (k - f) →
        n * 2 ^ (f - min e e').toNat ≤ twoTo (k - min e e') := by
      intro n f hf hmin hn
      rw [show k - min e e' = k - f + (f - min e e') by omega, twoTo_add (by omega) (by omega)]
      exact Nat.mul_le_mul_right _ hn
    have hm := halign he (by omega) hle
    have hm' := halign he' (by omega) hle'
    generalize m * 2 ^ (e - min e e').toNat = n at hm
    generalize m' * 2 ^ (e' - min e e').toNat = n' at hm'
    have hdouble : twoTo (k + 1 - min e e') = 2 * twoTo (k - min e e') := by
      rw [show k + 1 - min e e' = 1 + (k - min e e') by omega, twoTo_add (by omega) (by omega)]
      rfl
    have habs : (s.apply n + s'.apply n').natAbs ≤ twoTo (k + 1 - min e e') := by
      cases s <;> cases s' <;> simp only [Sign.apply] <;> omega
    unfold UnpackedFloat.normalize
    split
    · next h =>
      have hneg := compare_lt_iff_lt.mp h
      exact atMost_round (by omega) (by omega) (by omega) (by omega)
    · exact ⟨trivial, trivial⟩
    · next h =>
      have hpos := compare_gt_iff_gt.mp h
      exact atMost_round (by omega) (by omega) (by omega) (by omega)

/-- Bounds of factors are multiplied. -/
theorem atMost_mul (ha : AtMost i a) (hb : AtMost j b) (hna : Normal a) (hnb : Normal b)
    (hij : -1074 ≤ i + j) :
    AtMost (i + j) (UnpackedFloat.mul .binary64 a b) ∧ Normal (UnpackedFloat.mul .binary64 a b) := by
  obtain ⟨s, rfl⟩ | ⟨s, m, e, hm, rfl, he, hle⟩ := ha.cases <;>
    obtain ⟨s', rfl⟩ | ⟨s', m', e', hm', rfl, he', hle'⟩ := hb.cases
  · exact ⟨trivial, trivial⟩
  · exact ⟨trivial, trivial⟩
  · exact ⟨trivial, trivial⟩
  · refine ⟨atMost_roundWithAccuracy hij (by omega) ?_, normal_roundWithAccuracy ?_⟩
    · rw [ceiling_exact, show i + j - (e + e') = (i - e) + (j - e') by omega,
        twoTo_add (by omega) (by omega)]
      exact Nat.mul_le_mul hle hle'
    · obtain ⟨-, hlow, hmin⟩ := hna
      obtain ⟨-, hlow', hmin'⟩ := hnb
      by_cases hbits : 2 ^ 52 ≤ m * m'
      · left
        exact (Nat.le_log2 (Nat.mul_pos hm hm').ne').mpr hbits
      · -- two short significands come with two low exponents
        right
        rcases hlow with hlow | hlow
        · exact absurd (hlow.trans (Nat.le_mul_of_pos_right m hm')) hbits
        rcases hlow' with hlow' | hlow'
        · exact absurd (hlow'.trans (Nat.le_mul_of_pos_left m' hm)) hbits
        omega

theorem atLeast_mul (ha : AtLeast i a) (hb : AtLeast j b) (hij : -1074 ≤ i + j) :
    AtLeast (i + j) (UnpackedFloat.mul .binary64 a b) := by
  obtain ⟨s, m, e, hm, rfl, hle⟩ := ha.exists_finite
  obtain ⟨s', m', e', hm', rfl, hle'⟩ := hb.exists_finite
  refine atLeast_roundWithAccuracy hij ?_
  rw [show i + j - (e + e') = (i - e) + (j - e') by omega]
  exact (twoTo_add_le _ _).trans (Nat.mul_le_mul hle hle')

/-- The exponent of a quotient before it is rounded. -/
def quotientExponent (m : Nat) (e : Int) (m' : Nat) (e' : Int) : Int :=
  min (e - e') (max (((m.log2 : Int) + 1 + e) - ((m'.log2 : Int) + 1 + e') - 53) (-1074))

/-- A quotient before it is rounded: as many bits of it as fit. -/
theorem div_eq_roundWithAccuracy (s s' : Sign) {m m' : Nat} {e e' : Int} (hm : 0 < m) (hm' : 0 < m') :
    UnpackedFloat.div .binary64 (.finite s m e hm) (.finite s' m' e' hm') =
      roundWithAccuracy .binary64 (s / s')
        (m * twoTo (e - e' - quotientExponent m e m' e') / m')
        (quotientExponent m e m' e')
        (accuracyOfFraction (m * twoTo (e - e' - quotientExponent m e m' e') % m') m') := by
  simp only [UnpackedFloat.div, divCore, Nat.shiftLeft_eq]
  rfl

/-- A quotient that is at most a number is at most this number if it is rounded
up. -/
theorem ceiling_quotient {m m' n : Nat} (hm' : 0 < m') (h : m ≤ n * m') :
    ceiling (.ofMantissaAndAccuracy (m / m') (accuracyOfFraction (m % m') m')) ≤ n := by
  have hdiv := Nat.div_add_mod m m'
  unfold accuracyOfFraction
  split
  · rw [ceiling_exact]
    exact Nat.div_le_of_le_mul (by rwa [Nat.mul_comm])
  · next hmod =>
    have hlt : m / m' < n := by
      rw [Nat.div_lt_iff_lt_mul hm']
      refine lt_of_le_of_ne h fun heq => hmod ?_
      rw [heq, Nat.mul_mod_left]
    cases compare (2 * (m % m')) m' <;> exact hlt

/-- A quotient has 53 bits before it is rounded, unless its exponent is low. -/
theorem le_dividend {m : Nat} (m' : Nat) (e e' : Int) (hm : 0 < m)
    (h : -1074 < quotientExponent m e m' e') :
    2 ^ 52 * m' ≤ m * twoTo (e - e' - quotientExponent m e m' e') := by
  unfold quotientExponent at h ⊢
  generalize ht : min (e - e') (max (((m.log2 : Int) + 1 + e) - ((m'.log2 : Int) + 1 + e') - 53) (-1074))
    = t at h
  have hlow : 2 ^ m.log2 ≤ m := (Nat.le_log2 hm.ne').mp le_rfl
  calc 2 ^ 52 * m' ≤ 2 ^ 52 * 2 ^ (m'.log2 + 1) := Nat.mul_le_mul_left _ Nat.lt_log2_self.le
    _ = 2 ^ (m'.log2 + 53) := by rw [← Nat.pow_add]; congr 1; omega
    _ ≤ 2 ^ (m.log2 + (e - e' - t).toNat) := Nat.pow_le_pow_right Nat.two_pos (by omega)
    _ = 2 ^ m.log2 * twoTo (e - e' - t) := Nat.pow_add ..
    _ ≤ m * twoTo (e - e' - t) := Nat.mul_le_mul_right _ hlow

theorem normal_div {s s' : Sign} {m m' : Nat} {e e' : Int} (hm : 0 < m) (hm' : 0 < m') :
    Normal (UnpackedFloat.div .binary64 (.finite s m e hm) (.finite s' m' e' hm')) := by
  rw [div_eq_roundWithAccuracy]
  refine normal_roundWithAccuracy ?_
  by_cases h : quotientExponent m e m' e' ≤ -1074
  · right
    exact h
  · left
    have hle := le_dividend m' e e' hm (not_le.mp h)
    have hbits := (Nat.le_div_iff_mul_le hm').mpr hle
    exact (Nat.le_log2 ((Nat.two_pow_pos 52).trans_le hbits).ne').mpr hbits

/-- A lower bound of the divisor is divided by. -/
theorem atMost_div (ha : AtMost i a) (hb : AtLeast (-j) b) (hij : -1074 ≤ i + j) :
    AtMost (i + j) (UnpackedFloat.div .binary64 a b) ∧ Normal (UnpackedFloat.div .binary64 a b) := by
  obtain ⟨s', m', e', hm', rfl, hle'⟩ := hb.exists_finite
  obtain ⟨s, rfl⟩ | ⟨s, m, e, hm, rfl, he, hle⟩ := ha.cases
  · exact ⟨trivial, trivial⟩
  refine ⟨?_, normal_div hm hm'⟩
  rw [div_eq_roundWithAccuracy]
  have hlog := log2_le_of_le_twoTo (by omega) hle
  have hlog' := le_log2_of_twoTo_le hle'
  have ht : quotientExponent m e m' e' ≤ e - e' ∧ quotientExponent m e m' e' ≤ i + j := by
    unfold quotientExponent
    omega
  generalize quotientExponent m e m' e' = t at ht
  refine atMost_roundWithAccuracy hij ht.2 (ceiling_quotient hm' ?_)
  calc m * twoTo (e - e' - t)
      ≤ twoTo (i - e) * twoTo (e - e' - t) := Nat.mul_le_mul_right _ hle
    _ = twoTo ((i + j - t) + (-j - e')) := by
        rw [← twoTo_add (by omega) (by omega)]
        congr 1
        omega
    _ ≤ twoTo (i + j - t) * twoTo (-j - e') := twoTo_add_le _ _
    _ ≤ twoTo (i + j - t) * m' := Nat.mul_le_mul_left _ hle'

/-- An upper bound of the divisor is divided by. -/
theorem atLeast_div (ha : AtLeast (-i) a) (hb : AtMost j b) (hb' : AtLeast k b) (hij : i + j ≤ 1074) :
    AtLeast (-(i + j)) (UnpackedFloat.div .binary64 a b) := by
  obtain ⟨s, m, e, hm, rfl, hle⟩ := ha.exists_finite
  obtain ⟨s', m', e', hm', rfl, -⟩ := hb'.exists_finite
  obtain ⟨he', hle'⟩ := hb
  rw [div_eq_roundWithAccuracy]
  have ht : quotientExponent m e m' e' ≤ e - e' := min_le_left _ _
  have hdividend := le_dividend m' e e' hm
  generalize quotientExponent m e m' e' = t at ht hdividend
  refine atLeast_roundWithAccuracy (by omega) ?_
  rw [Nat.le_div_iff_mul_le hm']
  by_cases hlow : t ≤ -(i + j)
  · calc twoTo (-(i + j) - t) * m'
        ≤ twoTo (-(i + j) - t) * twoTo (j - e') := Nat.mul_le_mul_left _ hle'
      _ = twoTo ((-i - e) + (e - e' - t)) := by
          rw [← twoTo_add (by omega) (by omega)]
          congr 1
          omega
      _ ≤ twoTo (-i - e) * twoTo (e - e' - t) := twoTo_add_le _ _
      _ ≤ m * twoTo (e - e' - t) := Nat.mul_le_mul_right _ hle
  · rw [twoTo_of_nonpos (by omega), Nat.one_mul]
    exact (Nat.le_mul_of_pos_left m' (Nat.two_pow_pos 52)).trans (hdividend (by omega))

/-! ### Height -/

/-- The least `k` for which a number is at most `2 ^ k`, apart from its sign; 1024 if
there is none. -/
def height (v : Float) : Nat :=
  match v.toModel.unpack with
  | .zero _ => 0
  | .finite _ m e _ => min 1024 (e + Nat.clog 2 m).toNat
  | _ => 1024

/-- The least `k` for which a number is at most `2 ^ k` and at least `2 ^ -k`, apart
from its sign; 1024 if there is none. -/
def spread (v : Float) : Nat :=
  match v.toModel.unpack with
  | .finite _ m e _ => min 1024 (max (e + Nat.clog 2 m).toNat (-(e + m.log2)).toNat)
  | _ => 1024

theorem atMost_finite_iff {s : Sign} {m : Nat} {e : Int} {hm : 0 < m} :
    AtMost k (.finite s m e hm) ↔ e + Nat.clog 2 m ≤ k := by
  constructor
  · rintro ⟨he, hle⟩
    have hclog := Nat.clog_le_of_le_pow hle
    omega
  · intro h
    refine ⟨by omega, (Nat.clog_le_iff_le_pow Nat.one_lt_two).mp (by omega)⟩

theorem atLeast_finite_iff {s : Sign} {m : Nat} {e : Int} {hm : 0 < m} :
    AtLeast k (.finite s m e hm) ↔ k ≤ e + m.log2 := by
  change 2 ^ (k - e).toNat ≤ m ↔ _
  rw [← Nat.le_log2 hm.ne']
  omega

section

variable {v w : Float} {n : Nat}

theorem height_le (v : Float) : height v ≤ 1024 := by
  unfold height
  split <;> omega

theorem spread_le (v : Float) : spread v ≤ 1024 := by
  unfold spread
  split <;> omega

theorem height_le_iff (hn : n < 1024) : height v ≤ n ↔ AtMost n v.toModel.unpack := by
  unfold height
  split
  · next h => simp [h, AtMost]
  · next h =>
    rw [h, atMost_finite_iff]
    omega
  · next hzero hfinite =>
    constructor
    · omega
    · intro h
      obtain ⟨s, h⟩ | ⟨s, m, e, hm, h, -⟩ := h.cases
      exacts [absurd h (hzero s), absurd h (hfinite s m e hm)]

theorem spread_le_iff (hn : n < 1024) :
    spread v ≤ n ↔ AtMost n v.toModel.unpack ∧ AtLeast (-n) v.toModel.unpack := by
  unfold spread
  split
  · next h =>
    rw [h, atMost_finite_iff, atLeast_finite_iff]
    omega
  · next hfinite =>
    constructor
    · omega
    · rintro ⟨-, h⟩
      obtain ⟨s, m, e, hm, h, -⟩ := h.exists_finite
      exact absurd h (hfinite s m e hm)

/-- A number of a height is finite. -/
theorem isFinite_of_height (h : height v < 1024) : v.isFinite = true := by
  have hmost := (height_le_iff h).mp le_rfl
  change v.toModel.unpack.isFinite = true
  obtain ⟨s, hv⟩ | ⟨s, m, e, hm, hv, -⟩ := hmost.cases <;> rw [hv] <;> rfl

/-- A number of a spread is finite and not zero. -/
theorem isFinite_of_spread (h : spread v < 1024) : v.isFinite = true ∧ (v == 0.0) = false := by
  obtain ⟨-, hleast⟩ := (spread_le_iff h).mp le_rfl
  obtain ⟨s, m, e, hm, hv, -⟩ := hleast.exists_finite
  constructor
  · change v.toModel.unpack.isFinite = true
    rw [hv]
    rfl
  · rw [Bool.eq_false_iff]
    intro hzero
    obtain ⟨s', hkind⟩ := Kinds.ofFloat_of_eq_zero hzero
    rw [Kinds.ofFloat, hv] at hkind
    simp [Kinds.ofUnpacked] at hkind

/-- What has the significand and the exponent of a binary64 number is packed without a
loss. -/
theorem unpack_pack_of_float {u : UnpackedFloat} (v : Float)
    (h : ∀ s m e hm, u = .finite s m e hm → ∃ s', v.toModel.unpack = .finite s' m e hm) :
    unpack .binary64 (pack .binary64 u) = u := by
  have hnormal : Normal v.toModel.unpack := normal_unpack _
  have hstored := Kinds.stored_unpack v
  refine unpack_pack ?_ fun s m e hm hu => ?_
  · cases u with
    | finite s m e hm =>
        obtain ⟨s', hv⟩ := h s m e hm rfl
        rw [hv] at hnormal
        exact hnormal
    | _ => trivial
  · obtain ⟨s', hv⟩ := h s m e hm hu
    rw [hv] at hstored
    exact (Kinds.stored_finite_iff.mp hstored).2.2

theorem unpack_neg (v : Float) : (-v).toModel.unpack = v.toModel.unpack.neg := by
  refine unpack_pack_of_float v fun s m e hm h => ?_
  cases hv : v.toModel.unpack <;> rw [hv] at h <;> cases h
  exact ⟨_, rfl⟩

theorem unpack_abs (v : Float) : v.abs.toModel.unpack = v.toModel.unpack.abs := by
  refine unpack_pack_of_float v fun s m e hm h => ?_
  cases hv : v.toModel.unpack <;> rw [hv] at h <;> cases h
  exact ⟨_, rfl⟩

theorem height_neg (v : Float) : height (-v) = height v := by
  unfold height
  rw [unpack_neg]
  cases v.toModel.unpack <;> rfl

theorem spread_neg (v : Float) : spread (-v) = spread v := by
  unfold spread
  rw [unpack_neg]
  cases v.toModel.unpack <;> rfl

/-- What is packed without a loss is as high as what was packed. -/
theorem height_le_of_packed {n : Nat} (hv : v.toModel.unpack = unpack .binary64 (pack .binary64 a))
    (hmost : AtMost n a) (ha : Normal a) (hn : n < 1024) : height v ≤ n := by
  refine (height_le_iff hn).mpr ?_
  rwa [hv, unpack_pack_of_atMost ha (by omega) hmost]

/-- What is packed without a loss is as far from one as what was packed. -/
theorem spread_le_of_packed {n : Nat} (hv : v.toModel.unpack = unpack .binary64 (pack .binary64 a))
    (hmost : AtMost n a) (hleast : AtLeast (-n) a) (ha : Normal a) (hn : n < 1024) : spread v ≤ n := by
  refine (spread_le_iff hn).mpr ?_
  rw [hv, unpack_pack_of_atMost ha (by omega) hmost]
  exact ⟨hmost, hleast⟩

theorem height_add (v w : Float) : height (v + w) ≤ height v + height w + 1 := by
  by_cases h : 1024 ≤ height v + height w + 1
  · exact (height_le _).trans h
  · have hv := (height_le_iff (v := v) (n := max (height v) (height w)) (by omega)).mp (le_max_left _ _)
    have hw := (height_le_iff (v := w) (n := max (height v) (height w)) (by omega)).mp (le_max_right _ _)
    obtain ⟨hmost, hnormal⟩ := atMost_add hv hw (normal_unpack _) (normal_unpack _) (by omega)
    have hle := height_le_of_packed (v := v + w) (n := max (height v) (height w) + 1) rfl
      (by exact_mod_cast hmost) hnormal (by omega)
    omega

theorem height_sub (v w : Float) : height (v - w) ≤ height v + height w + 1 := by
  have hunpack : (v - w).toModel.unpack = (v + -w).toModel.unpack := by
    change unpack .binary64 (pack .binary64 (UnpackedFloat.sub .binary64 _ w.toModel.unpack))
      = unpack .binary64 (pack .binary64 (UnpackedFloat.add .binary64 _ (-w).toModel.unpack))
    rw [unpack_neg, Kinds.sub_eq_add_neg]
  have hle := height_add v (-w)
  rw [height_neg] at hle
  unfold height at hle ⊢
  rwa [hunpack]

theorem height_maximum (v w : Float) : height (maximum v w) ≤ height v + height w := by
  unfold maximum
  split <;> omega

theorem height_minimum (v w : Float) : height (minimum v w) ≤ height v + height w := by
  unfold minimum
  split <;> omega

theorem height_mul (v w : Float) : height (v * w) ≤ height v + height w := by
  by_cases h : 1024 ≤ height v + height w
  · exact (height_le _).trans h
  · have hv := (height_le_iff (v := v) (by omega)).mp le_rfl
    have hw := (height_le_iff (v := w) (by omega)).mp le_rfl
    obtain ⟨hmost, hnormal⟩ := atMost_mul hv hw (normal_unpack _) (normal_unpack _) (by omega)
    exact height_le_of_packed rfl (by exact_mod_cast hmost) hnormal (by omega)

theorem spread_mul (v w : Float) : spread (v * w) ≤ spread v + spread w := by
  by_cases h : 1024 ≤ spread v + spread w
  · exact (spread_le _).trans h
  · obtain ⟨hv, hv'⟩ := (spread_le_iff (v := v) (by omega)).mp le_rfl
    obtain ⟨hw, hw'⟩ := (spread_le_iff (v := w) (by omega)).mp le_rfl
    obtain ⟨hmost, hnormal⟩ := atMost_mul hv hw (normal_unpack _) (normal_unpack _) (by omega)
    have hleast := atLeast_mul hv' hw' (by omega)
    exact spread_le_of_packed rfl (by exact_mod_cast hmost) (hleast.mono (by omega)) hnormal (by omega)

theorem spread_div (v w : Float) : spread (v / w) ≤ spread v + spread w := by
  by_cases h : 1024 ≤ spread v + spread w
  · exact (spread_le _).trans h
  · obtain ⟨hv, hv'⟩ := (spread_le_iff (v := v) (by omega)).mp le_rfl
    obtain ⟨hw, hw'⟩ := (spread_le_iff (v := w) (by omega)).mp le_rfl
    obtain ⟨hmost, hnormal⟩ := atMost_div hv hw' (by omega)
    have hleast := atLeast_div hv' hw hw' (by omega)
    exact spread_le_of_packed rfl (by exact_mod_cast hmost) (hleast.mono (by omega)) hnormal (by omega)

end

end Binary64

end Formula
