/-
Formula/Proofs/Kinds/Binary64.lean

The kinds of binary64 numbers.  What the arithmetic of kinds says is true of the
operations of binary64: the kind of a result is among the kinds that are possible for
the kinds of the operands.
-/
import Formula.Arithmetic
import Formula.Proofs.Kinds.Rounding

namespace Formula

open Float.Model (Format UnpackedFloat)
open Float.Model.UnpackedFloat

namespace Kinds

/-- The kind of a binary64 number; none if it is NaN. -/
def ofFloat (v : Float) : Kinds := ofUnpacked v.toModel.unpack

theorem ofFloat_eq_empty_iff {v : Float} : ofFloat v = ∅ ↔ v.isNaN = true := by
  change ofUnpacked v.toModel.unpack = ∅ ↔ v.toModel.unpack.isNaN = true
  cases v.toModel.unpack <;> simp [ofUnpacked, UnpackedFloat.isNaN]

/-! ### Numbers as they are stored -/

/-- A number that is not packed, but could be without a loss. -/
structure Stored (u : UnpackedFloat) : Prop where
  canonical : Canonical u
  packed_eq : packed u = ofUnpacked u

theorem stored_finite_iff {s : Sign} {m : Nat} {e : Int} {hm : 0 < m} :
    Stored (.finite s m e hm) ↔ m < 2 ^ 53 ∧ -1074 ≤ e ∧ e ≤ 971 := by
  constructor
  · rintro ⟨hcanonical, heq⟩
    refine ⟨hcanonical.1, hcanonical.2, ?_⟩
    by_contra hlt
    rw [packed_finite hcanonical, if_neg hlt] at heq
    simp [ofUnpacked] at heq
  · rintro ⟨hbits, hmin, hmax⟩
    refine ⟨⟨hbits, hmin⟩, ?_⟩
    rw [packed_finite ⟨hbits, hmin⟩, if_pos hmax]
    rfl

/-- A significand that is unpacked has 53 bits, or fewer and the least exponent. -/
theorem bounds_of_unpack {b : BitVec Format.binary64.numBits} {s : Sign} {m : Nat} {e : Int} {hm : 0 < m}
    (h : unpack .binary64 b = .finite s m e hm) : m < 2 ^ 53 ∧ (2 ^ 52 ≤ m ∨ e = -1074) ∧ -1074 ≤ e := by
  unfold unpack at h
  extract_lets fraction field exponent signBit sign at h
  have hfraction : fraction.toNat < 2 ^ 52 := fraction.isLt
  have hbias : exponent = (field.toNat : Int) - 1075 := rfl
  split_ifs at h with hmax hzero hmin hzero
  · -- a subnormal float
    obtain ⟨-, rfl, rfl⟩ := UnpackedFloat.finite.inj h
    have hleast : exponent + 1 = -1074 := by simp [hbias, hmin]
    exact ⟨by omega, .inr hleast, hleast.ge⟩
  · obtain ⟨-, rfl, rfl⟩ := UnpackedFloat.finite.inj h
    have hpos : field.toNat ≠ 0 := fun h => hmin (BitVec.eq_of_toNat_eq (by simpa using h))
    have hsignificand : (1#1 ++ fraction).toNat = 2 ^ 52 + fraction.toNat := toNat_leading_append fraction
    refine ⟨?_, .inl ?_, by omega⟩ <;> rw [hsignificand] <;> omega

/-- A number that is unpacked is canonical. -/
theorem canonical_unpack (b : BitVec Format.binary64.numBits) : Canonical (unpack .binary64 b) := by
  cases h : unpack .binary64 b with
  | finite => exact ⟨(bounds_of_unpack h).1, (bounds_of_unpack h).2.2⟩
  | _ => trivial

theorem stored_unpack (v : Float) : Stored v.toModel.unpack where
  canonical := canonical_unpack _
  packed_eq :=
    congrArg (fun b => ofUnpacked (unpack .binary64 b)) (pack_unpack_of_valid v.toModel.valid)

/-! ### Sums -/

variable {a b : UnpackedFloat} {j k : Kind}

@[simp] theorem isNegative_neg (s : Sign) : isNegative (-s) = !isNegative s := by
  cases s <;> rfl

theorem ofUnpacked_neg (a : UnpackedFloat) : ofUnpacked a.neg = neg (ofUnpacked a) := by
  cases a <;> simp [UnpackedFloat.neg, ofUnpacked, neg, Kind.neg]

theorem Stored.neg (ha : Stored a) : Stored a.neg := by
  cases a with
  | notANumber | infinity | zero => exact ⟨trivial, by simp [UnpackedFloat.neg, ofUnpacked]⟩
  | finite => exact stored_finite_iff.mpr (stored_finite_iff.mp ha)

theorem packed_normalize {m : Int} {e : Int} (hmin : -1074 ≤ e) :
    packed (UnpackedFloat.normalize .binary64 m e .positive)
      ⊆ if m = 0 then {⟨false, .zero⟩} else {⟨decide (m < 0), .ordinary⟩, ⟨decide (m < 0), .infinite⟩} := by
  unfold UnpackedFloat.normalize
  split
  · next h =>
    have hneg : m < 0 := compare_lt_iff_lt.mp h
    rw [if_neg hneg.ne, decide_eq_true hneg]
    exact packed_round .negative (by omega) hmin
  · next h =>
    have hzero : m = 0 := compare_eq_iff_eq.mp h
    rw [if_pos hzero]
    rfl
  · next h =>
    have hpos : 0 < m := compare_gt_iff_gt.mp h
    rw [if_neg hpos.ne', decide_eq_false hpos.not_gt]
    exact packed_round .positive (by omega) hmin

/-- The sum of ordinary numbers. -/
theorem packed_normalize_add {s s' : Sign} {m m' : Nat} {e : Int} (hm : 0 < m) (hm' : 0 < m')
    (hmin : -1074 ≤ e) :
    packed (UnpackedFloat.normalize .binary64 (s.apply m + s'.apply m') e .positive)
      ⊆ Kind.add ⟨isNegative s, .ordinary⟩ ⟨isNegative s', .ordinary⟩ := by
  have hnormalize := packed_normalize (m := s.apply m + s'.apply m') hmin
  cases s <;> cases s'
  case negative.negative =>
    have hneg : Sign.negative.apply m + Sign.negative.apply m' < 0 := by
      simp only [Sign.apply]
      omega
    simpa [hneg.ne, hneg, Kind.add, isNegative] using hnormalize
  case positive.positive =>
    have hpos : 0 < Sign.positive.apply m + Sign.positive.apply m' := by
      simp only [Sign.apply]
      omega
    simpa [hpos.ne', hpos.not_gt, Kind.add, isNegative] using hnormalize
  all_goals simp [Kind.add, isNegative]

theorem packed_add (ha : Stored a) (hb : Stored b) :
    packed (UnpackedFloat.add .binary64 a b) ⊆ add (ofUnpacked a) (ofUnpacked b) := by
  cases a <;> cases b
  case finite.finite s m e hm s' m' e' hm' =>
    rw [stored_finite_iff] at ha hb
    simp only [UnpackedFloat.add, decreaseExponent, ofUnpacked, add, lift_singleton, Nat.shiftLeft_eq]
    exact packed_normalize_add (Nat.mul_pos hm (Nat.two_pow_pos _)) (Nat.mul_pos hm' (Nat.two_pow_pos _))
      (by omega)
  case zero.finite s s' m e hm =>
    exact hb.packed_eq.trans_subset (by simp [ofUnpacked, add, Kind.add])
  case finite.zero s m e hm s' =>
    exact ha.packed_eq.trans_subset (by simp [ofUnpacked, add, Kind.add])
  case infinity.infinity s s' => cases s <;> cases s' <;> decide
  case zero.zero s s' => cases s <;> cases s' <;> decide
  all_goals simp [UnpackedFloat.add, ofUnpacked, add, Kind.add]

/-- A difference is the sum with the opposite number. -/
theorem sub_eq_add_neg (a b : UnpackedFloat) :
    UnpackedFloat.sub .binary64 a b = UnpackedFloat.add .binary64 a b.neg := by
  cases a <;> cases b <;> try rfl
  case finite.finite s m e _ s' m' e' _ =>
    have happly : ∀ n : Int, (-s').apply n = -s'.apply n := by
      intro n
      cases s'
      · exact (Int.neg_neg n).symm
      · rfl
    simp only [UnpackedFloat.sub, UnpackedFloat.add, UnpackedFloat.neg, happly, Int.sub_eq_add_neg]

/-! ### Products -/

@[simp] theorem isNegative_mul (s s' : Sign) : isNegative (s * s') = (isNegative s != isNegative s') := by
  cases s <;> cases s' <;> rfl

@[simp] theorem isNegative_div (s s' : Sign) : isNegative (s / s') = (isNegative s != isNegative s') := by
  cases s <;> cases s' <;> rfl

theorem packed_mul (a b : UnpackedFloat) :
    packed (UnpackedFloat.mul .binary64 a b) ⊆ mul (ofUnpacked a) (ofUnpacked b) := by
  cases a <;> cases b
  case finite.finite s m e _ s' m' e' _ =>
    exact (packed_roundWithAccuracy (s * s') (m * m') (e + e') .exact).trans
      (by simp [signed, ofUnpacked, mul, Kind.mul])
  all_goals simp [UnpackedFloat.mul, ofUnpacked, mul, Kind.mul]

theorem packed_div (a b : UnpackedFloat) :
    packed (UnpackedFloat.div .binary64 a b) ⊆ mul (ofUnpacked a) (inv (ofUnpacked b)) := by
  cases a <;> cases b
  case finite.finite s m e _ s' m' e' _ =>
    exact (packed_roundWithAccuracy (s / s') _ _ _).trans
      (by simp [signed, ofUnpacked, mul, inv, Kind.mul, Kind.inv])
  all_goals simp [UnpackedFloat.div, ofUnpacked, mul, inv, Kind.mul, Kind.inv]

/-! ### Extrema -/

/-- A number that is not greater has no greater rank. -/
theorem rank_le_of_le (h : a.le b = true) :
    ∃ j k, ofUnpacked a = {j} ∧ ofUnpacked b = {k} ∧ j.rank ≤ k.rank := by
  cases a <;> cases b
  case infinity.infinity s s' | infinity.zero s s' | zero.infinity s s' | zero.zero s s' =>
    revert h
    cases s <;> cases s' <;> simp [ofUnpacked, isNegative, Kind.rank] <;> decide
  case infinity.finite s s' _ _ _ | zero.finite s s' _ _ _ | finite.infinity s _ _ _ s' |
      finite.zero s _ _ _ s' | finite.finite s _ _ _ s' _ _ _ =>
    revert h
    cases s <;> cases s' <;>
      simp [UnpackedFloat.le, UnpackedFloat.compare, ofUnpacked, isNegative, Kind.rank]
  all_goals cases h

/-- A number that is greater has no lesser rank. -/
theorem rank_le_of_not_le (h : a.le b = false) (hj : j ∈ ofUnpacked a) (hk : k ∈ ofUnpacked b) :
    k.rank ≤ j.rank := by
  cases a <;> cases b
  case infinity.infinity s s' | infinity.zero s s' | zero.infinity s s' | zero.zero s s' =>
    obtain rfl := Finset.mem_singleton.mp hj
    obtain rfl := Finset.mem_singleton.mp hk
    revert h
    cases s <;> cases s' <;> decide
  case infinity.finite s s' _ _ _ | zero.finite s s' _ _ _ | finite.infinity s _ _ _ s' |
      finite.zero s _ _ _ s' | finite.finite s _ _ _ s' _ _ _ =>
    obtain rfl := Finset.mem_singleton.mp hj
    obtain rfl := Finset.mem_singleton.mp hk
    revert h
    cases s <;> cases s' <;> simp [UnpackedFloat.le, UnpackedFloat.compare, isNegative, Kind.rank]
  all_goals simp [ofUnpacked] at hj hk

/-! ### The operations of binary64 -/

section

variable (v w : Float)

theorem ofFloat_neg : ofFloat (-v) = neg (ofFloat v) :=
  (stored_unpack v).neg.packed_eq.trans (ofUnpacked_neg _)

theorem ofFloat_add : ofFloat (v + w) ⊆ add (ofFloat v) (ofFloat w) :=
  packed_add (stored_unpack v) (stored_unpack w)

theorem ofFloat_sub : ofFloat (v - w) ⊆ add (ofFloat v) (neg (ofFloat w)) := by
  have h := packed_add (stored_unpack v) (stored_unpack w).neg
  rwa [← sub_eq_add_neg, ofUnpacked_neg] at h

theorem ofFloat_mul : ofFloat (v * w) ⊆ mul (ofFloat v) (ofFloat w) := packed_mul _ _

theorem ofFloat_div : ofFloat (v / w) ⊆ mul (ofFloat v) (inv (ofFloat w)) := packed_div _ _

/-- One of two numbers, the first one if it is NaN. -/
theorem ofFloat_choice {op : Kind → Kind → Kinds} (first : Bool)
    (hfirst : first = true → ∀ j ∈ ofFloat v, ∃ k ∈ ofFloat w, j ∈ op j k)
    (hsecond : first = false → ∀ j ∈ ofFloat v, ∀ k ∈ ofFloat w, k ∈ op j k) :
    ofFloat (if first || v.isNaN then v else w) ⊆ lift op (ofFloat v) (ofFloat w) := by
  intro c hc
  rw [mem_lift]
  cases first with
  | true =>
      obtain ⟨k, hk, hmem⟩ := hfirst rfl c hc
      exact ⟨c, hc, k, hk, hmem⟩
  | false =>
      by_cases hnan : v.isNaN = true
      · rw [Bool.false_or, if_pos hnan, ofFloat_eq_empty_iff.mpr hnan] at hc
        exact absurd hc (Finset.notMem_empty c)
      · obtain ⟨j, hj⟩ := Finset.nonempty_iff_ne_empty.mpr fun h => hnan (ofFloat_eq_empty_iff.mp h)
        rw [Bool.false_or, if_neg hnan] at hc
        exact ⟨j, hj, c, hc, hsecond rfl j hj c hc⟩

theorem decide_le : decide (v ≤ w) = v.toModel.unpack.le w.toModel.unpack := by
  change decide (decide (v.toModel.unpack.le w.toModel.unpack = true) = true) = _
  rw [Bool.decide_eq_true, Bool.decide_eq_true]

theorem decide_lt : decide (v < w) = v.toModel.unpack.lt w.toModel.unpack := by
  change decide (decide (v.toModel.unpack.lt w.toModel.unpack = true) = true) = _
  rw [Bool.decide_eq_true, Bool.decide_eq_true]

theorem ofFloat_maximum : ofFloat (Binary64.maximum v w) ⊆ lift Kind.max (ofFloat v) (ofFloat w) := by
  refine ofFloat_choice v w (decide (v ≥ w)) (fun h c hc => ?_) fun h j hj k hk => ?_
  · obtain ⟨k, j, hk, hj, hle⟩ := rank_le_of_le ((decide_le w v).symm.trans h)
    rw [ofFloat, hj, Finset.mem_singleton] at hc
    subst hc
    exact ⟨k, by simp [ofFloat, hk], Kind.mem_max_left hle⟩
  · exact Kind.mem_max_right (rank_le_of_not_le ((decide_le w v).symm.trans h) hk hj)

theorem ofFloat_minimum : ofFloat (Binary64.minimum v w) ⊆ lift Kind.min (ofFloat v) (ofFloat w) := by
  refine ofFloat_choice v w (decide (v ≤ w)) (fun h c hc => ?_) fun h j hj k hk => ?_
  · obtain ⟨j, k, hj, hk, hle⟩ := rank_le_of_le ((decide_le v w).symm.trans h)
    rw [ofFloat, hj, Finset.mem_singleton] at hc
    subst hc
    exact ⟨k, by simp [ofFloat, hk], Kind.mem_min_left hle⟩
  · exact Kind.mem_min_right (rank_le_of_not_le ((decide_le v w).symm.trans h) hj hk)

end

theorem ofFloat_one : ofFloat 1.0 = one := by decide +kernel

/-- A number that equals zero is one of the zeros. -/
theorem ofFloat_of_eq_zero {v : Float} (h : (v == 0.0) = true) : ∃ s, ofFloat v = {⟨s, .zero⟩} := by
  obtain ⟨-, -, rfl | ⟨rfl, -⟩ | ⟨rfl, -⟩⟩ := Float.beq_iff_ne_nan_and_eq.mp h
  exacts [⟨false, by decide +kernel⟩, ⟨false, by decide +kernel⟩, ⟨true, by decide +kernel⟩]

/-- A number that equals one is positive and ordinary. -/
theorem ofFloat_of_eq_one {v : Float} (h : (v == 1.0) = true) : ofFloat v = one := by
  obtain ⟨-, -, rfl | ⟨-, hzero⟩ | ⟨-, hzero⟩⟩ := Float.beq_iff_ne_nan_and_eq.mp h
  · exact ofFloat_one
  all_goals exact absurd hzero (by decide +kernel)

end Kinds

end Formula
