/-
Formula/Proofs/Decimal/ShortestDigits.lean

The digits that are printed stand for a number in the interval around the value
(`has_value_shortest`).  On each grid the neighbours of the value are tried, and only
one in the interval is taken, so it is enough that the search ends with one: the grid
of 17 digits is so fine that the nearer neighbour always is in the interval
(`isSome_integer?_seventeen`).

Powers of ten are on every grid with numbers of that size, so what is printed never
lies beyond a power of ten from the value (`value_shortest_bounds`).
-/
import Formula.Proofs.Decimal.Rounding

namespace Formula.Decimal

variable {b : Binary} {i : Interval} {d : Digits} {x : ℚ} {e : Int} {num den n k : Nat}

/-! ### Powers of ten -/

theorem ten_zpow_pos (e : Int) : (0 : ℚ) < 10 ^ e := zpow_pos (by norm_num) e

theorem ten_zpow_le {i j : Int} (h : i ≤ j) : (10 : ℚ) ^ i ≤ 10 ^ j := zpow_le_zpow_right₀ (by norm_num) h

theorem ten_zpow_mul (i j : Int) : (10 : ℚ) ^ i * 10 ^ j = 10 ^ (i + j) :=
  (zpow_add₀ (by norm_num) i j).symm

theorem ten_zpow_le_iff (hx : 0 < x) : (10 : ℚ) ^ e ≤ x ↔ e ≤ Int.log 10 x := by
  rw [← Int.zpow_le_iff_le_log (by decide) hx, Nat.cast_ofNat]

/-! ### The position of the point -/

theorem digitCount_pos (n : Nat) : 0 < digitCount n := List.length_pos_iff.mpr Nat.toDigits_ne_nil

theorem digitCount_bounds (hn : 0 < n) : 10 ^ (digitCount n - 1) ≤ n ∧ n < 10 ^ digitCount n := by
  have hle : ∀ k, 0 < k → (digitCount n ≤ k ↔ n < 10 ^ k) := fun k hk =>
    Nat.length_toDigits_le_iff (by decide) hk
  have hpos := digitCount_pos n
  refine ⟨?_, (hle _ hpos).mp (Nat.le_refl _)⟩
  obtain hone | htwo : digitCount n = 1 ∨ 0 < digitCount n - 1 := by omega
  · rw [hone]
    exact hn
  · by_contra hlt
    have hshort := (hle _ htwo).mpr (Nat.lt_of_not_le hlt)
    omega

theorem log_eq (hx : 0 < x) (hlow : (10 : ℚ) ^ e ≤ x) (hhigh : x < 10 ^ (e + 1)) : Int.log 10 x = e := by
  rw [ten_zpow_le_iff hx] at hlow
  rw [← not_le, ten_zpow_le_iff hx] at hhigh
  omega

theorem pointPosition_eq (hnum : 0 < num) (hden : 0 < den) :
    pointPosition num den = Int.log 10 ((num : ℚ) / den) + 1 := by
  have hnum' : (0 : ℚ) < num := Nat.cast_pos.mpr hnum
  have hden' : (0 : ℚ) < den := Nat.cast_pos.mpr hden
  have hx : (0 : ℚ) < num / den := div_pos hnum' hden'
  unfold pointPosition
  split
  · next hle =>
    -- the integer part has the digits before the point
    obtain ⟨hlow, hhigh⟩ := digitCount_bounds (Nat.div_pos hle hden)
    have hpos := digitCount_pos (num / den)
    rw [Nat.le_div_iff_mul_le hden] at hlow
    rw [Nat.div_lt_iff_lt_mul hden] at hhigh
    generalize digitCount (num / den) = k at hlow hhigh hpos ⊢
    rw [log_eq (e := (k : Int) - 1) hx]
    · ring
    · rw [le_div_iff₀ hden', show (k : Int) - 1 = (k - 1 : Nat) by omega, zpow_natCast]
      exact_mod_cast hlow
    · rw [div_lt_iff₀ hden', sub_add_cancel, zpow_natCast]
      exact_mod_cast hhigh
  · next hlt =>
    -- that of the reciprocal has the zeros behind it
    obtain ⟨hlow, hhigh⟩ := digitCount_bounds (Nat.div_pos (Nat.le_of_not_le hlt) hnum)
    have hpos := digitCount_pos (den / num)
    rw [Nat.le_div_iff_mul_le hnum] at hlow
    rw [Nat.div_lt_iff_lt_mul hnum] at hhigh
    generalize digitCount (den / num) = k at hlow hhigh hpos ⊢
    have hinv : ∀ j : Nat, (10 : ℚ) ^ (-(j : Int)) ≤ num / den ↔ den ≤ 10 ^ j * num := by
      intro j
      rw [le_div_iff₀ hden', zpow_neg, zpow_natCast, inv_mul_le_iff₀ (by positivity)]
      norm_cast
    have hinv' : ∀ j : Nat, (num : ℚ) / den < 10 ^ (-(j : Int)) ↔ 10 ^ j * num < den := by
      intro j
      rw [← not_le, hinv, Nat.not_le]
    simp only
    split
    · next hend =>
      rw [Nat.mul_comm] at hend
      rw [log_eq (e := -((k - 1 : Nat) : Int)) hx ((hinv _).mpr hend)]
      · omega
      · have hle : (num : ℚ) / den ≤ 10 ^ (-((k - 1 : Nat) : Int)) := by
          rw [zpow_neg, zpow_natCast, div_le_iff₀ hden', le_inv_mul_iff₀ (by positivity)]
          exact_mod_cast hlow
        exact hle.trans_lt (zpow_lt_zpow_right₀ (by norm_num) (by omega))
    · next hend =>
      rw [Nat.mul_comm, Nat.not_le] at hend
      rw [log_eq (e := -(k : Int)) hx ((hinv _).mpr hhigh.le)]
      · ring
      · have hlt := (hinv' _).mpr hend
        rwa [show -((k - 1 : Nat) : Int) = -(k : Int) + 1 by omega] at hlt

/-! ### Grids -/

theorem inUnits_spec (i : Interval) (e : Int) :
    ((i.inUnits e).low : ℚ) / (i.inUnits e).denominator = i.low / i.denominator / 10 ^ e ∧
      ((i.inUnits e).value : ℚ) / (i.inUnits e).denominator = i.value / i.denominator / 10 ^ e ∧
      ((i.inUnits e).high : ℚ) / (i.inUnits e).denominator = i.high / i.denominator / 10 ^ e := by
  have hscaled := fun n => scaled_div n i.denominator 10 e
  rw [Interval.inUnits]
  split
  · next hneg =>
    simp only [if_pos hneg, Nat.cast_ofNat] at hscaled
    exact ⟨hscaled i.low, hscaled i.value, hscaled i.high⟩
  · next hneg =>
    simp only [if_neg hneg, Nat.cast_ofNat] at hscaled
    exact ⟨hscaled i.low, hscaled i.value, hscaled i.high⟩

/-- An interval in units of a power of ten. -/
theorem has_inUnits : (i.inUnits e).Has x ↔ i.Has (x * 10 ^ e) := by
  have hpow := ten_zpow_pos e
  obtain ⟨hlow, -, hhigh⟩ := inUnits_spec i e
  have hclosed : (i.inUnits e).closed = i.closed := by
    rw [Interval.inUnits]
    split <;> rfl
  rw [Interval.has_iff, Interval.has_iff, hlow, hhigh, hclosed, div_le_iff₀ hpow, le_div_iff₀ hpow,
    div_lt_iff₀ hpow, lt_div_iff₀ hpow]

theorem holds_iff (hden : 0 < i.denominator) : i.holds n = true ↔ i.Has n := by
  have hden' : (0 : ℚ) < i.denominator := Nat.cast_pos.mpr hden
  rw [Interval.has_iff, div_le_iff₀ hden', le_div_iff₀ hden', div_lt_iff₀ hden', lt_div_iff₀ hden']
  norm_cast
  unfold Interval.holds
  split
  · next hclosed => simp [hclosed]
  · next hopen =>
    simp only [Bool.not_eq_true] at hopen
    simp only [hopen, Bool.and_eq_true, decide_eq_true_eq, forall_const]
    omega

/-- What is taken on a grid is a neighbour of the value, and in the interval. -/
theorem integer?_spec (h : i.integer? = some n) :
    i.holds n = true ∧ (n = i.value / i.denominator ∨ n = i.value / i.denominator + 1) := by
  unfold Interval.integer? at h
  extract_lets below twice at h
  split at h
  · cases h
  · next hbelow habove =>
    obtain rfl := Option.some.inj h
    exact ⟨hbelow, .inl rfl⟩
  · next hbelow habove =>
    obtain rfl := Option.some.inj h
    exact ⟨habove, .inr rfl⟩
  · next hbelow habove =>
    split at h <;> obtain rfl := Option.some.inj h
    · exact ⟨hbelow, .inl rfl⟩
    · exact ⟨habove, .inr rfl⟩

theorem isSome_integer?_of_holds (h : i.holds (i.value / i.denominator) = true ∨
    i.holds (i.value / i.denominator + 1) = true) : i.integer?.isSome := by
  unfold Interval.integer?
  extract_lets below twice
  change i.holds below = true ∨ i.holds (below + 1) = true at h
  split
  · next hbelow habove => rcases h with h | h <;> simp_all
  · rfl
  · rfl
  · split <;> rfl

/-! ### The value of digits -/

/-- The number that digits stand for. -/
def Digits.value (d : Digits) : ℚ := d.digits * 10 ^ d.exponent

theorem value_trim (fuel : Nat) (d : Digits) : (d.trim fuel).value = d.value := by
  induction fuel generalizing d with
  | zero => rfl
  | succ fuel ih =>
      rw [Digits.trim]
      split
      · next h =>
        have hten : d.digits = d.digits / 10 * 10 := by
          simp only [Bool.and_eq_true, decide_eq_true_eq] at h
          omega
        have hdigits : (d.digits : ℚ) = (d.digits / 10 : Nat) * 10 := by exact_mod_cast hten
        rw [ih, Digits.value, Digits.value, zpow_add₀ (by norm_num), zpow_one, hdigits]
        ring
      · rfl

/-! ### The search -/

/-- The search ends on the first grid where a neighbour is taken. -/
theorem shortestFrom_spec {point : Int} {fuel : Nat}
    (h : ∃ k, n ≤ k ∧ k < n + fuel ∧ (i.inUnits (point - k)).integer?.isSome) :
    ∃ k m, n ≤ k ∧ (i.inUnits (point - k)).integer? = some m ∧
      shortestFrom i point fuel n = Digits.trim 18 ⟨m, point - k⟩ := by
  induction fuel generalizing n with
  | zero =>
      obtain ⟨k, hle, hlt, -⟩ := h
      omega
  | succ fuel ih =>
      rw [shortestFrom]
      cases hn : (i.inUnits (point - n)).integer? with
      | some m => exact ⟨n, m, Nat.le_refl n, hn, rfl⟩
      | none =>
          obtain ⟨k, hle, hlt, hk⟩ := h
          have hne : n ≠ k := by
            rintro rfl
            rw [hn] at hk
            cases hk
          obtain ⟨k', m, hle', hm, heq⟩ := ih (n := n + 1) ⟨k, by omega, by omega, hk⟩
          exact ⟨k', m, by omega, hm, heq⟩

theorem Binary.denominator_pos (b : Binary) : 0 < b.interval.denominator := by
  rw [Binary.interval]
  dsimp only
  split
  · exact Nat.two_pow_pos _
  · exact Nat.one_pos

theorem denominator_inUnits_pos (h : 0 < i.denominator) (e : Int) : 0 < (i.inUnits e).denominator := by
  rw [Interval.inUnits]
  split
  · exact h
  · exact Nat.mul_pos h (Nat.pow_pos (by decide))

/-- The decimal point of a value. -/
def Binary.point (b : Binary) : Int := Int.log 10 b.value + 1

theorem Binary.floor_eq (b : Binary) (e : Int) :
    (b.interval.inUnits e).value / (b.interval.inUnits e).denominator = ⌊b.value / 10 ^ e⌋₊ := by
  rw [← Nat.floor_div_eq_div (K := ℚ), (inUnits_spec b.interval e).2.1, b.interval_value]

variable (hb : b.Normalized)
include hb

theorem Binary.Normalized.value_pos : 0 < b.value :=
  mul_pos (Nat.cast_pos.mpr hb.pos) (two_zpow_pos _)

theorem Binary.Normalized.ten_zpow_le_value_iff : (10 : ℚ) ^ e ≤ b.value ↔ e < b.point := by
  rw [ten_zpow_le_iff hb.value_pos, Binary.point, Int.lt_add_one_iff]

theorem pointPosition_interval : pointPosition b.interval.value b.interval.denominator = b.point := by
  have hvalue : 0 < b.interval.value := by
    have hpos := hb.value_pos
    rw [← b.interval_value] at hpos
    refine Nat.pos_of_ne_zero fun hzero => ?_
    rw [hzero, Nat.cast_zero, zero_div] at hpos
    exact lt_irrefl _ hpos
  rw [pointPosition_eq hvalue b.denominator_pos, b.interval_value, Binary.point]

/-- The value on the grid of `k` digits. -/
theorem Binary.Normalized.scaled_bounds (k : Nat) :
    (10 : ℚ) ^ ((k : Int) - 1) ≤ b.value / 10 ^ (b.point - k) ∧ b.value / 10 ^ (b.point - k) < 10 ^ k := by
  rw [le_div_iff₀ (ten_zpow_pos _), div_lt_iff₀ (ten_zpow_pos _), ← zpow_natCast, ten_zpow_mul,
    ten_zpow_mul]
  have hlow : (10 : ℚ) ^ Int.log 10 b.value ≤ b.value := (ten_zpow_le_iff hb.value_pos).mpr le_rfl
  have hhigh : b.value < (10 : ℚ) ^ (Int.log 10 b.value + 1) := by
    rw [← not_le, ten_zpow_le_iff hb.value_pos]
    exact not_le.mpr (lt_add_one _)
  rw [Binary.point, show (k : Int) - 1 + (Int.log 10 b.value + 1 - k) = Int.log 10 b.value by ring,
    show (k : Int) + (Int.log 10 b.value + 1 - k) = Int.log 10 b.value + 1 by ring]
  exact ⟨hlow, hhigh⟩

/-- The grid of 17 digits is finer than the interval is wide, on either side. -/
theorem Binary.Normalized.grid_lt : (10 : ℚ) ^ (b.point - 17) < 2 * b.below * 2 ^ (b.exponent - 2) := by
  have hquarter := two_zpow_pos (b.exponent - 2)
  have hgrid : (10 : ℚ) ^ 16 * 10 ^ (b.point - 17) ≤ 4 * b.significand * 2 ^ (b.exponent - 2) := by
    have hscaled := (hb.scaled_bounds 17).1
    rw [le_div_iff₀ (ten_zpow_pos _), b.value_eq] at hscaled
    exact_mod_cast hscaled
  have hlt : (b.significand : ℚ) < 2 ^ 53 := by exact_mod_cast hb.lt
  rcases hb.below_cases with hbelow | ⟨hbelow, hsignificand, -⟩
  · rw [hbelow]
    push_cast
    nlinarith
  · rw [hsignificand] at hgrid
    rw [hbelow]
    push_cast at hgrid ⊢
    nlinarith

/-- So the nearer neighbour on that grid is in the interval. -/
theorem isSome_integer?_seventeen : (b.interval.inUnits (b.point - 17)).integer?.isSome := by
  have hgrid := hb.grid_lt
  have hunit := ten_zpow_pos (b.point - 17)
  have hvalue : b.value / 10 ^ (b.point - 17) * 10 ^ (b.point - 17)
      = 4 * b.significand * 2 ^ (b.exponent - 2) := by
    rw [div_mul_cancel₀ _ hunit.ne', b.value_eq]
  have hscaled : 0 < b.value / 10 ^ (b.point - 17) := div_pos hb.value_pos hunit
  have hfloor := Nat.floor_le hscaled.le
  have hfloor' := Nat.lt_floor_add_one (b.value / 10 ^ (b.point - 17))
  have hpos := denominator_inUnits_pos b.denominator_pos (b.point - 17)
  refine isSome_integer?_of_holds ?_
  rw [holds_iff hpos, holds_iff hpos, has_inUnits, has_inUnits, b.floor_eq]
  generalize b.value / 10 ^ (b.point - 17) = y at hvalue hfloor hfloor'
  have hbelow := mul_le_mul_of_nonneg_right hb.below_le (two_zpow_pos (b.exponent - 2)).le
  have hquarter := two_zpow_pos (b.exponent - 2)
  by_cases hhalf : y - ⌊y⌋₊ ≤ 1 / 2
  · have hnear := mul_le_mul_of_nonneg_right hhalf hunit.le
    have hle := mul_le_mul_of_nonneg_right hfloor hunit.le
    exact .inl (has_of_lt hb (by linarith) (by linarith))
  · have hhalf' : (⌊y⌋₊ : ℚ) + 1 - y ≤ 1 / 2 := by linarith
    have hnear := mul_le_mul_of_nonneg_right hhalf' hunit.le
    have hle := mul_le_mul_of_nonneg_right hfloor'.le hunit.le
    refine .inr (has_of_lt hb ?_ ?_)
    · push_cast
      have hpos : (0 : ℚ) < b.below := by
        rcases hb.below_cases with hbelow | ⟨hbelow, -⟩ <;> rw [hbelow] <;> norm_num
      have hgap := mul_pos hpos hquarter
      linarith
    · push_cast
      linarith

/-- The digits that are printed, on the grid where they were found. -/
theorem shortest_cases : ∃ k m : Nat, 1 ≤ k ∧ (b.interval.inUnits (b.point - k)).integer? = some m ∧
    b.shortest.value = m * 10 ^ (b.point - k) := by
  have hlast : ∃ k : Nat, 1 ≤ k ∧ k < 1 + 17 ∧ (b.interval.inUnits (b.point - k)).integer?.isSome :=
    ⟨17, by decide, by decide, isSome_integer?_seventeen hb⟩
  obtain ⟨k, m, hk, hm, heq⟩ := shortestFrom_spec hlast
  refine ⟨k, m, hk, hm, ?_⟩
  rw [Binary.shortest, pointPosition_interval hb, heq, value_trim]
  rfl

/-- What is printed is in the interval around the value. -/
theorem has_value_shortest : b.interval.Has b.shortest.value := by
  obtain ⟨k, m, -, hm, heq⟩ := shortest_cases hb
  have hholds := (integer?_spec hm).1
  rw [holds_iff (denominator_inUnits_pos b.denominator_pos _), has_inUnits] at hholds
  rwa [heq]

/-- No power of ten is between the value and what is printed. -/
theorem value_shortest_bounds : (10 : ℚ) ^ (b.point - 1) ≤ b.shortest.value ∧
    b.shortest.value ≤ 10 ^ b.point := by
  obtain ⟨k, m, hk, hm, heq⟩ := shortest_cases hb
  have hunit := ten_zpow_pos (b.point - k)
  obtain ⟨hlow, hhigh⟩ := hb.scaled_bounds k
  have hneighbour := (integer?_spec hm).2
  rw [b.floor_eq] at hneighbour
  rw [show (k : Int) - 1 = (k - 1 : Nat) by omega, zpow_natCast] at hlow
  have hfloor : 10 ^ (k - 1) ≤ ⌊b.value / 10 ^ (b.point - k)⌋₊ := Nat.le_floor (by exact_mod_cast hlow)
  have hfloor' : ⌊b.value / 10 ^ (b.point - k)⌋₊ < 10 ^ k :=
    (Nat.floor_lt' (by positivity)).mpr (by exact_mod_cast hhigh)
  have hm' : (10 : ℚ) ^ (k - 1) ≤ m ∧ (m : ℚ) ≤ 10 ^ k := by
    have hbounds : 10 ^ (k - 1) ≤ m ∧ m ≤ 10 ^ k := by omega
    exact_mod_cast hbounds
  rw [heq, show b.point - 1 = (k - 1 : Nat) + (b.point - k) by omega,
    show (10 : ℚ) ^ b.point = 10 ^ (k + (b.point - k)) by ring_nf, ← ten_zpow_mul, ← ten_zpow_mul,
    zpow_natCast, zpow_natCast]
  exact ⟨mul_le_mul_of_nonneg_right hm'.1 hunit.le, mul_le_mul_of_nonneg_right hm'.2 hunit.le⟩

end Formula.Decimal
