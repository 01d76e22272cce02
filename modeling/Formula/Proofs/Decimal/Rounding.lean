/-
Formula/Proofs/Decimal/Rounding.lean

Which fractions round to a float.  Around the value of a float lies the interval of
numbers that are nearer to it than to any other float (`Binary.interval`); every
fraction in that interval is rounded to the float (`nearest_of_has`).

Rounding brings a fraction to an exponent first.  That is the exponent of the float,
but for the numbers just below a float that begins a binade: those have the exponent
below, are rounded up to `2 ^ 53` there, and the carry gives the float.
-/
import Formula.Proofs.Decimal.Nearest

namespace Formula.Decimal

variable {v : Float} {negative : Bool} {b : Binary} {x : ℚ} {e : Int} {num den n d m k : Nat}

/-! ### Powers -/

theorem two_zpow_pos (e : Int) : (0 : ℚ) < 2 ^ e := zpow_pos two_pos e

theorem zpow_of_neg (r : ℚ) (h : e < 0) : r ^ e = (r ^ e.natAbs)⁻¹ := by
  rw [← zpow_natCast, ← zpow_neg]
  congr 1
  omega

theorem zpow_of_nonneg (r : ℚ) (h : ¬e < 0) : r ^ e = r ^ e.natAbs := by
  rw [← zpow_natCast]
  congr 1
  omega

theorem zpow_quarter_add (e : Int) (k : Nat) : (2 : ℚ) ^ (e - 2 + k) = 2 ^ k * 2 ^ (e - 2) := by
  rw [zpow_add₀ two_ne_zero, zpow_natCast, mul_comm]

/-! ### Rounding to an integer -/

/-- An integer is what a quotient is rounded to if it is not farther from it than a half,
and a tie is decided for it; all over the denominator `2 * d`. -/
theorem roundHalfEven_eq_of_bounds (hd : 0 < d) (hlow : 2 * (m * d) ≤ 2 * n + d)
    (hhigh : 2 * n ≤ 2 * (m * d) + d)
    (htie : m % 2 = 1 → 2 * (m * d) < 2 * n + d ∧ 2 * n < 2 * (m * d) + d) : roundHalfEven n d = m := by
  have hdiv := Nat.div_add_mod' n d
  have hmod := Nat.mod_lt n hd
  unfold roundHalfEven
  generalize n / d = q at hdiv ⊢
  generalize n % d = r at hdiv hmod ⊢
  obtain rfl | rfl : m = q ∨ m = q + 1 := by
    have hle : q ≤ m := by
      by_contra hlt
      have hmul : (m + 1) * d ≤ q * d := Nat.mul_le_mul_right d (by omega)
      rw [Nat.add_mul] at hmul
      omega
    have hge : m ≤ q + 1 := by
      by_contra hlt
      have hmul : (q + 2) * d ≤ m * d := Nat.mul_le_mul_right d (by omega)
      rw [Nat.add_mul] at hmul
      omega
    omega
  · rw [if_pos]
    simp only [Bool.or_eq_true, decide_eq_true_eq, Bool.and_eq_true]
    omega
  · rw [if_neg]
    rw [Nat.add_mul] at hlow hhigh htie
    simp only [Bool.or_eq_true, decide_eq_true_eq, Bool.and_eq_true]
    omega

/-- The same over the quotient itself. -/
theorem roundHalfEven_eq (hd : 0 < d) (hx : (n : ℚ) / d = x) (hlow : (m : ℚ) - 1 / 2 ≤ x)
    (hhigh : x ≤ m + 1 / 2) (htie : m % 2 = 1 → (m : ℚ) - 1 / 2 < x ∧ x < m + 1 / 2) :
    roundHalfEven n d = m := by
  have hd' : (0 : ℚ) < d := Nat.cast_pos.mpr hd
  subst hx
  rw [le_div_iff₀ hd'] at hlow
  rw [div_le_iff₀ hd'] at hhigh
  rw [lt_div_iff₀ hd', div_lt_iff₀ hd'] at htie
  refine roundHalfEven_eq_of_bounds hd ?_ ?_ fun hodd => ?_
  · have hbound : (2 * (m * d) : ℚ) ≤ 2 * n + d := by linarith
    exact_mod_cast hbound
  · have hbound : (2 * n : ℚ) ≤ 2 * (m * d) + d := by linarith
    exact_mod_cast hbound
  · obtain ⟨hlt, hlt'⟩ := htie hodd
    have hbound : (2 * (m * d) : ℚ) < 2 * n + d := by linarith
    have hbound' : (2 * n : ℚ) < 2 * (m * d) + d := by linarith
    exact ⟨by exact_mod_cast hbound, by exact_mod_cast hbound'⟩

/-! ### The exponent of a fraction -/

/-- A fraction divided by a power, without negative exponents. -/
theorem scaled_div (num den base : Nat) (e : Int) :
    ((if e < 0 then num * base ^ e.natAbs else num : Nat) : ℚ) /
        ((if e < 0 then den else den * base ^ e.natAbs : Nat) : ℚ) = num / den / (base : ℚ) ^ e := by
  split
  · next hneg =>
    rw [zpow_of_neg _ hneg, div_inv_eq_mul, Nat.cast_mul, Nat.cast_pow, mul_div_right_comm]
  · next hneg =>
    rw [zpow_of_nonneg _ hneg, Nat.cast_mul, Nat.cast_pow, div_div]

theorem scaleDown_spec (hden : 0 < den) (h : scaleDown num den e = (n, d)) :
    0 < d ∧ (n : ℚ) / d = num / den / 2 ^ e := by
  have hscale := scaled_div num den 2 e
  rw [scaleDown] at h
  split at h <;> obtain ⟨rfl, rfl⟩ := Prod.mk.inj h
  · next hneg =>
    rw [if_pos hneg, if_pos hneg] at hscale
    exact ⟨hden, hscale⟩
  · next hneg =>
    rw [if_neg hneg, if_neg hneg] at hscale
    exact ⟨Nat.mul_pos hden (Nat.two_pow_pos _), hscale⟩

/-- The exponent with which a fraction has 53 bits, or the least one. -/
theorem exponentFor_eq (hnum : 0 < num) (hden : 0 < den) :
    exponentFor num den = max (-1074) (Int.log 2 ((num : ℚ) / den) - 52) := by
  have hden' : (0 : ℚ) < den := Nat.cast_pos.mpr hden
  have hx : (0 : ℚ) < num / den := div_pos (Nat.cast_pos.mpr hnum) hden'
  have hadd : ∀ i j : Int, (2 : ℚ) ^ i * 2 ^ j = 2 ^ (i + j) := fun i j => (zpow_add₀ two_ne_zero i j).symm
  -- the lengths of the two numbers leave two exponents to choose from
  have hlog : (num.log2 : Int) - den.log2 - 1 ≤ Int.log 2 ((num : ℚ) / den) := by
    rw [← Int.zpow_le_iff_le_log one_lt_two hx, Nat.cast_two, le_div_iff₀ hden']
    calc (2 : ℚ) ^ ((num.log2 : Int) - den.log2 - 1) * den
        ≤ 2 ^ ((num.log2 : Int) - den.log2 - 1) * 2 ^ ((den.log2 : Int) + 1) := by
          have hle : (den : ℚ) ≤ 2 ^ ((den.log2 : Int) + 1) := by exact_mod_cast Nat.lt_log2_self.le
          exact mul_le_mul_of_nonneg_left hle (two_zpow_pos _).le
      _ = 2 ^ (num.log2 : Int) := by
          rw [hadd]
          congr 1
          ring
      _ ≤ num := by exact_mod_cast Nat.log2_self_le hnum.ne'
  have hlog' : Int.log 2 ((num : ℚ) / den) < (num.log2 : Int) - den.log2 + 1 := by
    rw [← Int.lt_zpow_iff_log_lt one_lt_two hx, Nat.cast_two, div_lt_iff₀ hden']
    calc (num : ℚ) < 2 ^ ((num.log2 : Int) + 1) := by exact_mod_cast Nat.lt_log2_self
      _ = 2 ^ ((num.log2 : Int) - den.log2 + 1) * 2 ^ (den.log2 : Int) := by
          rw [hadd]
          congr 1
          ring
      _ ≤ 2 ^ ((num.log2 : Int) - den.log2 + 1) * den := by
          have hle : (2 : ℚ) ^ (den.log2 : Int) ≤ den := by exact_mod_cast Nat.log2_self_le hden.ne'
          exact mul_le_mul_of_nonneg_left hle (two_zpow_pos _).le
  rcases hscale : scaleDown num den ((num.log2 : Int) - den.log2 - 53) with ⟨n, d⟩
  obtain ⟨hd, hquot⟩ := scaleDown_spec hden hscale
  have hlt : n < d * 2 ^ 53 ↔ Int.log 2 ((num : ℚ) / den) < (num.log2 : Int) - den.log2 := by
    have hd' : (0 : ℚ) < d := Nat.cast_pos.mpr hd
    rw [← Int.lt_zpow_iff_log_lt one_lt_two hx, Nat.cast_two,
      show (num.log2 : Int) - den.log2 = 53 + ((num.log2 : Int) - den.log2 - 53) by ring, ← hadd,
      ← div_lt_iff₀ (two_zpow_pos _), ← hquot, div_lt_iff₀ hd', mul_comm]
    norm_cast
  simp only [exponentFor, hscale, pow2_eq, hlt]
  congr 1
  split <;> omega

/-! ### The interval around a float -/

/-- The value of a positive finite float. -/
def Binary.value (b : Binary) : ℚ := b.significand * 2 ^ b.exponent

/-- How far the lower end of the interval is from the value, in quarters of the last
place. -/
def Binary.below (b : Binary) : Nat := if b.isPowerStep then 1 else 2

/-- A number is in the interval; at its ends only if it is closed. -/
@[mk_iff]
structure Interval.Has (i : Interval) (x : ℚ) : Prop where
  low : (i.low : ℚ) / i.denominator ≤ x
  high : x ≤ i.high / i.denominator
  inside : i.closed = false → (i.low : ℚ) / i.denominator < x ∧ x < i.high / i.denominator

/-- Quarters of the last place, over a common denominator. -/
theorem quarters_div (k : Nat) (e : Int) :
    ((k * (if e < 0 then 1 else pow2 e.natAbs) : Nat) : ℚ) / ((if e < 0 then pow2 e.natAbs else 1 : Nat) : ℚ)
      = k * 2 ^ e := by
  split
  · next hneg =>
    rw [zpow_of_neg 2 hneg, Nat.mul_one, pow2_eq, Nat.cast_pow, Nat.cast_two, div_eq_mul_inv]
  · next hneg =>
    rw [zpow_of_nonneg 2 hneg, pow2_eq, Nat.cast_mul, Nat.cast_pow, Nat.cast_two, Nat.cast_one, div_one]

namespace Binary

theorem value_eq (b : Binary) : b.value = 4 * b.significand * 2 ^ (b.exponent - 2) := by
  have hquarter : (2 : ℚ) ^ b.exponent = 4 * 2 ^ (b.exponent - 2) := by
    rw [zpow_sub₀ two_ne_zero]
    norm_num
    ring
  rw [value, hquarter]
  ring

theorem interval_value (b : Binary) : (b.interval.value : ℚ) / b.interval.denominator = b.value := by
  refine (quarters_div (4 * b.significand) (b.exponent - 2)).trans ?_
  rw [value_eq, Nat.cast_mul, Nat.cast_ofNat]

theorem interval_high (b : Binary) : (b.interval.high : ℚ) / b.interval.denominator
    = (4 * b.significand + 2) * 2 ^ (b.exponent - 2) := by
  refine (quarters_div (4 * b.significand + 2) (b.exponent - 2)).trans ?_
  push_cast
  rfl

theorem interval_low (hpos : 0 < b.significand) : (b.interval.low : ℚ) / b.interval.denominator
    = (4 * b.significand - b.below) * 2 ^ (b.exponent - 2) := by
  have hle : b.below ≤ 4 * b.significand := by
    rw [below]
    split <;> omega
  refine (quarters_div (4 * b.significand - b.below) (b.exponent - 2)).trans ?_
  rw [Nat.cast_sub hle]
  push_cast
  rfl

end Binary

/-! ### Rounding -/

section

variable (hb : b.Normalized)
include hb

theorem Binary.Normalized.below_cases :
    b.below = 2 ∨ b.below = 1 ∧ b.significand = 2 ^ 52 ∧ b.exponent ≠ -1074 := by
  rw [Binary.below]
  by_cases hstep : b.isPowerStep = true
  · exact .inr ⟨if_pos hstep, hb.step.mp hstep⟩
  · exact .inl (if_neg hstep)

theorem Binary.Normalized.below_le : (b.below : ℚ) ≤ 2 := by
  rcases hb.below_cases with hbelow | ⟨hbelow, -⟩ <;> rw [hbelow] <;> norm_num

/-- The interval in quarters of the last place. -/
theorem bounds_of_has (h : b.interval.Has x) :
    (4 * b.significand - b.below) * 2 ^ (b.exponent - 2) ≤ x ∧
      x ≤ (4 * b.significand + 2) * 2 ^ (b.exponent - 2) ∧
      (b.significand % 2 = 1 → (4 * b.significand - b.below) * 2 ^ (b.exponent - 2) < x ∧
        x < (4 * b.significand + 2) * 2 ^ (b.exponent - 2)) := by
  obtain ⟨hlow, hhigh, hinside⟩ := h
  rw [Binary.interval_low hb.pos] at hlow hinside
  rw [Binary.interval_high] at hhigh hinside
  exact ⟨hlow, hhigh, fun hodd => hinside (decide_eq_false (by omega))⟩

/-- Strictly between the ends of the interval, in quarters of the last place. -/
theorem has_of_lt (hlow : (4 * b.significand - b.below) * 2 ^ (b.exponent - 2) < x)
    (hhigh : x < (4 * b.significand + 2) * 2 ^ (b.exponent - 2)) : b.interval.Has x := by
  rw [← Binary.interval_low hb.pos] at hlow
  rw [← Binary.interval_high] at hhigh
  exact ⟨hlow.le, hhigh.le, fun _ => ⟨hlow, hhigh⟩⟩

theorem has_value : b.interval.Has b.value := by
  have hquarter := two_zpow_pos (b.exponent - 2)
  have hpos : (0 : ℚ) < b.below := by
    rcases hb.below_cases with hbelow | ⟨hbelow, -⟩ <;> rw [hbelow] <;> norm_num
  refine has_of_lt hb ?_ ?_ <;> rw [b.value_eq] <;> nlinarith

theorem pos_of_has (h : b.interval.Has x) : 0 < x := by
  have hquarter := two_zpow_pos (b.exponent - 2)
  have hsignificand : (1 : ℚ) ≤ b.significand := by exact_mod_cast hb.pos
  have hbelow := hb.below_le
  have hlow := (bounds_of_has hb h).1
  nlinarith

/-- A fraction in the interval has the exponent of the float, or it is just below a
float that begins a binade. -/
theorem exponentFor_of_has (hnum : 0 < num) (hden : 0 < den) (h : b.interval.Has ((num : ℚ) / den)) :
    exponentFor num den = b.exponent ∨
      exponentFor num den = b.exponent - 1 ∧ -1074 < b.exponent ∧ b.below = 1 ∧ b.significand = 2 ^ 52 ∧
        (num : ℚ) / den < 2 ^ 54 * 2 ^ (b.exponent - 2) := by
  have hpos := pos_of_has hb h
  obtain ⟨hlow, hhigh, -⟩ := bounds_of_has hb h
  rw [exponentFor_eq hnum hden]
  generalize (num : ℚ) / den = x at hlow hhigh hpos ⊢
  have hquarter := two_zpow_pos (b.exponent - 2)
  have hlog : ∀ k : Nat, 2 ^ k * 2 ^ (b.exponent - 2) ≤ x ↔ b.exponent - 2 + k ≤ Int.log 2 x := by
    intro k
    rw [← zpow_quarter_add]
    exact Int.zpow_le_iff_le_log one_lt_two hpos
  have hge := hb.ge
  -- the upper end is in the same binade
  have hupper : Int.log 2 x < b.exponent + 53 := by
    have hlt : (b.significand : ℚ) + 1 ≤ 2 ^ 53 := by exact_mod_cast hb.lt
    have hnot : ¬2 ^ 55 * 2 ^ (b.exponent - 2) ≤ x := by
      intro hle
      nlinarith
    rw [hlog 55] at hnot
    omega
  by_cases hsame : b.exponent + 52 ≤ Int.log 2 x ∨ b.exponent = -1074
  · left
    omega
  · right
    obtain ⟨hless, hmin⟩ := not_or.mp hsame
    have hxlt : x < 2 ^ 54 * 2 ^ (b.exponent - 2) := by
      by_contra hle
      rw [not_lt, hlog 54] at hle
      omega
    have hleading := hb.leading.resolve_right hmin
    have hsignificand : b.significand = 2 ^ 52 := by
      have hlt := lt_of_mul_lt_mul_right (hlow.trans_lt hxlt) hquarter.le
      have hle := hb.below_le
      have hlt' : (b.significand : ℚ) < 2 ^ 52 + 1 := by linarith
      have hlt'' : b.significand < 2 ^ 52 + 1 := by exact_mod_cast hlt'
      omega
    obtain hbelow | ⟨hbelow, -⟩ := hb.below_cases
    · rw [Binary.below, if_pos (hb.step.mpr ⟨hsignificand, hmin⟩)] at hbelow
      cases hbelow
    rw [hsignificand, hbelow] at hlow
    have hlower : 2 ^ 53 * 2 ^ (b.exponent - 2) ≤ x := by
      refine le_trans (mul_le_mul_of_nonneg_right ?_ hquarter.le) hlow
      norm_num
    rw [hlog 53] at hlower
    exact ⟨by omega, by omega, hbelow, hsignificand, hxlt⟩

/-- In units of its last place the float is rounded to its significand. -/
theorem roundHalfEven_of_has (hd : 0 < d) (hx : b.interval.Has x) (hquot : (n : ℚ) / d = x / 2 ^ b.exponent) :
    roundHalfEven n d = b.significand := by
  obtain ⟨hlow, hhigh, hodd⟩ := bounds_of_has hb hx
  have hquarter := two_zpow_pos (b.exponent - 2)
  have hunit : (2 : ℚ) ^ b.exponent = 4 * 2 ^ (b.exponent - 2) := by
    have hadd := zpow_quarter_add b.exponent 2
    norm_num at hadd
    exact hadd
  have hbelow := mul_le_mul_of_nonneg_right hb.below_le hquarter.le
  rw [hunit] at hquot
  refine roundHalfEven_eq hd hquot ?_ ?_ fun hs => ⟨?_, ?_⟩
  · rw [le_div_iff₀ (by positivity)]
    linarith
  · rw [div_le_iff₀ (by positivity)]
    linarith
  · rw [lt_div_iff₀ (by positivity)]
    linarith [(hodd hs).1]
  · rw [div_lt_iff₀ (by positivity)]
    linarith [(hodd hs).2]

omit hb in
/-- Just below a binade, in units of half the last place, the carry gives a power of two. -/
theorem roundHalfEven_carry (hd : 0 < d) (hlow : (2 ^ 54 - 1) * 2 ^ (e - 2) ≤ x)
    (hhigh : x < 2 ^ 54 * 2 ^ (e - 2)) (hquot : (n : ℚ) / d = x / 2 ^ (e - 1)) :
    roundHalfEven n d = 2 ^ 53 := by
  have hquarter := two_zpow_pos (e - 2)
  have hunit : (2 : ℚ) ^ (e - 1) = 2 * 2 ^ (e - 2) := by
    have hadd := zpow_quarter_add e 1
    rwa [show e - 2 + (1 : Nat) = e - 1 by omega, pow_one] at hadd
  rw [hunit] at hquot
  refine roundHalfEven_eq hd hquot ?_ ?_ fun hs => absurd hs (by decide)
  · rw [le_div_iff₀ (by positivity)]
    refine le_trans (le_of_eq ?_) hlow
    push_cast
    ring
  · rw [div_le_iff₀ (by positivity)]
    refine hhigh.le.trans ?_
    push_cast
    linarith

/-- Every fraction in the interval around a float is rounded to it. -/
theorem nearestBits_of_has (hden : 0 < den) (h : b.interval.Has ((num : ℚ) / den)) :
    nearestBits num den = (b.exponent + 1074).toNat * 2 ^ 52 + b.significand := by
  have hnum : 0 < num := by
    have hpos := pos_of_has hb h
    rw [div_pos_iff_of_pos_right (Nat.cast_pos.mpr hden)] at hpos
    exact_mod_cast hpos
  have hge := hb.ge
  have hle := hb.le
  have hlt := hb.lt
  rcases hscale : scaleDown num den (exponentFor num den) with ⟨n, d⟩
  obtain ⟨hd, hquot⟩ := scaleDown_spec hden hscale
  rcases exponentFor_of_has hb hnum hden h with he | ⟨he, hmin, hbelow, hsignificand, hxlt⟩ <;>
    rw [he] at hscale hquot
  · have hbits := nearestBits_eq hnum.ne' he hscale
    rw [roundHalfEven_of_has hb hd h hquot, pow2_eq] at hbits
    exact hbits (by omega)
  · have hlow := (bounds_of_has hb h).1
    rw [hsignificand, hbelow] at hlow
    have hlow' : (2 ^ 54 - 1) * 2 ^ (b.exponent - 2) ≤ (num : ℚ) / den := by
      refine le_trans (le_of_eq ?_) hlow
      norm_num
    have hbits := nearestBits_eq hnum.ne' he hscale
    rw [roundHalfEven_carry hd hlow' hxlt hquot, pow2_eq] at hbits
    rw [hbits (by omega)]
    omega

end

/-- **Rounding gives the float.**  Every fraction in the interval around a float is
rounded to that float. -/
theorem nearest_of_has (h : Magnitude.ofFloat v = (negative, .finite b)) (hden : 0 < den)
    (hx : b.interval.Has ((num : ℚ) / den)) : nearest negative num den = v := by
  obtain ⟨-, hbits⟩ := toNat_toBits_of_finite h
  exact nearest_eq (by rw [hbits, nearestBits_of_has (normalized_of_finite h) hden hx])

/-! ### Natural numbers -/

/-- The natural number that is the value of a float. -/
theorem natural?_eq_some (hn : b.natural? = some n) :
    (b.exponent < 0 ∧ n * 2 ^ b.exponent.natAbs = b.significand) ∨
      (0 ≤ b.exponent ∧ n = b.significand * 2 ^ b.exponent.natAbs) := by
  simp only [Binary.natural?] at hn
  split at hn
  · next hneg =>
    split at hn
    · next hmod =>
      obtain rfl := Option.some.inj hn
      exact .inl ⟨hneg, Nat.div_mul_cancel (Nat.dvd_of_mod_eq_zero hmod)⟩
    · cases hn
  · next hneg =>
    obtain rfl := Option.some.inj hn
    exact .inr ⟨by omega, rfl⟩

theorem value_of_natural (hn : b.natural? = some n) : b.value = n := by
  rw [Binary.value]
  rcases natural?_eq_some hn with ⟨hneg, hsignificand⟩ | ⟨hnonneg, rfl⟩
  · rw [← hsignificand, zpow_of_neg _ hneg]
    push_cast
    exact mul_inv_cancel_right₀ (by positivity) _
  · rw [zpow_of_nonneg _ (not_lt.mpr hnonneg)]
    push_cast
    rfl

/-- The float nearest to a natural number that is the value of a float is that float. -/
theorem nearest_natural (h : Magnitude.ofFloat v = (negative, .finite b)) (hn : b.natural? = some n) :
    nearest negative n 1 = v := by
  refine nearest_of_has h Nat.one_pos ?_
  rw [Nat.cast_one, div_one, ← value_of_natural hn]
  exact has_value (normalized_of_finite h)

end Formula.Decimal
