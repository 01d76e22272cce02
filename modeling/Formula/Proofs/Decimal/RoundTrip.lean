/-
Formula/Proofs/Decimal/RoundTrip.lean

Reading the text of a float gives the float back (`ofText?_constantText_of_finite`,
`ofText?_fullText_of_finite`).  Of a text the number is read that its digits stand for,
wherever the point is and whatever the exponent (`readAs_chars`).  That number is in
the interval around the value, so rounding gives the float; and no number in such an
interval is so great or so small that it is recognized by its size
(`ofDecimal_of_has`).

Which layout the shortest digits have depends on their size, but it can be told from
the value as well (`isPositional_shortest_iff`): the digits are on the same side of a
power of ten as the value, or they are that power.
-/
import Formula.Proofs.Decimal.ConstantText
import Formula.Proofs.Decimal.ShortestDigits

namespace Formula.Decimal

variable {v : Float} {negative : Bool} {b : Binary} {x : ℚ} {e : Int} {num den n : Nat} {cs : List Char}

/-! ### Rounding what was read -/

/-- The numbers in the interval around a float are neither great nor small. -/
theorem range_of_has (hb : b.Normalized) (hx : b.interval.Has x) :
    (10 : ℚ) ^ (-400 : Int) ≤ x ∧ x < 10 ^ (400 : Int) := by
  obtain ⟨hlow, hhigh, -⟩ := bounds_of_has hb hx
  have hbelow := hb.below_le
  have hpos : (1 : ℚ) ≤ b.significand := by exact_mod_cast hb.pos
  have hlt : (b.significand : ℚ) + 1 ≤ 2 ^ 53 := by exact_mod_cast hb.lt
  have hmono : ∀ {i j : Int}, i ≤ j → (2 : ℚ) ^ i ≤ 2 ^ j := fun h => zpow_le_zpow_right₀ one_le_two h
  have hten : (2 : ℚ) ^ (1200 : Int) ≤ 10 ^ (400 : Int) := by
    rw [show (1200 : Int) = 3 * 400 by rfl, zpow_mul]
    exact zpow_le_zpow_left₀ (by decide) (by norm_num) (by norm_num)
  constructor
  · calc (10 : ℚ) ^ (-400 : Int) ≤ 2 ^ (-1200 : Int) := by
          rw [zpow_neg, zpow_neg]
          exact inv_anti₀ (two_zpow_pos _) hten
      _ ≤ 2 ^ (-1076 : Int) := hmono (by decide)
      _ ≤ 2 ^ (b.exponent - 2) := hmono (by linarith [hb.ge])
      _ ≤ (4 * b.significand - b.below) * 2 ^ (b.exponent - 2) :=
          le_mul_of_one_le_left (two_zpow_pos _).le (by linarith)
      _ ≤ x := hlow
  · calc x ≤ (4 * b.significand + 2) * 2 ^ (b.exponent - 2) := hhigh
      _ ≤ 2 ^ 55 * 2 ^ (b.exponent - 2) := mul_le_mul_of_nonneg_right (by linarith) (two_zpow_pos _).le
      _ = 2 ^ (b.exponent - 2 + 55) := (zpow_quarter_add b.exponent 55).symm
      _ < 2 ^ (1200 : Int) := zpow_lt_zpow_right₀ one_lt_two (by linarith [hb.le])
      _ ≤ 10 ^ (400 : Int) := hten

/-- The size of a number, by its digits. -/
theorem digits_bounds (h : 0 < (n : ℚ) * 10 ^ e) :
    (10 : ℚ) ^ (digitCount n + e - 1) ≤ n * 10 ^ e ∧ (n : ℚ) * 10 ^ e < 10 ^ (digitCount n + e) := by
  have hunit := ten_zpow_pos e
  have hn : 0 < n := by exact_mod_cast pos_of_mul_pos_left h hunit.le
  obtain ⟨hlow, hhigh⟩ := digitCount_bounds hn
  have hpos := digitCount_pos n
  rw [show (digitCount n : Int) + e - 1 = (digitCount n - 1 : Nat) + e by omega, ← ten_zpow_mul,
    ← ten_zpow_mul, zpow_natCast, zpow_natCast]
  constructor
  · exact mul_le_mul_of_nonneg_right (by exact_mod_cast hlow) hunit.le
  · exact mul_lt_mul_of_pos_right (by exact_mod_cast hhigh) hunit

/-- **Reading rounds to the float.**  A number in the interval around a float is read
as that float. -/
theorem ofDecimal_of_has (h : Magnitude.ofFloat v = (negative, .finite b))
    (hx : b.interval.Has (n * 10 ^ e)) : ofDecimal negative n e = v := by
  have hb := normalized_of_finite h
  have hpos := pos_of_has hb hx
  have hn : 0 < n := by exact_mod_cast pos_of_mul_pos_left hpos (ten_zpow_pos e).le
  obtain ⟨hlow, hhigh⟩ := range_of_has hb hx
  obtain ⟨hlow', hhigh'⟩ := digits_bounds hpos
  have hsmall := (zpow_lt_zpow_iff_right₀ (by norm_num : (1 : ℚ) < 10)).mp (hlow.trans_lt hhigh')
  have hgreat := (zpow_lt_zpow_iff_right₀ (by norm_num : (1 : ℚ) < 10)).mp (hlow'.trans_lt hhigh)
  simp only [digitCount] at hsmall hgreat
  simp only [ofDecimal, Bool.or_eq_true, decide_eq_true_eq]
  rw [if_neg (by omega), if_neg (by omega)]
  split
  · next hneg =>
    refine nearest_of_has h (Nat.pow_pos (by decide)) ?_
    rw [zpow_of_neg _ hneg] at hx
    simpa [pow10, div_eq_mul_inv] using hx
  · next hneg =>
    refine nearest_of_has h Nat.one_pos ?_
    rw [zpow_of_nonneg _ hneg] at hx
    simpa [pow10] using hx

/-! ### Reading a positional text -/

theorem digitsValue_append (cs ds : List Char) :
    digitsValue (cs ++ ds) = 10 ^ ds.length * digitsValue cs + digitsValue ds :=
  (Nat.ofDigitChars_append 0).trans Nat.ofDigitChars_eq_ofDigitChars_zero

theorem digitsValue_zeros (k : Nat) : digitsValue (List.replicate k '0') = 0 :=
  Nat.ofDigitChars_replicate_zero.trans (Nat.mul_zero _)

theorem digitsValue_zeros_append (k : Nat) (cs : List Char) :
    digitsValue (List.replicate k '0' ++ cs) = digitsValue cs := by
  rw [digitsValue_append, digitsValue_zeros, Nat.mul_zero, Nat.zero_add]

theorem digitsValue_append_zeros (cs : List Char) (k : Nat) :
    digitsValue (cs ++ List.replicate k '0') = 10 ^ k * digitsValue cs := by
  rw [digitsValue_append, digitsValue_zeros, Nat.add_zero, List.length_replicate]

/-- A text is read as a number. -/
def ReadAs (cs : List Char) (x : ℚ) : Prop :=
  ∃ n e, readDecimal? cs = some (n, e) ∧ (n : ℚ) * 10 ^ e = x

/-- What may follow the digits: an exponent, or nothing. -/
structure IsExponent (tail : List Char) (e : Int) : Prop where
  ends : ∀ c ∈ tail.head?, ¬isNumeralChar c
  read : readExponent? tail = some e

theorem isExponent_nil : IsExponent [] 0 := ⟨nofun, rfl⟩

/-- An exponent is written with a sign and digits. -/
theorem exists_exponentChars_eq (e : Int) : ∃ ds, exponentChars e = (if e < 0 then '-' else '+') :: ds ∧
    (∀ c ∈ ds, c.isDigit) ∧ ds ≠ [] ∧ digitsValue ds = e.natAbs := by
  have hdigits : ∀ c ∈ digitChars e.natAbs, c.isDigit := fun c => isDigit_of_mem_digitChars
  have hvalue := digitsValue_digitChars e.natAbs
  by_cases hshort : (digitChars e.natAbs).length < 2
  · refine ⟨'0' :: digitChars e.natAbs, by simp [exponentChars, hshort], ?_, nofun, ?_⟩
    · exact List.forall_mem_cons.mpr ⟨rfl, hdigits⟩
    · rw [← List.singleton_append, ← List.replicate_one, digitsValue_zeros_append, hvalue]
  · exact ⟨digitChars e.natAbs, by simp [exponentChars, hshort], hdigits, Nat.toDigits_ne_nil, hvalue⟩

theorem isExponent_exponentChars (e : Int) : IsExponent ('e' :: exponentChars e) e := by
  obtain ⟨ds, heq, hdigits, hne, hvalue⟩ := exists_exponentChars_eq e
  constructor
  · rintro c ⟨⟩
    decide
  · have hall : ds.all Char.isDigit = true := List.all_eq_true.mpr hdigits
    rw [heq]
    split
    · next hneg => simp [readExponent?, takeSign, hall, hne, hvalue, abs_of_neg hneg]
    · next hneg => simp [readExponent?, takeSign, hall, hne, hvalue, not_lt.mp hneg]

section

variable {whole fraction tail : List Char}

theorem takeWhile_isDigit_append (hwhole : ∀ c ∈ whole, c.isDigit) (hends : ∀ c ∈ tail.head?, ¬c.isDigit) :
    (whole ++ tail).takeWhile Char.isDigit = whole ∧ (whole ++ tail).dropWhile Char.isDigit = tail := by
  rw [List.takeWhile_append_of_pos hwhole, List.dropWhile_append_of_pos hwhole]
  cases tail with
  | nil => simp
  | cons c tail =>
      have hc : c.isDigit = false := by simpa using hends c rfl
      simp [hc]

theorem IsExponent.not_isDigit (h : IsExponent tail e) : ∀ c ∈ tail.head?, ¬c.isDigit := fun c hc hdigit =>
  h.ends c hc (isNumeralChar_iff.mpr (.inr hdigit))

/-- Digits, and what may follow them. -/
theorem readAs_of_digits (hwhole : ∀ c ∈ whole, c.isDigit) (hne : whole ≠ []) (htail : IsExponent tail e)
    (hx : (digitsValue whole : ℚ) * 10 ^ e = x) : ReadAs (whole ++ tail) x := by
  obtain ⟨htake, hdrop⟩ := takeWhile_isDigit_append hwhole htail.not_isDigit
  refine ⟨digitsValue whole, e, ?_, hx⟩
  unfold readDecimal?
  rw [htake, hdrop]
  have hread := htail.read
  cases tail with
  | nil => simp [hne, hread]
  | cons c tail =>
      have hpoint : c ≠ '.' := fun hc => htail.ends c rfl (isNumeralChar_iff.mpr (.inl hc))
      simp [hne, hread, hpoint]

/-- Digits, a point and digits again, and what may follow them. -/
theorem readAs_of_point (hwhole : ∀ c ∈ whole, c.isDigit) (hne : whole ≠ [])
    (hfraction : ∀ c ∈ fraction, c.isDigit) (htail : IsExponent tail e)
    (hx : (digitsValue (whole ++ fraction) : ℚ) * 10 ^ (e - fraction.length) = x) :
    ReadAs (whole ++ '.' :: (fraction ++ tail)) x := by
  have hpoint : ∀ c ∈ ('.' :: (fraction ++ tail)).head?, ¬c.isDigit := by
    rintro c ⟨⟩
    decide
  obtain ⟨htake, hdrop⟩ := takeWhile_isDigit_append hwhole hpoint
  obtain ⟨htake', hdrop'⟩ := takeWhile_isDigit_append hfraction htail.not_isDigit
  refine ⟨digitsValue (whole ++ fraction), e - fraction.length, ?_, hx⟩
  unfold readDecimal?
  rw [htake, hdrop]
  simp [hne, htail.read, htake', hdrop']

end

/-- Of a positional text the number is read whose digits were written. -/
theorem readAs_positional (layout : Layout) (n : Nat) (point : Int) :
    ReadAs (layout.positional (digitChars n) point) (n * 10 ^ (point - digitCount n)) := by
  have hdigits : ∀ c ∈ digitChars n, c.isDigit := fun c => isDigit_of_mem_digitChars
  have hne : digitChars n ≠ [] := Nat.toDigits_ne_nil
  have hzero : ∀ c ∈ ['0'], c.isDigit := fun c => isDigit_of_mem_zeros (k := 1)
  have hvalue : digitsValue (digitChars n) = n := digitsValue_digitChars n
  have hlength : (digitChars n).length = digitCount n := rfl
  generalize digitChars n = ds at hdigits hne hvalue hlength ⊢
  rw [← hlength, ← hvalue, ← List.append_nil (layout.positional ds point)]
  unfold Layout.positional
  extract_lets p
  split_ifs with hpoint hinside hkeeps
  · have hfraction : ∀ c ∈ List.replicate point.natAbs '0' ++ ds, c.isDigit := fun c hc =>
      (List.mem_append.mp hc).elim isDigit_of_mem_zeros (hdigits c)
    refine readAs_of_point hzero nofun hfraction isExponent_nil ?_
    change (digitsValue (List.replicate (point.natAbs + 1) '0' ++ ds) : ℚ)
      * 10 ^ (0 - ((List.replicate point.natAbs '0' ++ ds).length : Int)) = _
    rw [digitsValue_zeros_append, List.length_append, List.length_replicate]
    congr 2
    omega
  · have hwhole : ds.take p ≠ [] := by
      have hpos : p ≠ 0 := by omega
      simp [hpos, hne]
    rw [List.append_assoc]
    refine readAs_of_point (fun c hc => hdigits c (List.mem_of_mem_take hc)) hwhole
      (fun c hc => hdigits c (List.mem_of_mem_drop hc)) isExponent_nil ?_
    rw [List.take_append_drop, List.length_drop]
    congr 2
    omega
  all_goals
    have hwhole : ∀ c ∈ ds ++ List.replicate (p - ds.length) '0', c.isDigit := fun c hc =>
      (List.mem_append.mp hc).elim (hdigits c) isDigit_of_mem_zeros
    have hpower : point - ds.length = (p - ds.length : Nat) := by omega
    rw [hpower, zpow_natCast]
  · rw [List.append_assoc]
    refine readAs_of_point hwhole (by simp [hne]) hzero isExponent_nil ?_
    rw [show ['0'] = List.replicate 1 '0' from rfl, digitsValue_append_zeros, digitsValue_append_zeros,
      List.length_replicate, Nat.cast_one, zero_sub, zpow_neg_one]
    push_cast
    ring
  · rw [List.append_nil]
    refine readAs_of_digits hwhole (by simp [hne]) isExponent_nil ?_
    rw [digitsValue_append_zeros, zpow_zero]
    push_cast
    ring

/-- And so it is with an exponent. -/
theorem readAs_scientific (n : Nat) (e : Int) :
    ReadAs (scientific (digitChars n) e) (n * 10 ^ (e + 1 - digitCount n)) := by
  have hdigits : ∀ c ∈ digitChars n, c.isDigit := fun c => isDigit_of_mem_digitChars
  have hne : digitChars n ≠ [] := Nat.toDigits_ne_nil
  have hvalue : digitsValue (digitChars n) = n := digitsValue_digitChars n
  have hlength : (digitChars n).length = digitCount n := rfl
  generalize digitChars n = ds at hdigits hne hvalue hlength ⊢
  rw [← hlength, ← hvalue]
  match ds with
  | [] => exact absurd rfl hne
  | [d] =>
      refine readAs_of_digits hdigits hne (isExponent_exponentChars e) ?_
      rw [List.length_singleton, Nat.cast_one, add_sub_cancel_right]
  | d :: next :: rest =>
      obtain ⟨hd, hrest⟩ := List.forall_mem_cons.mp hdigits
      have hwhole : ∀ c ∈ [d], c.isDigit := List.forall_mem_singleton.mpr hd
      refine readAs_of_point hwhole nofun hrest (isExponent_exponentChars e) ?_
      rw [List.singleton_append]
      congr 2
      simp only [List.length_cons]
      omega

/-! ### Which numbers are written positionally -/

/-- The position of the decimal point. -/
def Digits.point (d : Digits) : Int := digitCount d.digits + d.exponent

/-- The digits are written positionally. -/
def Layout.IsPositional (layout : Layout) (d : Digits) : Prop :=
  layout.lowest < d.point ∧ d.point ≤ layout.highest + 1

theorem chars_of_isPositional {layout : Layout} {d : Digits} (h : layout.IsPositional d) :
    layout.chars d = layout.positional (digitChars d.digits) d.point := by
  rw [Layout.IsPositional, Digits.point] at h
  simp only [Layout.chars, Bool.and_eq_true, decide_eq_true_eq]
  exact if_pos h

theorem chars_of_not_isPositional {layout : Layout} {d : Digits} (h : ¬layout.IsPositional d) :
    layout.chars d = scientific (digitChars d.digits) (d.point - 1) := by
  rw [Layout.IsPositional, Digits.point] at h
  simp only [Layout.chars, Bool.and_eq_true, decide_eq_true_eq]
  exact if_neg h

/-- Of every text of digits the number is read that they stand for. -/
theorem readAs_chars (layout : Layout) (d : Digits) : ReadAs (layout.chars d) d.value := by
  have hexponent : d.point - digitCount d.digits = d.exponent := add_sub_cancel_left _ _
  by_cases h : layout.IsPositional d
  · have hread := readAs_positional layout d.digits d.point
    rw [hexponent] at hread
    rwa [chars_of_isPositional h]
  · have hread := readAs_scientific d.digits (d.point - 1)
    rw [sub_add_cancel, hexponent] at hread
    rwa [chars_of_not_isPositional h]

theorem Digits.ten_zpow_le_value_iff {d : Digits} (hd : 0 < d.value) :
    (10 : ℚ) ^ e ≤ d.value ↔ e < d.point := by
  obtain ⟨hlow, hhigh⟩ := digits_bounds hd
  have hlog := log_eq (e := d.point - 1) hd hlow (by rwa [sub_add_cancel])
  rw [ten_zpow_le_iff hd, hlog, Int.le_sub_one_iff]

theorem isPositional_fullLayout_iff {d : Digits} (hd : 0 < d.value) :
    fullLayout.IsPositional d ↔ (10 : ℚ) ^ (-4 : Int) ≤ d.value ∧ d.value < 10 ^ (16 : Int) := by
  rw [← not_le (a := (10 : ℚ) ^ (16 : Int)), d.ten_zpow_le_value_iff hd, d.ten_zpow_le_value_iff hd, not_lt]
  rfl

/-- A float is known by the bits of a fraction that is in its interval. -/
theorem eq_of_has (hb : b.Normalized) (hden : 0 < den) (hx : b.interval.Has ((num : ℚ) / den))
    {c : Binary} (hc : c.Normalized)
    (hbits : nearestBits num den = (c.exponent + 1074).toNat * 2 ^ 52 + c.significand) : b.value = c.value := by
  have hsame := (nearestBits_of_has hb hden hx).symm.trans hbits
  obtain ⟨-, hlt, hge, -, hleading, -⟩ := hb
  obtain ⟨-, hlt', hge', -, hleading', -⟩ := hc
  have hexponent : b.exponent = c.exponent := by omega
  have hsignificand : b.significand = c.significand := by omega
  rw [Binary.value, Binary.value, hexponent, hsignificand]

/-- The digits that are printed reach a power of ten if the value does.  It is assumed
that no float less than the power has it in its interval. -/
theorem ten_zpow_le_value_shortest_iff (hb : b.Normalized)
    (hpower : b.interval.Has (10 ^ e) → (10 : ℚ) ^ e ≤ b.value) :
    (10 : ℚ) ^ e ≤ b.shortest.value ↔ (10 : ℚ) ^ e ≤ b.value := by
  have hhas := has_value_shortest hb
  obtain ⟨hlow, hhigh⟩ := value_shortest_bounds hb
  constructor
  · intro h
    by_contra hless
    have hpoint : b.point ≤ e := not_lt.mp fun hlt => hless (hb.ten_zpow_le_value_iff.mpr hlt)
    have hequal : b.shortest.value = 10 ^ e := le_antisymm (hhigh.trans (ten_zpow_le hpoint)) h
    rw [hequal] at hhas
    exact hless (hpower hhas)
  · intro h
    exact (ten_zpow_le (Int.le_sub_one_of_lt (hb.ten_zpow_le_value_iff.mp h))).trans hlow

/-- Whether the shortest digits are written positionally can be told from the value. -/
theorem isPositional_shortest_iff (hb : b.Normalized) :
    fullLayout.IsPositional b.shortest ↔ (10 : ℚ) ^ (-4 : Int) ≤ b.value ∧ b.value < 10 ^ (16 : Int) := by
  have hsmall : b.interval.Has (10 ^ (-4 : Int)) → (10 : ℚ) ^ (-4 : Int) ≤ b.value := by
    intro hx
    rw [show (10 : ℚ) ^ (-4 : Int) = (1 : Nat) / (10000 : Nat) by norm_num] at hx ⊢
    rw [eq_of_has (c := ⟨7378697629483821, -66, false⟩) hb (by decide) hx
      ⟨by decide, by decide, by decide, by decide, by decide, by decide⟩ (by decide +kernel)]
    norm_num [Binary.value]
  have hgreat : b.interval.Has (10 ^ (16 : Int)) → (10 : ℚ) ^ (16 : Int) ≤ b.value := by
    intro hx
    rw [show (10 : ℚ) ^ (16 : Int) = (10000000000000000 : Nat) / (1 : Nat) by norm_num] at hx ⊢
    rw [eq_of_has (c := ⟨5000000000000000, 1, false⟩) hb (by decide) hx
      ⟨by decide, by decide, by decide, by decide, by decide, by decide⟩ (by decide +kernel)]
    norm_num [Binary.value]
  rw [isPositional_fullLayout_iff (pos_of_has hb (has_value_shortest hb)),
    ten_zpow_le_value_shortest_iff hb hsmall, ← not_le, ten_zpow_le_value_shortest_iff hb hgreat, not_le]

/-! ### The text of a constant -/

/-- What is printed is read as a number in the interval around the value. -/
theorem readAs_constantChars (hb : b.Normalized) : ∃ x, ReadAs b.constantChars x ∧ b.interval.Has x := by
  rcases constantChars_cases b with ⟨n, hn, -, hchars⟩ | hchars
  · have hread : ReadAs (digitChars n ++ []) n :=
      readAs_of_digits (fun c => isDigit_of_mem_digitChars) Nat.toDigits_ne_nil isExponent_nil
        (by rw [digitsValue_digitChars, zpow_zero, mul_one])
    rw [List.append_nil, ← hchars] at hread
    rw [← value_of_natural hn] at hread
    exact ⟨b.value, hread, has_value hb⟩
  · exact ⟨b.shortest.value, hchars ▸ readAs_chars fullLayout b.shortest, has_value_shortest hb⟩

/-- The digits before the exponent are a numeral. -/
theorem exists_scientific_eq (n : Nat) (e : Int) :
    ∃ mantissa, scientific (digitChars n) e = mantissa ++ 'e' :: exponentChars e ∧ IsNumeral mantissa := by
  have hdigits : ∀ c ∈ digitChars n, c.isDigit := fun c => isDigit_of_mem_digitChars
  have hne : digitChars n ≠ [] := Nat.toDigits_ne_nil
  generalize digitChars n = ds at hdigits hne ⊢
  match ds with
  | [] => exact absurd rfl hne
  | [d] => exact ⟨[d], rfl, isNumeral_of_digits hdigits hne⟩
  | d :: next :: rest =>
      obtain ⟨hd, hrest⟩ := List.forall_mem_cons.mp hdigits
      have hwhole : ∀ c ∈ [d], c.isDigit := List.forall_mem_singleton.mpr hd
      exact ⟨[d] ++ '.' :: next :: rest, rfl, isNumeral_of_point hwhole nofun hrest⟩

/-- A text that reads as a number, with a sign before it or without. -/
structure IsUnsigned (cs : List Char) : Prop where
  bare : ∀ c ∈ cs, IsBare c
  starts : ∃ c ∈ cs.head?, isNumeralChar c

theorem isUnsigned_of_isNumeral (h : IsNumeral cs) : IsUnsigned cs := by
  obtain ⟨c, rest, rfl⟩ := List.exists_cons_of_ne_nil h.ne_nil
  exact ⟨fun d hd => isBare_of_isNumeralChar (h.chars d hd), c, rfl, h.chars c List.mem_cons_self⟩

theorem isUnsigned_scientific (n : Nat) (e : Int) : IsUnsigned (scientific (digitChars n) e) := by
  obtain ⟨mantissa, heq, hmantissa⟩ := exists_scientific_eq n e
  obtain ⟨ds, hexponent, hdigits, -⟩ := exists_exponentChars_eq e
  obtain ⟨hbare, c, hc, hnumeral⟩ := isUnsigned_of_isNumeral hmantissa
  have hletter : IsBare 'e' := ⟨by decide, by decide, by decide⟩
  have hsign : IsBare (if e < 0 then '-' else '+') := by
    split <;> exact ⟨by decide, by decide, by decide⟩
  have htail : ∀ d ∈ ds, IsBare d := fun d hd =>
    isBare_of_isNumeralChar (isNumeralChar_iff.mpr (.inr (hdigits d hd)))
  rw [heq, hexponent]
  refine ⟨fun d hd => ?_, c, by simp [Option.mem_def.mp hc], hnumeral⟩
  rcases List.mem_append.mp hd with hd | hd
  · exact hbare d hd
  · exact List.forall_mem_cons.mpr ⟨hletter, List.forall_mem_cons.mpr ⟨hsign, htail⟩⟩ d hd

theorem isUnsigned_chars (layout : Layout) (d : Digits) : IsUnsigned (layout.chars d) := by
  by_cases h : layout.IsPositional d
  · rw [chars_of_isPositional h]
    exact isUnsigned_of_isNumeral (isNumeral_positional layout d.digits d.point)
  · rw [chars_of_not_isPositional h]
    exact isUnsigned_scientific _ _

theorem isUnsigned_constantChars (b : Binary) : IsUnsigned b.constantChars := by
  rcases constantChars_cases b with ⟨n, -, -, hchars⟩ | hchars
  · rw [hchars]
    exact isUnsigned_of_isNumeral (isNumeral_digitChars n)
  · rw [hchars]
    exact isUnsigned_chars _ _

/-- What is read as a number in the interval around a float is read as the float, with
its sign. -/
theorem ofText?_of_readAs (h : Magnitude.ofFloat v = (negative, .finite b)) (hcs : IsUnsigned cs)
    (hread : ReadAs cs x) (hx : b.interval.Has x) :
    ofText? (String.ofList ((if negative then ['-'] else []) ++ cs)) = some v := by
  obtain ⟨n, e, hdecimal, rfl⟩ := hread
  obtain ⟨hbare, c, hc, hnumeral⟩ := hcs
  obtain ⟨rest, rfl⟩ : ∃ rest, cs = c :: rest := by
    cases cs with
    | nil => cases hc
    | cons d rest =>
        obtain rfl := Option.some.inj hc
        exact ⟨rest, rfl⟩
  have hminus : IsBare '-' := ⟨by decide, by decide, by decide⟩
  have hall : ∀ d ∈ (if negative then ['-'] else []) ++ c :: rest, IsBare d := by
    cases negative with
    | false => exact hbare
    | true => exact List.forall_mem_cons.mpr ⟨hminus, hbare⟩
  have hsign : takeSign ((if negative then ['-'] else []) ++ c :: rest) = (negative, c :: rest) := by
    cases negative with
    | false =>
        have hnotMinus : c ≠ '-' := by
          rintro rfl
          cases hnumeral
        have hnotPlus : c ≠ '+' := by
          rintro rfl
          cases hnumeral
        simp [takeSign, hnotMinus, hnotPlus]
    | true => rfl
  rw [← String.toList_ofList (l := (if negative then ['-'] else []) ++ c :: rest)] at hall hsign
  rw [ofText?_of_takeSign hall hsign ⟨c, rfl, hnumeral⟩, hdecimal, Option.map_some,
    ofDecimal_of_has h hx]

/-- **Constants read back.**  The text of a float that is finite and not zero is read as
that float; and likewise the text in full. -/
theorem ofText?_constantText_of_finite (h : Magnitude.ofFloat v = (negative, .finite b)) :
    ofText? (constantText v) = some v := by
  obtain ⟨x, hread, hx⟩ := readAs_constantChars (normalized_of_finite h)
  rw [constantText_of_finite h]
  exact ofText?_of_readAs h (isUnsigned_constantChars b) hread hx

theorem ofText?_fullText_of_finite (h : Magnitude.ofFloat v = (negative, .finite b)) :
    ofText? (fullText v) = some v := by
  rw [fullText_of_finite h]
  exact ofText?_of_readAs h (isUnsigned_chars _ _) (readAs_chars _ _)
    (has_value_shortest (normalized_of_finite h))

end Formula.Decimal
