/-
Formula/Proofs/Decimal/ConstantText.lean

The text of a constant that is written without an exponent: it is a numeral
(`isNumeral_constantText`), and reading it gives the constant back
(`ofText?_constantText`).

Two layouts occur.  An integer below 10 ^ 15 is written by its digits, and those
stand for a number that a float has, so that rounding gives this float.  Every
other value is written in full, and of that text it is assumed that it reads back.
-/
import Formula.Proofs.Decimal.Rounding
import Formula.Proofs.NumberToken

namespace Formula

variable {whole fraction : List Char}

theorem count_point_of_digits (h : ∀ c ∈ whole, c.isDigit) : whole.count '.' = 0 :=
  List.count_eq_zero.mpr fun hmem => absurd (h '.' hmem) (by decide)

theorem isNumeral_of_digits (h : ∀ c ∈ whole, c.isDigit) (hne : whole ≠ []) : IsNumeral whole where
  chars c hc := isNumeralChar_iff.mpr (.inr (h c hc))
  onePoint := by simp [count_point_of_digits h]
  ne_nil := hne
  ne_point := by
    rintro rfl
    exact absurd (h '.' List.mem_cons_self) (by decide)

/-- Digits, a point, and digits again. -/
theorem isNumeral_of_point (hwhole : ∀ c ∈ whole, c.isDigit) (hne : whole ≠ [])
    (hfraction : ∀ c ∈ fraction, c.isDigit) : IsNumeral (whole ++ '.' :: fraction) where
  chars c hc := by
    rw [isNumeralChar_iff]
    rcases List.mem_append.mp hc with hc | hc
    · exact .inr (hwhole c hc)
    · exact (List.mem_cons.mp hc).imp_right (hfraction c)
  onePoint := by simp [count_point_of_digits hwhole, count_point_of_digits hfraction]
  ne_nil := by simp
  ne_point := by simp [List.append_eq_cons_iff, hne]

namespace Decimal

variable {v : Float} {negative : Bool} {b : Binary} {n : Nat}

theorem isDigit_of_mem_digitChars {c : Char} (hc : c ∈ digitChars n) : c.isDigit :=
  Nat.isDigit_of_mem_toDigits (by decide) (by decide) hc

theorem isDigit_of_mem_zeros {c : Char} {k : Nat} (hc : c ∈ List.replicate k '0') : c.isDigit := by
  rw [List.eq_of_mem_replicate hc]
  rfl

/-! ### The text is a numeral -/

theorem isNumeral_digitChars (n : Nat) : IsNumeral (digitChars n) :=
  isNumeral_of_digits (fun _ => isDigit_of_mem_digitChars) Nat.toDigits_ne_nil

/-- A positional text is a numeral, wherever its point is. -/
theorem isNumeral_positional (layout : Layout) (n : Nat) (point : Int) :
    IsNumeral (layout.positional (digitChars n) point) := by
  have hds : ∀ c ∈ digitChars n, c.isDigit := fun c => isDigit_of_mem_digitChars
  have hne : digitChars n ≠ [] := Nat.toDigits_ne_nil
  generalize digitChars n = ds at hds hne
  unfold Layout.positional
  extract_lets p
  split_ifs with hpoint hlength hkeeps
  · have hzero : ∀ c ∈ ['0'], c.isDigit := fun c => isDigit_of_mem_zeros (k := 1)
    refine isNumeral_of_point hzero nofun fun c hc => ?_
    exact (List.mem_append.mp hc).elim isDigit_of_mem_zeros (hds c)
  · have hpos : p ≠ 0 := by omega
    exact isNumeral_of_point (fun c hc => hds c (List.mem_of_mem_take hc)) (by simp [hpos, hne])
      fun c hc => hds c (List.mem_of_mem_drop hc)
  all_goals
    have hwhole : ∀ c ∈ ds ++ List.replicate (p - ds.length) '0', c.isDigit := fun c hc =>
      (List.mem_append.mp hc).elim (hds c) isDigit_of_mem_zeros
  · have hzero : ∀ c ∈ ['0'], c.isDigit := fun c => isDigit_of_mem_zeros (k := 1)
    exact isNumeral_of_point hwhole (by simp [hne]) hzero
  · rw [List.append_nil]
    exact isNumeral_of_digits hwhole (by simp [hne])

/-- Digits without an exponent are laid out as a numeral. -/
theorem isNumeral_chars {layout : Layout} {d : Digits} (h : 'e' ∉ layout.chars d) :
    IsNumeral (layout.chars d) := by
  simp only [Layout.chars] at h ⊢
  split_ifs at h ⊢ with hpoint
  · exact isNumeral_positional layout d.digits _
  · exact absurd (List.mem_append_right _ List.mem_cons_self) h

/-- Zero without a sign, and the positive finite values, if they are written
without an exponent. -/
structure IsPlain (v : Float) : Prop where
  unsigned : ∃ m, Magnitude.ofFloat v = (false, m) ∧ (m = .zero ∨ ∃ b, m = .finite b)
  positional : 'e' ∉ (constantText v).toList

/-- The text of a finite constant without its sign. -/
def Binary.constantChars (b : Binary) : List Char :=
  match b.natural? with
  | some n => if n < pow10 15 then digitChars n else fullLayout.chars b.shortest
  | none => fullLayout.chars b.shortest

theorem fullText_of_finite (h : Magnitude.ofFloat v = (negative, .finite b)) :
    fullText v = String.ofList ((if negative then ['-'] else []) ++ fullLayout.chars b.shortest) := by
  simp [fullText, Layout.text, h]

theorem constantText_of_finite (h : Magnitude.ofFloat v = (negative, .finite b)) :
    constantText v = String.ofList ((if negative then ['-'] else []) ++ b.constantChars) := by
  simp only [constantText, Binary.constantChars, h, fullText_of_finite h]
  cases b.natural? with
  | none => rfl
  | some n =>
      dsimp only
      split_ifs <;> rfl

/-- What the text of a constant is without its sign. -/
theorem constantChars_cases (b : Binary) :
    (∃ n, b.natural? = some n ∧ n < 10 ^ 15 ∧ b.constantChars = digitChars n) ∨
      b.constantChars = fullLayout.chars b.shortest := by
  unfold Binary.constantChars
  split
  · next n hn =>
    split_ifs with hlt
    · exact .inl ⟨n, hn, hlt, rfl⟩
    · exact .inr rfl
  · exact .inr rfl

theorem constantText_of_zero (h : Magnitude.ofFloat v = (negative, .zero)) :
    constantText v = "0" := by
  simp [constantText, h]

theorem isNumeral_constantText (h : IsPlain v) : IsNumeral (constantText v).toList := by
  obtain ⟨⟨m, hm, rfl | ⟨b, rfl⟩⟩, hplain⟩ := h
  · rw [constantText_of_zero hm]
    exact isNumeral_of_digits (fun c => isDigit_of_mem_zeros (k := 1)) nofun
  · rw [constantText_of_finite hm, String.toList_ofList] at hplain ⊢
    rcases constantChars_cases b with ⟨n, -, -, hchars⟩ | hchars
    · rw [hchars]
      exact isNumeral_digitChars n
    · rw [hchars] at hplain ⊢
      exact isNumeral_chars hplain

/-! ### The text reads back -/

theorem digitsValue_digitChars (n : Nat) : digitsValue (digitChars n) = n :=
  Nat.ofDigitChars_ten_toDigits

theorem readDecimal?_of_digits {cs : List Char} (hdigits : ∀ c ∈ cs, c.isDigit) (hne : cs ≠ []) :
    readDecimal? cs = some (digitsValue cs, 0) := by
  have htake := List.takeWhile_eq_self_iff.mpr hdigits
  have hdrop := List.dropWhile_eq_nil_iff.mpr hdigits
  simp [readDecimal?, htake, hdrop, hne, readExponent?]

/-- The digits of a number that is not too long are read as the nearest float. -/
theorem ofText?_digitChars (h : n < 10 ^ 15) :
    ofText? (String.ofList (digitChars n)) = some (nearest false n 1) := by
  have hdigits : ∀ c ∈ digitChars n, c.isDigit := fun c => isDigit_of_mem_digitChars
  have hne : digitChars n ≠ [] := Nat.toDigits_ne_nil
  have hnumeral : IsNumeral (String.ofList (digitChars n)).toList := by
    rw [String.toList_ofList]
    exact isNumeral_of_digits hdigits hne
  have hlength : (Nat.toDigits 10 n).length ≤ 15 :=
    (Nat.length_toDigits_le_iff (by decide) (by decide)).mpr h
  rw [hnumeral.ofText?_eq, String.toList_ofList, readDecimal?_of_digits hdigits hne,
    digitsValue_digitChars, Option.map_some]
  simp only [ofDecimal, Option.some.injEq, Bool.or_eq_true, decide_eq_true_eq, Int.lt_irrefl, if_false]
  by_cases hzero : n = 0
  · simp [hzero]
  · rw [if_neg (by omega), if_neg (by omega)]
    simp [pow10]

/-- Reading the text of a constant gives the constant back, if that holds of the
text in full. -/
theorem ofText?_constantText (h : IsPlain v) (hfull : ofText? (fullText v) = some v) :
    ofText? (constantText v) = some v := by
  obtain ⟨⟨m, hm, rfl | ⟨b, rfl⟩⟩, -⟩ := h
  · rw [constantText_of_zero hm, ← nearest_zero hm]
    exact ofText?_digitChars (n := 0) (by decide)
  · rw [constantText_of_finite hm]
    rcases constantChars_cases b with ⟨n, hn, hlt, hchars⟩ | hchars
    · rw [hchars, ← nearest_natural hm hn]
      exact ofText?_digitChars hlt
    · rwa [hchars, ← fullText_of_finite hm]

end Decimal

end Formula
