/-
Formula/Proofs/Decimal/ReadingBack.lean

What the scan makes of the text of a constant.  The text as a whole is read as the
constant (`ofText?_constantText_of_finite`), but the scan knows no exponents: a
positional text is one number for it, with a minus sign before it for a negative
constant, and of a text with an exponent it makes a number, the identifier `e`, a sign
and another number (`lexes_scientific`).

So a finite constant reads back through the scan exactly if it is zero, or at least
10 ^ -4 and less than 10 ^ 16 apart from its sign.
-/
import Formula.Proofs.Decimal.Comparing
import Formula.Proofs.Decimal.RoundTrip
import Formula.Proofs.Lexing

namespace Formula.Decimal

open Scan

variable {v : Float} {negative : Bool} {b : Binary}

/-! ### Values that are written positionally -/

/-- The value is neither great nor small, so that no exponent is written. -/
def Binary.IsPlain (b : Binary) : Prop := (10 : ℚ) ^ (-4 : Int) ≤ b.value ∧ b.value < 10 ^ (16 : Int)

theorem isNumeral_constantChars (hb : b.Normalized) (h : b.IsPlain) : IsNumeral b.constantChars := by
  rcases constantChars_cases b with ⟨n, -, -, hchars⟩ | hchars
  · rw [hchars]
    exact isNumeral_digitChars n
  · rw [hchars, chars_of_isPositional ((isPositional_shortest_iff hb).mpr h)]
    exact isNumeral_positional fullLayout _ _

theorem constantChars_of_not_isPlain (hb : b.Normalized) (h : ¬b.IsPlain) :
    ∃ n e, b.constantChars = scientific (digitChars n) e := by
  rcases constantChars_cases b with ⟨n, hn, hlt, -⟩ | hchars
  · -- an integer below 10 ^ 15 is at least one
    refine absurd ⟨?_, ?_⟩ h <;> rw [value_of_natural hn]
    · have hpos : 0 < n := by
        have hvalue := hb.value_pos
        rw [value_of_natural hn] at hvalue
        exact_mod_cast hvalue
      have hone : (1 : ℚ) ≤ n := by exact_mod_cast hpos
      exact le_trans (by norm_num) hone
    · have hlt' : (n : ℚ) < 10 ^ 15 := by exact_mod_cast hlt
      exact hlt'.trans (by norm_num)
  · rw [hchars, chars_of_not_isPositional fun hp => h ((isPositional_shortest_iff hb).mp hp)]
    exact ⟨_, _, rfl⟩

/-- Of floats it can be told by the floats nearest to the two bounds. -/
theorem isPlain_iff (h : Magnitude.ofFloat v = (negative, .finite b)) :
    b.IsPlain ↔ 1e-4 ≤ v.abs ∧ v.abs < 1e16 := by
  have hb := normalized_of_finite h
  have hlow : Magnitude.ofFloat 1e-4 = (false, .finite ⟨7378697629483821, -66, false⟩) := rfl
  have hhigh : Magnitude.ofFloat 1e16 = (false, .finite ⟨5000000000000000, 1, false⟩) := rfl
  have habs : (1e-4 : Float).abs = 1e-4 ∧ (1e16 : Float).abs = 1e16 := by decide +kernel
  rw [← habs.1, ← habs.2, abs_le_abs_iff hlow h, abs_lt_abs_iff h hhigh]
  refine and_congr ⟨fun hvalue => ?_, fun hle => le_trans ?_ hle⟩ ?_
  · -- the float below is less than 10 ^ -4
    by_contra hless
    have hbelow : Binary.Normalized ⟨7378697629483820, -66, false⟩ :=
      ⟨by decide, by decide, by decide, by decide, by decide, by decide⟩
    rw [(normalized_of_finite hlow).value_le_iff hb] at hless
    have hle : b.value ≤ Binary.value ⟨7378697629483820, -66, false⟩ := by
      rw [hb.value_le_iff hbelow]
      dsimp only at hless ⊢
      omega
    have hsmall := hvalue.trans hle
    norm_num [Binary.value] at hsmall
  · norm_num [Binary.value]
  · norm_num [Binary.value]

/-! ### The tokens of a text -/

theorem lexes_of_isNumeral {cs : List Char} (h : IsNumeral cs) : Lexes cs [.number (String.ofList cs)] := by
  have hnumeral : IsNumeral (String.ofList cs).toList := by rwa [String.toList_ofList]
  have hlexes := lexes_numeral hnumeral
  rwa [String.toList_ofList] at hlexes

theorem tokenize_of_lexes {cs : List Char} {ts : List Token} (h : Lexes cs ts) :
    tokenize (String.ofList cs) = .ok ts :=
  Lexes.tokenize_eq (by rwa [String.toList_ofList])

/-- A sign is a token of its own. -/
theorem tokenize_sign {cs : List Char} {ts : List Token} (negative : Bool) (h : Lexes cs ts) :
    tokenize (String.ofList ((if negative then ['-'] else []) ++ cs))
      = .ok ((if negative then [.minus] else []) ++ ts) := by
  cases negative with
  | false => exact tokenize_of_lexes h
  | true => exact tokenize_of_lexes (Lexes.symbol rfl h)

theorem isName_e : IsName "e" where
  chars := ⟨'e', [], rfl, by decide, nofun⟩
  notKeyword := by decide

/-- The scan knows no exponents. -/
theorem lexes_scientific (n : Nat) (e : Int) : ∃ mantissa op power, op ∈ [Token.plus, .minus] ∧
    Lexes (scientific (digitChars n) e) [.number mantissa, .identifier "e", op, .number power] := by
  obtain ⟨mantissa, heq, hmantissa⟩ := exists_scientific_eq n e
  obtain ⟨ds, hexponent, hdigits, hne, -⟩ := exists_exponentChars_eq e
  have hpower := lexes_of_isNumeral (isNumeral_of_digits hdigits hne)
  obtain ⟨op, hop, hsymbol⟩ : ∃ op ∈ [Token.plus, .minus],
      Token.ofSymbol? (if e < 0 then '-' else '+') = some op := by
    split
    · exact ⟨.minus, by simp, rfl⟩
    · exact ⟨.plus, by simp, rfl⟩
  have hends : EndsToken (exponentChars e) := by
    rw [hexponent]
    rintro c ⟨⟩
    exact .inl ⟨op, hsymbol⟩
  have htail := Lexes.symbol hsymbol hpower
  rw [← hexponent] at htail
  have hname := Lexes.name isName_e (hends.endsAt (.word [])) htail
  have hnumeral : IsNumeral (String.ofList mantissa).toList := by rwa [String.toList_ofList]
  have hlexes := Lexes.numeral hnumeral (isExponent_exponentChars e).ends hname
  rw [String.toList_ofList] at hlexes
  exact ⟨_, op, _, hop, heq ▸ hlexes⟩

/-! ### Reading back -/

/-- The text of a constant is one number, or a minus sign and one number, and what is
read, negated after a minus sign, is equal to the constant. -/
def ReadsBack (v : Float) : Prop :=
  ∃ w u, ofText? w = some u ∧
    (tokenize (constantText v) = .ok [.number w] ∧ (u == v) = true ∨
      tokenize (constantText v) = .ok [.minus, .number w] ∧ (-u == v) = true)

/-- The text of a constant is a number with an exponent, which is no number for the
scan. -/
def FallsApart (v : Float) : Prop :=
  ∃ sign mantissa op power, sign ∈ [[], [Token.minus]] ∧ op ∈ [Token.plus, .minus] ∧
    tokenize (constantText v) = .ok (sign ++ [.number mantissa, .identifier "e", op, .number power])

theorem not_readsBack_of_fallsApart (h : FallsApart v) : ¬ReadsBack v := by
  obtain ⟨sign, mantissa, op, power, hsign, -, htokens⟩ := h
  rintro ⟨w, u, -, ⟨hnumber, -⟩ | ⟨hnumber, -⟩⟩ <;> rw [htokens] at hnumber <;>
    simp only [List.mem_cons, List.not_mem_nil, or_false] at hsign <;>
    rcases hsign with rfl | rfl <;> cases hnumber

theorem unpack_zero : (0.0 : Float).toModel.unpack = .zero .positive := rfl

/-- Zeros are equal, whatever their signs. -/
theorem beq_zero_of_zero (h : Magnitude.ofFloat v = (negative, .zero)) :
    (v == 0.0) = true ∧ (0.0 == v) = true := by
  constructor
  · change v.toModel.unpack.beq (0.0 : Float).toModel.unpack = true
    rw [unpack_of_zero h, unpack_zero]
    rfl
  · change (0.0 : Float).toModel.unpack.beq v.toModel.unpack = true
    rw [unpack_of_zero h, unpack_zero]
    rfl

theorem not_beq_zero_of_finite (h : Magnitude.ofFloat v = (negative, .finite b)) : ¬(v == 0.0) = true := by
  obtain ⟨hpos, hunpack⟩ := unpack_of_finite h
  change ¬v.toModel.unpack.beq (0.0 : Float).toModel.unpack = true
  rw [hunpack, unpack_zero]
  cases negative <;> exact Bool.false_ne_true

theorem ofText?_zero : ofText? "0" = some 0.0 := by decide +kernel

theorem readsBack_of_zero (h : Magnitude.ofFloat v = (negative, .zero)) : ReadsBack v := by
  have htokens : tokenize "0" = .ok [.number "0"] := rfl
  refine ⟨"0", 0.0, ofText?_zero, .inl ⟨?_, (beq_zero_of_zero h).2⟩⟩
  rw [constantText_of_zero h, htokens]

theorem readsBack_of_isPlain (hv : v.isFinite = true) (h : Magnitude.ofFloat v = (negative, .finite b))
    (hplain : b.IsPlain) : ReadsBack v := by
  have hb := normalized_of_finite h
  obtain ⟨x, hread, hx⟩ := readAs_constantChars hb
  have htokens := tokenize_sign negative (lexes_of_isNumeral (isNumeral_constantChars hb hplain))
  rw [← constantText_of_finite h] at htokens
  have hunsigned := isUnsigned_constantChars b
  cases negative with
  | false => exact ⟨_, v, ofText?_of_readAs h hunsigned hread hx, .inl ⟨htokens, beq_of_unpack_eq hv rfl⟩⟩
  | true =>
      exact ⟨_, -v, ofText?_of_readAs (ofFloat_neg h) hunsigned hread hx, .inr ⟨htokens, neg_neg_beq hv⟩⟩

theorem fallsApart_of_not_isPlain (h : Magnitude.ofFloat v = (negative, .finite b))
    (hplain : ¬b.IsPlain) : FallsApart v := by
  obtain ⟨n, e, hchars⟩ := constantChars_of_not_isPlain (normalized_of_finite h) hplain
  obtain ⟨mantissa, op, power, hop, hlexes⟩ := lexes_scientific n e
  have htokens := tokenize_sign negative hlexes
  rw [← hchars, ← constantText_of_finite h] at htokens
  refine ⟨if negative then [.minus] else [], mantissa, op, power, ?_, hop, htokens⟩
  cases negative <;> simp

/-- **Which constants read back.**  The text of a finite constant is always read as a
float that is equal to it.  Through the scan the constant reads back exactly if it is
zero, or at least 10 ^ -4 and less than 10 ^ 16 apart from its sign; of every other the
scan makes a number, an identifier and another number. -/
theorem constantText_reads_back (hv : v.isFinite = true) :
    (∃ u, ofText? (constantText v) = some u ∧ (u == v) = true) ∧
      (ReadsBack v ↔ (v == 0.0) = true ∨ 1e-4 ≤ v.abs ∧ v.abs < 1e16) ∧
      (¬ReadsBack v → FallsApart v) := by
  obtain ⟨negative, h⟩ | ⟨negative, b, h⟩ := magnitude_of_isFinite hv
  · have hreads := readsBack_of_zero h
    refine ⟨⟨0.0, ?_, (beq_zero_of_zero h).2⟩, iff_of_true hreads (.inl (beq_zero_of_zero h).1),
      fun hnot => absurd hreads hnot⟩
    rw [constantText_of_zero h, ofText?_zero]
  · refine ⟨⟨v, ofText?_constantText_of_finite h, beq_of_unpack_eq hv rfl⟩, ?_, fun hnot => ?_⟩
    · rw [or_iff_right (not_beq_zero_of_finite h), ← isPlain_iff h]
      refine ⟨fun hreads => ?_, readsBack_of_isPlain hv h⟩
      by_contra hplain
      exact not_readsBack_of_fallsApart (fallsApart_of_not_isPlain h hplain) hreads
    · exact fallsApart_of_not_isPlain h fun hplain => hnot (readsBack_of_isPlain hv h hplain)

theorem constantText_reads_back_tenth : (-0.1 : Float).isFinite = true ∧ ReadsBack (-0.1) := by
  have hfinite : (-0.1 : Float).isFinite = true := by decide +kernel
  have hrange : 1e-4 ≤ (-0.1 : Float).abs ∧ (-0.1 : Float).abs < 1e16 := by decide +kernel
  exact ⟨hfinite, (constantText_reads_back hfinite).2.1.mpr (.inr hrange)⟩

/-- **Great constants do not read back.**  The text of 10 ^ 16 has an exponent, and the
scan makes four tokens of it. -/
theorem constantText_falls_apart : (1e16 : Float).isFinite = true ∧
    tokenize (constantText 1e16) = .ok [.number "1", .identifier "e", .plus, .number "16"] ∧
    ¬ReadsBack 1e16 := by
  have htokens : tokenize (constantText 1e16)
      = .ok [.number "1", .identifier "e", .plus, .number "16"] := rfl
  refine ⟨by decide +kernel, htokens, not_readsBack_of_fallsApart ?_⟩
  exact ⟨[], "1", .plus, "16", by simp, by simp, htokens⟩

end Formula.Decimal
