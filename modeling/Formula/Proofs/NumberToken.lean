/-
Formula/Proofs/NumberToken.lean

Every number that the scan finds can be read.

What the scan makes a number of are ASCII digits with at most one point, and at
least one digit (`IsNumeral`).  Of the steps of reading a float, the
ones for other scripts, for padding, for underscores, for signs and for the
words of infinity and NaN all leave such a text alone, and its digits are
there.  So the one failure of the parser that is no fault of the sentence,
a number that is none, does not occur on scanned tokens.
-/
import Formula.Numeral
import Formula.Proofs.Sentence
import Formula.Token.Scan
import Mathlib.Data.List.TakeWhile

namespace Formula

/-- A character of a number: a point or an ASCII digit. -/
def isNumeralChar (c : Char) : Bool := c = '.' || c.isDigit

/-- Digits with at most one point, and at least one digit. -/
structure IsNumeral (cs : List Char) : Prop where
  chars : ∀ c ∈ cs, isNumeralChar c
  onePoint : cs.count '.' ≤ 1
  ne_nil : cs ≠ []
  ne_point : cs ≠ ['.']

/-! ### The scan -/

namespace Scan

theorem isNumeralChar_of_classify {inWord : Bool} {c : Char}
    (h : classify? inWord c = some .numeral) : isNumeralChar c := by
  unfold classify? at h
  split at h
  · cases h
  · split at h
    · cases h
    · split at h
      · cases h
      · split at h
        · next hc => exact hc
        · split at h <;> cases h

/-- A number is made of a numeral. -/
theorem isNumeral_of_numberToken {start : Nat} {cs : List Char} {t : Token}
    (hchars : ∀ c ∈ cs, isNumeralChar c) (hne : cs ≠ []) (h : numberToken start cs = .ok t) :
    t = .number (String.ofList cs) ∧ IsNumeral cs := by
  unfold numberToken at h
  split at h
  · cases h
  · next hpoints =>
    split at h
    · cases h
    · next hpoint =>
      obtain rfl := Except.ok.inj h
      exact ⟨rfl, hchars, Nat.le_of_not_lt hpoints, hne, hpoint⟩

end Scan

/-! ### Reading -/

theorem isNumeralChar_iff {c : Char} : isNumeralChar c ↔ c = '.' ∨ c.isDigit := by
  simp [isNumeralChar]

theorem toNat_of_isNumeralChar {c : Char} (h : isNumeralChar c) :
    46 ≤ c.toNat ∧ c.toNat ≤ 57 := by
  rcases isNumeralChar_iff.mp h with rfl | h
  · decide
  · have hbounds := Char.isDigit_iff_toNat.mp h
    simp only [Char.reduceToNat] at hbounds
    omega

namespace Decimal

/-- A character that only stands for itself: ASCII, no padding and no underscore. -/
structure IsBare (c : Char) : Prop where
  ascii : c.toNat < 128
  notPadding : ¬isPadding c
  notUnderscore : c ≠ '_'

theorem isBare_of_isNumeralChar {c : Char} (h : isNumeralChar c) : IsBare c := by
  have hbounds := toNat_of_isNumeralChar h
  have hspace : c ≠ ' ' := by
    rintro rfl
    simp at hbounds
  have hunderscore : c ≠ '_' := by
    rintro rfl
    simp at hbounds
  refine ⟨by omega, ?_, hunderscore⟩
  simp [isPadding, hspace]
  omega

variable {cs body : List Char}

theorem map_plainChar (h : ∀ c ∈ cs, IsBare c) : cs.map plainChar = cs := by
  refine List.map_congr_left (g := id) (fun c hc => ?_) |>.trans cs.map_id
  exact if_pos (h c hc).ascii

theorem dropPadding_eq (h : ∀ c ∈ cs, IsBare c) : cs.dropWhile isPadding = cs :=
  List.dropWhile_eq_self_iff.mpr fun hl => (h _ (List.getElem_mem hl)).notPadding

theorem trimPadding_eq (h : ∀ c ∈ cs, IsBare c) : trimPadding cs = cs := by
  unfold trimPadding
  rw [dropPadding_eq h, dropPadding_eq (by simpa using h), List.reverse_reverse]

theorem dropUnderscores_eq (h : ∀ c ∈ cs, IsBare c) {previous : Char}
    (hprevious : previous ≠ '_') : dropUnderscores previous cs = some cs := by
  induction cs generalizing previous with
  | nil => simp [dropUnderscores, hprevious]
  | cons c rest ih =>
      obtain ⟨hc, hrest⟩ := List.forall_mem_cons.mp h
      simp [dropUnderscores, hc.notUnderscore, hprevious, ih hrest hc.notUnderscore]

theorem takeSign_eq (h : ∀ c ∈ cs, isNumeralChar c) : takeSign cs = (false, cs) := by
  unfold takeSign
  split
  · simp [isNumeralChar] at h
  · simp [isNumeralChar] at h
  · rfl

theorem toLower_eq {c : Char} (h : isNumeralChar c) : c.toLower = c := by
  have hbounds := toNat_of_isNumeralChar h
  refine dif_neg fun hupper => ?_
  have hlower : 'A'.toNat ≤ c.toNat := hupper.1
  simp only [Char.reduceToNat] at hlower
  omega

/-- What starts like a number is no word. -/
theorem ofList_map_toLower_ne (h : ∃ c ∈ body.head?, isNumeralChar c) {word : String}
    (hword : ∃ c ∈ word.toList.head?, 57 < c.toNat) : String.ofList (body.map Char.toLower) ≠ word := by
  rintro rfl
  obtain ⟨c, hc, hnumeral⟩ := h
  obtain ⟨d, hd, hlarge⟩ := hword
  obtain rfl : c = d := by simpa [Option.mem_def.mp hc, toLower_eq hnumeral] using hd
  have hbounds := toNat_of_isNumeralChar hnumeral
  omega

/-- Reading what starts like a number, a sign apart, takes nothing but its digits. -/
theorem ofText?_of_takeSign {s : String} {negative : Bool} (hbare : ∀ c ∈ s.toList, IsBare c)
    (hsign : takeSign s.toList = (negative, body)) (hhead : ∃ c ∈ body.head?, isNumeralChar c) :
    ofText? s = (readDecimal? body).map fun d => ofDecimal negative d.1 d.2 := by
  have hinf : String.ofList (body.map Char.toLower) ≠ "inf" :=
    ofList_map_toLower_ne hhead ⟨'i', by simp, by decide⟩
  have hinfinity : String.ofList (body.map Char.toLower) ≠ "infinity" :=
    ofList_map_toLower_ne hhead ⟨'i', by simp, by decide⟩
  have hnan : String.ofList (body.map Char.toLower) ≠ "nan" :=
    ofList_map_toLower_ne hhead ⟨'n', by simp, by decide⟩
  have hplain : dropUnderscores ' ' s.toList = some s.toList := dropUnderscores_eq hbare (by decide)
  simp [ofText?, map_plainChar hbare, trimPadding_eq hbare, hplain, hsign, hinf, hinfinity, hnan,
    Option.map_eq_bind, Function.comp_def]

/-- Behind the leading digits of a numeral there is nothing, or a point and
more digits. -/
theorem dropWhile_isDigit (h : IsNumeral cs) :
    cs.dropWhile Char.isDigit = [] ∨
      ∃ more, cs.dropWhile Char.isDigit = '.' :: more ∧ ∀ c ∈ more, c.isDigit := by
  cases hrest : cs.dropWhile Char.isDigit with
  | nil => exact .inl rfl
  | cons c more =>
      have hhead : c.isDigit = false := by
        simpa [hrest] using List.head?_dropWhile_not Char.isDigit cs
      have hmem : ∀ d ∈ c :: more, isNumeralChar d := fun d hd =>
        h.chars d (List.dropWhile_subset Char.isDigit (hrest ▸ hd))
      obtain rfl : c = '.' := by simpa [isNumeralChar, hhead] using hmem c List.mem_cons_self
      refine .inr ⟨more, rfl, fun d hd => ?_⟩
      rcases isNumeralChar_iff.mp (hmem d (List.mem_cons_of_mem _ hd)) with rfl | hdigit
      · -- a second point
        have hcount := (List.dropWhile_sublist Char.isDigit (l := cs)).count_le '.'
        have hone := h.onePoint
        have hmore := List.count_pos_iff.mpr hd
        rw [hrest, List.count_cons_self] at hcount
        omega
      · exact hdigit

theorem isSome_readDecimal? (h : IsNumeral cs) : (readDecimal? cs).isSome := by
  have hcs := List.takeWhile_append_dropWhile (p := Char.isDigit) (l := cs)
  unfold readDecimal?
  rcases dropWhile_isDigit h with hrest | ⟨more, hrest, hmore⟩
  · have hwhole : cs.takeWhile Char.isDigit ≠ [] := by
      intro hnil
      rw [hnil, hrest] at hcs
      exact h.ne_nil hcs.symm
    simp [hrest, hwhole, readExponent?]
  · have hdigits : cs.takeWhile Char.isDigit ≠ [] ∨ more ≠ [] := by
      by_contra hnone
      simp only [ne_eq, not_or, not_not] at hnone
      rw [hnone.1, hrest, hnone.2] at hcs
      exact h.ne_point hcs.symm
    have hfraction := List.takeWhile_eq_self_iff.mpr hmore
    have htail := List.dropWhile_eq_nil_iff.mpr hmore
    rcases hdigits with hdigits | hdigits <;>
      simp [hrest, hdigits, hfraction, htail, readExponent?]

end Decimal

/-- Reading a numeral takes nothing but its digits. -/
theorem IsNumeral.ofText?_eq {s : String} (h : IsNumeral s.toList) :
    Decimal.ofText? s = (Decimal.readDecimal? s.toList).map fun d => Decimal.ofDecimal false d.1 d.2 := by
  refine Decimal.ofText?_of_takeSign (fun c hc => Decimal.isBare_of_isNumeralChar (h.chars c hc))
    (Decimal.takeSign_eq h.chars) ?_
  obtain ⟨c, cs, hcs⟩ := List.exists_cons_of_ne_nil h.ne_nil
  refine ⟨c, by rw [hcs]; rfl, h.chars c (by rw [hcs]; exact List.mem_cons_self)⟩

/-- A numeral can be read. -/
theorem IsNumeral.isSome_ofText? {s : String} (h : IsNumeral s.toList) :
    (Decimal.ofText? s).isSome := by
  rw [h.ofText?_eq, Option.isSome_map]
  exact Decimal.isSome_readDecimal? h

end Formula
