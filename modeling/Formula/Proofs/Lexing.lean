/-
Formula/Proofs/Lexing.lean

Scanning a text in parts.  `Scan.Lexes cs ts` says that characters are scanned to
tokens, at whatever place of a text they stand.

An open token ends where a character follows that does not go on with it, and what
follows is scanned on its own (`Scan.scanFrom_close`).  A character that is a token
itself or white space ends every token, and there the text may be cut
(`Scan.scanFrom_append`).  The open token is compared up to the place where it
starts, which only matters for errors.
-/
import Formula.Proofs.NumberToken

namespace Formula

/-- A character of a class lies in one of its ranges. -/
theorem Text.CharRanges.exists_of_contains {ranges : CharRanges} {c : Char}
    (h : ranges.contains c = true) : ∃ r ∈ ranges, r.1 ≤ c.toNat ∧ c.toNat ≤ r.2 := by
  induction ranges with
  | nil => cases h
  | cons r rest ih =>
      obtain ⟨low, high⟩ := r
      rw [contains] at h
      split at h
      · cases h
      · next hlow =>
        rcases Bool.or_eq_true_iff.mp h with hhigh | hrest
        · exact ⟨(low, high), List.mem_cons_self, Nat.le_of_not_lt hlow, of_decide_eq_true hhigh⟩
        · obtain ⟨r, hr, hc⟩ := ih hrest
          exact ⟨r, List.mem_cons_of_mem _ hr, hc⟩

namespace Scan

/-! ### Classes of characters -/

theorem classify?_of_ofSymbol? {c : Char} {t : Token} (h : Token.ofSymbol? c = some t) (inWord : Bool) :
    classify? inWord c = some (.symbol t) := by
  simp [classify?, h]

theorem ofSymbol?_of_classify {inWord : Bool} {c : Char} {t : Token}
    (h : classify? inWord c = some (.symbol t)) : Token.ofSymbol? c = some t := by
  unfold classify? at h
  split at h
  · next ht =>
    obtain rfl := CharClass.symbol.inj (Option.some.inj h)
    exact ht
  · repeat' split at h
    all_goals cases h

/-- Points and digits are numerals unless an identifier is open. -/
theorem classify?_numeral {c : Char} (h : isNumeralChar c) : classify? false c = some .numeral := by
  obtain rfl | hdigit := isNumeralChar_iff.mp h
  · rfl
  · have hbounds := Char.isDigit_iff_toNat.mp hdigit
    simp only [Char.reduceToNat] at hbounds
    have hall : ∀ k < 58, 48 ≤ k → classify? false (Char.ofNat k) = some .numeral := by decide
    have hc := hall c.toNat (by omega) (by omega)
    rwa [Char.ofNat_toNat] at hc

/-- A character that goes on with an identifier. -/
def IsWordChar (c : Char) : Prop := Text.isLetter c ∨ continuesWord c

/-- Symbols are no part of a name. -/
theorem ofSymbol?_eq_none {c : Char} (h : IsWordChar c) : Token.ofSymbol? c = none := by
  have hsymbols : ∀ s ∈ Token.symbols, ¬(Text.isLetter s.1 ∨ continuesWord s.1) := by decide
  by_contra hsome
  obtain ⟨t, ht⟩ := Option.ne_none_iff_exists'.mp hsome
  obtain ⟨before, after, hmem, -⟩ := List.lookup_eq_some_iff.mp ht
  exact hsymbols (c, t) (by simp [hmem]) h

theorem classify?_letter {c : Char} (h : Text.isLetter c) (inWord : Bool) :
    classify? inWord c = some .word := by
  simp [classify?, ofSymbol?_eq_none (.inl h), h]

theorem classify?_continuing {c : Char} (h : IsWordChar c) : classify? true c = some .word := by
  rcases h with h | h
  · exact classify?_letter h true
  · simp [classify?, ofSymbol?_eq_none (.inr h), h]

/-- Where an identifier ends it makes no difference that one was open. -/
theorem classify?_of_not_isWordChar {c : Char} (h : ¬IsWordChar c) (inWord : Bool) :
    classify? inWord c = classify? false c := by
  obtain ⟨-, hcontinues⟩ := not_or.mp h
  simp [classify?, hcontinues]

/-- White space is no part of a token. -/
theorem classify?_of_isBlank {c : Char} (h : Text.isBlank c) (inWord : Bool) :
    classify? inWord c = some .blank := by
  have hall : ∀ r ∈ Text.blankRanges, ∀ k ∈ List.range' r.1 (r.2 + 1 - r.1), ∀ inWord,
      classify? inWord (Char.ofNat k) = some .blank := by decide +kernel
  obtain ⟨r, hr, hlow, hhigh⟩ := Text.CharRanges.exists_of_contains h
  have hk : c.toNat ∈ List.range' r.1 (r.2 + 1 - r.1) := by
    rw [List.mem_range'_1]
    omega
  have hc := hall r hr c.toNat hk inWord
  rwa [Char.ofNat_toNat] at hc

/-- Where no identifier is open, one starts with a letter. -/
theorem isLetter_of_classify {c : Char} (h : classify? false c = some .word) : Text.isLetter c := by
  unfold classify? at h
  split at h
  · cases h
  · split at h
    · next hletter => exact hletter
    · simp only [Bool.false_and, Bool.false_eq_true, if_false] at h
      repeat' split at h
      all_goals cases h

theorem isWordChar_of_classify {c : Char} (h : classify? true c = some .word) : IsWordChar c := by
  by_contra hword
  rw [classify?_of_not_isWordChar hword] at h
  exact hword (.inl (isLetter_of_classify h))

theorem isBlank_of_classify {inWord : Bool} {c : Char} (h : classify? inWord c = some .blank) :
    Text.isBlank c := by
  by_contra hblank
  unfold classify? at h
  rw [if_neg hblank] at h
  repeat' split at h
  all_goals cases h

/-! ### One character -/

/-- The open token with one more character, if a character of the class goes on
with it. -/
def Pending.extend? (c : Char) : Pending → CharClass → Option Pending
  | word cs, .word => some (.word (c :: cs))
  | number start cs, .numeral => some (.number start (c :: cs))
  | _, _ => Option.none

/-- The token that a character is, if it is one, and the token that it opens. -/
def CharClass.opens (position : Nat) (c : Char) : CharClass → List Token × Pending
  | symbol t => ([t], .none)
  | word => ([], .word [c])
  | numeral => ([], .number position [c])
  | blank => ([], .none)

/-- A character goes on with the open token, or closes it. -/
theorem scanFrom_cons (position : Nat) (p : Pending) (c : Char) (cs : List Char) :
    scanFrom position p (c :: cs) =
      match classify? p.isWord c with
      | none => .error (.unrecognized c position)
      | some kind =>
        match p.extend? c kind with
        | some p' => scanFrom (position + 1) p' cs
        | none => do
          return (← p.close) ++ ((kind.opens position c).1
            ++ (← scanFrom (position + 1) (kind.opens position c).2 cs)) := by
  conv =>
    lhs
    unfold scanFrom
  rcases classify? p.isWord c with - | kind
  · rfl
  · cases kind <;> cases p <;> rfl

/-! ### The end of a token -/

/-- No run of characters of the kind goes on. -/
def Stops (p : Char → Prop) (cs : List Char) : Prop := ∀ c ∈ cs.head?, ¬p c

theorem stops_nil (p : Char → Prop) : Stops p [] := by
  rintro c ⟨⟩

/-- What follows does not go on with the open token. -/
def Pending.EndsAt : Pending → List Char → Prop
  | none, _ => True
  | number _ _, cs => Stops (isNumeralChar ·) cs
  | word _, cs => Stops IsWordChar cs

/-- The same open token, wherever it started. -/
inductive Pending.Alike : Pending → Pending → Prop
  | none : Alike .none .none
  | number {start start' : Nat} {cs : List Char} : Alike (.number start cs) (.number start' cs)
  | word {cs : List Char} : Alike (.word cs) (.word cs)

theorem Pending.Alike.isWord_eq {p p' : Pending} (h : p.Alike p') : p.isWord = p'.isWord := by
  cases h <;> rfl

theorem Pending.Alike.close {p p' : Pending} (h : p.Alike p') {ts : List Token}
    (hclose : p.close = .ok ts) : p'.close = .ok ts := by
  cases h with
  | none | word => exact hclose
  | @number start start' cs =>
      simp only [Pending.close, numberToken] at hclose ⊢
      split_ifs at hclose ⊢
      · cases hclose
      · cases hclose
      · exact hclose

/-- The open token is closed, and what is found after it follows. -/
theorem Pending.Alike.closeThen {p p' : Pending} (hp : p.Alike p') (between : List Token)
    {x y : Except Fault (List Token)} {ts us : List Token}
    (hxy : ∀ others, x = .ok others → y = .ok (others ++ us))
    (h : (do return (← p.close) ++ (between ++ (← x))) = Except.ok ts) :
    (do return (← p'.close) ++ (between ++ (← y))) = Except.ok (ts ++ us) := by
  obtain ⟨closed, hclosed, h⟩ := bind_eq_ok.mp h
  obtain ⟨others, hothers, h⟩ := bind_eq_ok.mp h
  obtain rfl := Except.ok.inj h
  rw [hp.close hclosed, hxy others hothers]
  simp [bind, Except.bind, pure, Except.pure]

/-- The characters are scanned to the tokens, at any place of a text. -/
def Lexes (cs : List Char) (ts : List Token) : Prop :=
  ∀ position, scanFrom position .none cs = .ok ts

/-- A character that ends every token: it is a token itself, or white space. -/
def Separates (c : Char) : Prop :=
  (∃ t, Token.ofSymbol? c = some t) ∨ ∀ inWord, classify? inWord c = some .blank

/-- Nothing follows, or a character that ends every token. -/
def EndsToken (cs : List Char) : Prop := ∀ c ∈ cs.head?, Separates c

/-- A character that the open token does not end at goes on with it. -/
theorem Pending.extend?_eq_none {p : Pending} {c : Char} {cs : List Char} {kind : CharClass}
    (hends : p.EndsAt (c :: cs)) (h : classify? p.isWord c = some kind) : p.extend? c kind = .none := by
  cases p with
  | none => rfl
  | number start r =>
      cases kind with
      | numeral => exact absurd (isNumeralChar_of_classify h) (hends c rfl)
      | _ => rfl
  | word r =>
      cases kind with
      | word => exact absurd (isWordChar_of_classify h) (hends c rfl)
      | _ => rfl

theorem Pending.classify?_of_endsAt {p : Pending} {c : Char} {cs : List Char}
    (hends : p.EndsAt (c :: cs)) : classify? p.isWord c = classify? false c := by
  cases p with
  | none | number => rfl
  | word r => exact classify?_of_not_isWordChar (hends c rfl) true

/-- What follows closes the open token. -/
theorem scanFrom_close {position : Nat} {p : Pending} {cs : List Char} {ts us : List Token}
    (hends : p.EndsAt cs) (hclose : p.close = .ok ts) (h : scanFrom position .none cs = .ok us) :
    scanFrom position p cs = .ok (ts ++ us) := by
  cases cs with
  | nil =>
      obtain rfl := Except.ok.inj h
      rw [List.append_nil]
      exact hclose
  | cons c cs =>
      rw [scanFrom_cons] at h ⊢
      rw [show Pending.none.isWord = false from rfl, ← p.classify?_of_endsAt hends] at h
      cases hkind : classify? p.isWord c with
      | none => simp [hkind] at h
      | some kind =>
          have hnone : Pending.none.extend? c kind = .none := rfl
          simp only [hkind, hnone, p.extend?_eq_none hends hkind] at h ⊢
          obtain ⟨_, hclosed, h⟩ := bind_eq_ok.mp h
          obtain ⟨others, hothers, h⟩ := bind_eq_ok.mp h
          obtain rfl := Except.ok.inj hclosed
          obtain rfl := Except.ok.inj h
          exact bind_eq_ok.mpr ⟨ts, hclose, bind_eq_ok.mpr ⟨others, hothers, rfl⟩⟩

/-- A separator ends every token. -/
theorem EndsToken.endsAt {cs : List Char} (h : EndsToken cs) (p : Pending) : p.EndsAt cs := by
  have hword : Stops IsWordChar cs := by
    intro c hc hword
    rcases h c hc with ⟨t, ht⟩ | hblank
    · rw [ofSymbol?_eq_none hword] at ht
      cases ht
    · have hclass := hblank true
      rw [classify?_continuing hword] at hclass
      cases hclass
  have hnumeral : Stops (isNumeralChar ·) cs := by
    intro c hc hnumeral
    have hclass := classify?_numeral hnumeral
    rcases h c hc with ⟨t, ht⟩ | hblank
    · rw [classify?_of_ofSymbol? ht] at hclass
      cases hclass
    · rw [hblank] at hclass
      cases hclass
  cases p with
  | none => trivial
  | number => exact hnumeral
  | word => exact hword

/-- Where a token has to end, a text is scanned in two parts, at whatever place it
stands. -/
theorem scanFrom_append {position position' : Nat} {p p' : Pending} {cs rest : List Char}
    {ts us : List Token} (hp : p.Alike p') (h : scanFrom position p cs = .ok ts)
    (hrest : EndsToken rest) (hus : Lexes rest us) :
    scanFrom position' p' (cs ++ rest) = .ok (ts ++ us) := by
  induction cs generalizing position position' p p' ts with
  | nil => exact scanFrom_close (hrest.endsAt p') (hp.close h) (hus position')
  | cons c cs ih =>
      rw [List.cons_append]
      unfold scanFrom at h ⊢
      rw [← hp.isWord_eq]
      generalize classify? p.isWord c = kind at h ⊢
      rcases kind with _ | t | _ | _ | _
      case none => cases h
      case some.symbol => exact hp.closeThen [t] (fun _ => ih .none) h
      case some.word =>
        cases hp with
        | word => exact ih .word h
        | none => exact Pending.Alike.none.closeThen [] (fun _ => ih .word) h
        | number => exact Pending.Alike.number.closeThen [] (fun _ => ih .word) h
      case some.numeral =>
        cases hp with
        | number => exact ih .number h
        | none => exact Pending.Alike.none.closeThen [] (fun _ => ih .number) h
        | word => exact Pending.Alike.word.closeThen [] (fun _ => ih .number) h
      case some.blank => exact hp.closeThen [] (fun _ => ih .none) h

namespace Lexes

variable {cs rest : List Char} {ts us : List Token}

theorem nil : Lexes [] [] := fun _ => rfl

theorem append (h : Lexes cs ts) (hends : EndsToken rest) (hrest : Lexes rest us) :
    Lexes (cs ++ rest) (ts ++ us) := fun _ =>
  scanFrom_append .none (h 0) hends hrest

theorem symbol {c : Char} {t : Token} (hc : Token.ofSymbol? c = some t) (h : Lexes cs ts) :
    Lexes (c :: cs) (t :: ts) := by
  intro position
  unfold scanFrom
  rw [classify?_of_ofSymbol? hc]
  exact bind_eq_ok.mpr ⟨[], rfl, bind_eq_ok.mpr ⟨ts, h _, rfl⟩⟩

theorem blank {c : Char} (hc : ∀ inWord, classify? inWord c = some .blank) (h : Lexes cs ts) :
    Lexes (c :: cs) ts := by
  intro position
  unfold scanFrom
  rw [hc]
  exact bind_eq_ok.mpr ⟨[], rfl, bind_eq_ok.mpr ⟨ts, h _, rfl⟩⟩

/-- What a text is scanned to, it is scanned to anywhere. -/
theorem of_tokenize {s : String} (h : tokenize s = .ok ts) : Lexes s.toList ts := by
  intro position
  unfold tokenize at h
  cases hscan : scanFrom 0 .none s.toList with
  | error fault => simp [hscan, Except.mapError] at h
  | ok us =>
      simp only [hscan, Except.mapError, Except.ok.injEq] at h
      subst h
      have hend : EndsToken [] := nofun
      simpa using scanFrom_append .none hscan hend nil

theorem tokenize_eq {s : String} (h : Lexes s.toList ts) : tokenize s = .ok ts := by
  rw [tokenize, h 0]
  rfl

end Lexes

/-! ### Spaces, parentheses and numerals -/

theorem classify?_space (inWord : Bool) : classify? inWord ' ' = some .blank := by
  cases inWord <;> rfl

theorem endsToken_space (cs : List Char) : EndsToken (' ' :: cs) := by
  rintro c ⟨⟩
  exact .inr classify?_space

theorem endsToken_openParen (cs : List Char) : EndsToken ('(' :: cs) := by
  rintro c ⟨⟩
  exact .inl ⟨_, rfl⟩

theorem endsToken_closeParen (cs : List Char) : EndsToken (')' :: cs) := by
  rintro c ⟨⟩
  exact .inl ⟨_, rfl⟩

/-- An open number takes in all of a numeral. -/
theorem scanFrom_number {position start : Nat} {cs reversed rest : List Char}
    (hcs : ∀ c ∈ cs, isNumeralChar c) :
    scanFrom position (.number start reversed) (cs ++ rest)
      = scanFrom (position + cs.length) (.number start (cs.reverse ++ reversed)) rest := by
  induction cs generalizing position reversed with
  | nil => rfl
  | cons c cs ih =>
      obtain ⟨hc, hrest⟩ := List.forall_mem_cons.mp hcs
      rw [List.cons_append, scanFrom_cons, show (Pending.number start reversed).isWord = false from rfl,
        classify?_numeral hc]
      simp [Pending.extend?, ih hrest, Nat.add_assoc, Nat.add_comm 1]

/-- A numeral is one number, if no more of it follows. -/
theorem Lexes.numeral {s : String} {rest : List Char} {us : List Token} (h : IsNumeral s.toList)
    (hends : Stops (isNumeralChar ·) rest) (hrest : Lexes rest us) :
    Lexes (s.toList ++ rest) (.number s :: us) := by
  intro position
  have hclose : (Pending.number position s.toList.reverse).close = .ok [.number s] := by
    have hpoints : ¬1 < s.toList.count '.' := Nat.not_lt_of_le h.onePoint
    simp [Pending.close, numberToken, hpoints, h.ne_point, Functor.map, Except.map]
  obtain ⟨c, cs, hcs⟩ := List.exists_cons_of_ne_nil h.ne_nil
  have hchars := h.chars
  rw [hcs] at hchars hclose ⊢
  obtain ⟨hc, hmore⟩ := List.forall_mem_cons.mp hchars
  rw [List.cons_append, scanFrom_cons, show Pending.none.isWord = false from rfl, classify?_numeral hc]
  refine bind_eq_ok.mpr ⟨[], rfl, bind_eq_ok.mpr ⟨_, ?_, rfl⟩⟩
  rw [show (CharClass.numeral.opens position c).2 = .number position [c] from rfl,
    scanFrom_number hmore, ← List.reverse_cons]
  exact scanFrom_close (p := .number _ _) hends hclose (hrest _)

theorem lexes_numeral {s : String} (h : IsNumeral s.toList) : Lexes s.toList [.number s] := by
  have hlexes := Lexes.numeral h (stops_nil _) .nil
  rwa [List.append_nil] at hlexes

/-! ### Names -/

/-- The names that stand for variables: a letter, then letters, digits, points and
underscores, and as a whole no keyword. -/
structure IsName (x : String) : Prop where
  chars : ∃ c cs, x.toList = c :: cs ∧ Text.isLetter c ∧ ∀ d ∈ cs, Text.isLetter d ∨ continuesWord d
  notKeyword : ∀ t ∈ Token.keywords, t.text ≠ x

/-- An open word takes in all of a name. -/
theorem scanFrom_word {position : Nat} {cs reversed rest : List Char} (hcs : ∀ c ∈ cs, IsWordChar c) :
    scanFrom position (.word reversed) (cs ++ rest)
      = scanFrom (position + cs.length) (.word (cs.reverse ++ reversed)) rest := by
  induction cs generalizing position reversed with
  | nil => rfl
  | cons c cs ih =>
      obtain ⟨hc, hrest⟩ := List.forall_mem_cons.mp hcs
      rw [List.cons_append, scanFrom_cons, show (Pending.word reversed).isWord = true from rfl,
        classify?_continuing hc]
      simp [Pending.extend?, ih hrest, Nat.add_assoc, Nat.add_comm 1]

/-- A letter and what goes on with it is one word, if no more of it follows. -/
theorem Lexes.word {c : Char} {cs rest : List Char} {us : List Token} (hc : Text.isLetter c)
    (hcs : ∀ d ∈ cs, IsWordChar d) (hends : Stops IsWordChar rest) (hrest : Lexes rest us) :
    Lexes (c :: cs ++ rest) (Token.ofWord (String.ofList (c :: cs)) :: us) := by
  intro position
  rw [List.cons_append, scanFrom_cons, show Pending.none.isWord = false from rfl, classify?_letter hc]
  refine bind_eq_ok.mpr ⟨[], rfl, bind_eq_ok.mpr ⟨_, ?_, rfl⟩⟩
  rw [show (CharClass.word.opens position c).2 = .word [c] from rfl, scanFrom_word hcs,
    ← List.reverse_cons]
  have hclose : (Pending.word (c :: cs).reverse).close = .ok [Token.ofWord (String.ofList (c :: cs))] := by
    simp [Pending.close]
  exact scanFrom_close (p := .word _) hends hclose (hrest _)

/-- A name that is no keyword is an identifier. -/
theorem ofWord_of_isName {x : String} (h : IsName x) : Token.ofWord x = .identifier x := by
  have hnone : Token.keywords.find? (·.text == x) = none :=
    List.find?_eq_none.mpr fun t ht => by simpa using h.notKeyword t ht
  simp [Token.ofWord, hnone]

/-- A name is one identifier, if no more of it follows. -/
theorem Lexes.name {x : String} {rest : List Char} {us : List Token} (h : IsName x)
    (hends : Stops IsWordChar rest) (hrest : Lexes rest us) :
    Lexes (x.toList ++ rest) (.identifier x :: us) := by
  obtain ⟨c, cs, hx, hc, hcs⟩ := h.chars
  have hlexes := Lexes.word hc hcs hends hrest
  rwa [← hx, String.ofList_toList, ofWord_of_isName h] at hlexes

theorem lexes_name {x : String} (h : IsName x) : Lexes x.toList [.identifier x] := by
  have hlexes := Lexes.name h (stops_nil _) .nil
  rwa [List.append_nil] at hlexes

end Scan

end Formula
