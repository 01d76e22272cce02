/-
Formula/Proofs/LexicalGrammar.lean

The lexical grammar of expressions.  `Munches cs ts` says that characters fall
into tokens by maximal munch, from left to right:

    blank       ::=  a character of white space, which is no token
    symbol      ::=  + | - | * | / | ^ | ( | )
    word        ::=  a letter, and then letters, digits, points and underscores
    number      ::=  ASCII digits with at most one point, and at least one digit

Words and numbers are as long as they can be: no character follows that could go
on with them.  A word that is spelled like a keyword is that keyword, and else an
identifier.  So digits and points behind a letter belong to a word, and those
behind a symbol, a blank or nothing to a number.

The scan reads a text exactly by this grammar (`tokenize_munches`).  Its invariant
is that the open token and the characters still to come fall into the tokens to
be found (`munches_of_scanFrom`).
-/
import Formula.Proofs.Lexing

namespace Formula

/-- At least one character of a numeral is a digit. -/
theorem isNumeral_iff {cs : List Char} :
    IsNumeral cs ↔ (∀ c ∈ cs, isNumeralChar c) ∧ cs.count '.' ≤ 1 ∧ ∃ c ∈ cs, c.isDigit := by
  constructor
  · intro h
    refine ⟨h.chars, h.onePoint, ?_⟩
    by_contra hdigit
    have hpoints : ∀ c ∈ cs, c = '.' := fun c hc =>
      (isNumeralChar_iff.mp (h.chars c hc)).resolve_right fun hd => hdigit ⟨c, hc, hd⟩
    obtain hcs := List.eq_replicate_of_mem hpoints
    have hone := h.onePoint
    rw [hcs, List.count_replicate_self] at hone
    rcases Nat.le_one_iff_eq_zero_or_eq_one.mp hone with hlength | hlength
    · exact h.ne_nil (List.length_eq_zero_iff.mp hlength)
    · rw [hlength] at hcs
      exact h.ne_point hcs
  · rintro ⟨hchars, hpoint, c, hc, hdigit⟩
    refine ⟨hchars, hpoint, List.ne_nil_of_mem hc, ?_⟩
    rintro rfl
    rw [List.mem_singleton.mp hc] at hdigit
    cases hdigit

namespace Scan

/-- The characters fall into the tokens by maximal munch. -/
inductive Munches : List Char → List Token → Prop
  | nil : Munches [] []
  | blank {c : Char} {cs : List Char} {ts : List Token} : Text.isBlank c → Munches cs ts →
      Munches (c :: cs) ts
  | symbol {c : Char} {t : Token} {cs : List Char} {ts : List Token} : (c, t) ∈ Token.symbols →
      Munches cs ts → Munches (c :: cs) (t :: ts)
  | keyword {t : Token} {rest : List Char} {ts : List Token} : t ∈ Token.keywords →
      Stops IsWordChar rest → Munches rest ts → Munches (t.text.toList ++ rest) (t :: ts)
  | identifier {x : String} {rest : List Char} {ts : List Token} : IsName x →
      Stops IsWordChar rest → Munches rest ts → Munches (x.toList ++ rest) (.identifier x :: ts)
  | number {s : String} {rest : List Char} {ts : List Token} :
      (∀ c ∈ s.toList, isNumeralChar c) → s.toList.count '.' ≤ 1 → (∃ c ∈ s.toList, c.isDigit) →
      Stops (isNumeralChar ·) rest → Munches rest ts → Munches (s.toList ++ rest) (.number s :: ts)

theorem ofSymbol?_eq_some_iff {c : Char} {t : Token} :
    Token.ofSymbol? c = some t ↔ (c, t) ∈ Token.symbols := by
  constructor
  · intro h
    obtain ⟨before, after, hmem, -⟩ := List.lookup_eq_some_iff.mp h
    simp [hmem]
  · have hall : ∀ s ∈ Token.symbols, Token.ofSymbol? s.1 = some s.2 := by decide
    exact hall (c, t)

/-- A keyword is a word. -/
theorem exists_letter_of_keyword {t : Token} (h : t ∈ Token.keywords) :
    ∃ c cs, t.text.toList = c :: cs ∧ Text.isLetter c ∧ (∀ d ∈ cs, IsWordChar d) ∧
      Token.ofWord t.text = t := by
  have hall : (Token.keywords.all fun t =>
      t.text.toList.all Text.isLetter && !t.text.toList.isEmpty) = true := by decide
  have hwords : ∀ t ∈ Token.keywords, Token.ofWord t.text = t := by decide
  obtain ⟨hletters, hne⟩ := Bool.and_eq_true_iff.mp (List.all_eq_true.mp hall t h)
  have hword := hwords t h
  rw [Bool.not_eq_true', List.isEmpty_eq_false_iff] at hne
  rw [List.all_eq_true] at hletters
  obtain ⟨c, cs, hcs⟩ := List.exists_cons_of_ne_nil hne
  rw [hcs] at hletters
  obtain ⟨hc, hmore⟩ := List.forall_mem_cons.mp hletters
  exact ⟨c, cs, hcs, hc, fun d hd => .inl (hmore d hd), hword⟩

/-! ### The scan follows the grammar -/

/-- What falls into tokens is scanned to them. -/
theorem Munches.lexes {cs : List Char} {ts : List Token} (h : Munches cs ts) : Lexes cs ts := by
  induction h with
  | nil => exact .nil
  | blank hc _ ih => exact .blank (classify?_of_isBlank hc) ih
  | symbol hc _ ih => exact .symbol (ofSymbol?_eq_some_iff.mpr hc) ih
  | @keyword t rest ts ht hends _ ih =>
      obtain ⟨c, cs, hcs, hc, hmore, hword⟩ := exists_letter_of_keyword ht
      have hlexes := Lexes.word hc hmore hends ih
      rwa [← hcs, String.ofList_toList, hword] at hlexes
  | identifier hx hends _ ih => exact .name hx hends ih
  | number hchars hpoint hdigit hends _ ih =>
      exact .numeral (isNumeral_iff.mpr ⟨hchars, hpoint, hdigit⟩) hends ih

/-! ### The scan finds nothing else -/

/-- The characters of the open token. -/
def Pending.chars : Pending → List Char
  | none => []
  | number _ reversed | word reversed => reversed.reverse

/-- What is open is the beginning of a number or word. -/
def Pending.IsRun : Pending → Prop
  | none => True
  | number _ reversed => reversed ≠ [] ∧ ∀ c ∈ reversed, isNumeralChar c
  | word reversed => ∃ c cs, reversed.reverse = c :: cs ∧ Text.isLetter c ∧ ∀ d ∈ cs, IsWordChar d

theorem Pending.chars_extend {p p' : Pending} {c : Char} {kind : CharClass}
    (h : p.extend? c kind = some p') : p'.chars = p.chars ++ [c] := by
  cases p <;> cases kind <;> cases h <;> simp [chars]

theorem Pending.IsRun.extend {p p' : Pending} {c : Char} {kind : CharClass} (hp : p.IsRun)
    (hkind : classify? p.isWord c = some kind) (h : p.extend? c kind = some p') : p'.IsRun := by
  cases p with
  | none => cases h
  | number start r =>
      cases kind <;> cases h
      exact ⟨List.cons_ne_nil c r,
        List.forall_mem_cons.mpr ⟨isNumeralChar_of_classify hkind, hp.2⟩⟩
  | word r =>
      cases kind <;> cases h
      obtain ⟨d, cs, hr, hd, hcs⟩ := hp
      refine ⟨d, cs ++ [c], by rw [List.reverse_cons, hr, List.cons_append], hd, fun e he => ?_⟩
      rcases List.mem_append.mp he with he | he
      · exact hcs e he
      · rw [List.mem_singleton.mp he]
        exact isWordChar_of_classify hkind

/-- Where the open token does not go on, it ends. -/
theorem Pending.endsAt_of_extend {p : Pending} {c : Char} {cs : List Char} {kind : CharClass}
    (hkind : classify? p.isWord c = some kind) (h : p.extend? c kind = .none) : p.EndsAt (c :: cs) := by
  cases p with
  | none => trivial
  | number start r =>
      rintro d ⟨⟩ hd
      obtain rfl := Option.some.inj ((classify?_numeral hd).symm.trans hkind)
      cases h
  | word r =>
      rintro d ⟨⟩ hd
      obtain rfl := Option.some.inj ((classify?_continuing hd).symm.trans hkind)
      cases h

/-- A word is a keyword or an identifier. -/
theorem Munches.word {c : Char} {cs rest : List Char} {ts : List Token} (hc : Text.isLetter c)
    (hcs : ∀ d ∈ cs, IsWordChar d) (hends : Stops IsWordChar rest) (h : Munches rest ts) :
    Munches (c :: cs ++ rest) (Token.ofWord (String.ofList (c :: cs)) :: ts) := by
  cases hfind : Token.keywords.find? (·.text == String.ofList (c :: cs)) with
  | none =>
      have hname : IsName (String.ofList (c :: cs)) :=
        ⟨⟨c, cs, String.toList_ofList, hc, hcs⟩, fun t ht => by
          simpa using List.find?_eq_none.mp hfind t ht⟩
      have hmunches := Munches.identifier hname hends h
      rwa [String.toList_ofList, ← ofWord_of_isName hname] at hmunches
  | some t =>
      have htext : t.text = String.ofList (c :: cs) := by simpa using List.find?_some hfind
      have hmunches := Munches.keyword (List.mem_of_find?_eq_some hfind) hends h
      rwa [htext, String.toList_ofList, ← Option.getD_some (a := t), ← hfind] at hmunches

/-- Closing a token gives the token of its characters. -/
theorem Pending.IsRun.munches {p : Pending} {rest : List Char} {closed ts : List Token}
    (hp : p.IsRun) (hclose : p.close = .ok closed) (hends : p.EndsAt rest) (h : Munches rest ts) :
    Munches (p.chars ++ rest) (closed ++ ts) := by
  cases p with
  | none =>
      obtain rfl := Except.ok.inj hclose
      exact h
  | number start r =>
      obtain ⟨hne, hchars⟩ := hp
      rcases ht : numberToken start r.reverse with fault | t
      · simp [close, ht, Functor.map, Except.map] at hclose
      · simp only [close, ht, Functor.map, Except.map, Except.ok.injEq] at hclose
        subst hclose
        obtain ⟨rfl, hnumeral⟩ :=
          isNumeral_of_numberToken (by simpa using hchars) (by simpa using hne) ht
        rw [← String.toList_ofList (l := r.reverse)] at hnumeral
        obtain ⟨hall, hpoint, hdigit⟩ := isNumeral_iff.mp hnumeral
        have hmunches := Munches.number hall hpoint hdigit hends h
        rwa [String.toList_ofList] at hmunches
  | word r =>
      obtain ⟨c, cs, hr, hc, hcs⟩ := hp
      obtain rfl := Except.ok.inj hclose
      rw [chars, hr]
      exact .word hc hcs hends h

/-- A character that does not go on with the open token is a token itself, or a
blank, or opens one. -/
theorem munches_of_opens {position : Nat} {p : Pending} {c : Char} {cs : List Char} {kind : CharClass}
    {ts : List Token} (hkind : classify? p.isWord c = some kind) (hextend : p.extend? c kind = none)
    (ih : (kind.opens position c).2.IsRun → Munches ((kind.opens position c).2.chars ++ cs) ts) :
    Munches (c :: cs) ((kind.opens position c).1 ++ ts) := by
  cases kind with
  | symbol t => exact .symbol (ofSymbol?_eq_some_iff.mp (ofSymbol?_of_classify hkind)) (ih trivial)
  | blank => exact .blank (isBlank_of_classify hkind) (ih trivial)
  | numeral =>
      refine ih ⟨List.cons_ne_nil c [], List.forall_mem_singleton.mpr ?_⟩
      exact isNumeralChar_of_classify hkind
  | word =>
      have hword : p.isWord = false := by
        cases p with
        | none | number => rfl
        | word => cases hextend
      rw [hword] at hkind
      exact ih ⟨c, [], rfl, isLetter_of_classify hkind, nofun⟩

/-- The open token and the characters still to come fall into the tokens that the
scan finds. -/
theorem munches_of_scanFrom {position : Nat} {p : Pending} {cs : List Char} {ts : List Token}
    (hp : p.IsRun) (h : scanFrom position p cs = .ok ts) : Munches (p.chars ++ cs) ts := by
  induction cs generalizing position p ts with
  | nil =>
      have hends : p.EndsAt [] := by
        cases p with
        | none => trivial
        | number | word => exact stops_nil _
      rw [← List.append_nil ts]
      exact hp.munches h hends .nil
  | cons c cs ih =>
      rw [scanFrom_cons] at h
      cases hkind : classify? p.isWord c with
      | none => simp [hkind] at h
      | some kind =>
          cases hextend : p.extend? c kind with
          | some p' =>
              -- the character belongs to the open token, and the next ones are still to come
              simp only [hkind, hextend] at h
              have hmunches := ih (hp.extend hkind hextend) h
              rwa [Pending.chars_extend hextend, List.append_assoc] at hmunches
          | none =>
              -- the open token ends in front of the character
              simp only [hkind, hextend] at h
              obtain ⟨closed, hclosed, h⟩ := bind_eq_ok.mp h
              obtain ⟨others, hothers, h⟩ := bind_eq_ok.mp h
              obtain rfl := Except.ok.inj h
              refine hp.munches hclosed (Pending.endsAt_of_extend hkind hextend) ?_
              exact munches_of_opens hkind hextend fun hrun => ih hrun hothers

/-- Characters are scanned to the tokens they fall into, and to no others. -/
theorem lexes_iff {cs : List Char} {ts : List Token} : Lexes cs ts ↔ Munches cs ts :=
  ⟨fun h => munches_of_scanFrom (p := .none) trivial (h 0), Munches.lexes⟩

/-! ### Numbers and identifiers -/

theorem not_mem_symbols (c : Char) (s : String) : (c, .number s) ∉ Token.symbols := by
  simp [Token.symbols]

theorem not_mem_keywords (s : String) : .number s ∉ Token.keywords := by
  simp [Token.keywords]

/-- The numbers among the tokens are numerals. -/
theorem Munches.isNumeral {cs : List Char} {ts : List Token} (h : Munches cs ts) {s : String}
    (hs : .number s ∈ ts) : IsNumeral s.toList := by
  induction h with
  | nil => cases hs
  | blank _ _ ih => exact ih hs
  | symbol hc _ ih =>
      rcases List.mem_cons.mp hs with rfl | hs
      · exact absurd hc (not_mem_symbols _ s)
      · exact ih hs
  | keyword ht _ _ ih =>
      rcases List.mem_cons.mp hs with rfl | hs
      · exact absurd ht (not_mem_keywords s)
      · exact ih hs
  | identifier _ _ _ ih =>
      rcases List.mem_cons.mp hs with hx | hs
      · cases hx
      · exact ih hs
  | number hchars hpoint hdigit _ _ ih =>
      rcases List.mem_cons.mp hs with heq | hs
      · obtain rfl := Token.number.inj heq
        exact isNumeral_iff.mpr ⟨hchars, hpoint, hdigit⟩
      · exact ih hs

/-- The identifiers among the tokens are names. -/
theorem Munches.isName {cs : List Char} {ts : List Token} (h : Munches cs ts) {x : String}
    (hx : .identifier x ∈ ts) : IsName x := by
  induction h with
  | nil => cases hx
  | blank _ _ ih => exact ih hx
  | symbol hc _ ih =>
      rcases List.mem_cons.mp hx with rfl | hx
      · simp [Token.symbols] at hc
      · exact ih hx
  | keyword ht _ _ ih =>
      rcases List.mem_cons.mp hx with rfl | hx
      · simp [Token.keywords] at ht
      · exact ih hx
  | identifier hname _ _ ih =>
      rcases List.mem_cons.mp hx with heq | hx
      · exact Token.identifier.inj heq ▸ hname
      · exact ih hx
  | number _ _ _ _ _ ih =>
      rcases List.mem_cons.mp hx with heq | hx
      · cases heq
      · exact ih hx

/-! ### Nothing is lost -/

theorem not_isBlank_of_isWordChar {c : Char} (h : IsWordChar c) : Text.isBlank c = false := by
  by_contra hblank
  have hclass := classify?_of_isBlank (by simpa using hblank) true
  rw [classify?_continuing h] at hclass
  cases hclass

theorem not_isBlank_of_isNumeralChar {c : Char} (h : isNumeralChar c) : Text.isBlank c = false := by
  by_contra hblank
  have hclass := classify?_of_isBlank (by simpa using hblank) false
  rw [classify?_numeral h] at hclass
  cases hclass

/-- The texts of the tokens are the text without its white space. -/
theorem Munches.flatMap_text {cs : List Char} {ts : List Token} (h : Munches cs ts) :
    ts.flatMap (·.text.toList) = cs.filter (!Text.isBlank ·) := by
  -- a token with its text in front of what is left; only white space is dropped elsewhere
  have hrun : ∀ (run rest : List Char) (t : Token) (ts : List Token), t.text.toList = run →
      (∀ c ∈ run, Text.isBlank c = false) →
      ts.flatMap (·.text.toList) = rest.filter (!Text.isBlank ·) →
      (t :: ts).flatMap (·.text.toList) = (run ++ rest).filter (!Text.isBlank ·) := by
    intro run rest t ts htext hblank hts
    have hself : run.filter (!Text.isBlank ·) = run :=
      List.filter_eq_self.mpr fun c hc => by rw [hblank c hc]; rfl
    rw [List.flatMap_cons, List.filter_append, hself, htext, hts]
  induction h with
  | nil => rfl
  | blank hc _ ih => rw [ih, List.filter_cons_of_neg (by simpa using hc)]
  | @symbol c t cs ts hc _ ih =>
      have hall : ∀ s ∈ Token.symbols, s.2.text.toList = [s.1] ∧ Text.isBlank s.1 = false := by decide
      obtain ⟨htext, hblank⟩ := hall (c, t) hc
      exact hrun [c] cs t ts htext (List.forall_mem_singleton.mpr hblank) ih
  | @keyword t rest ts ht _ _ ih =>
      obtain ⟨c, cs, hcs, hc, hmore, -⟩ := exists_letter_of_keyword ht
      refine hrun _ rest t ts rfl (fun d hd => not_isBlank_of_isWordChar ?_) ih
      rw [hcs] at hd
      rcases List.mem_cons.mp hd with rfl | hd
      · exact .inl hc
      · exact hmore d hd
  | @identifier x rest ts hx _ _ ih =>
      obtain ⟨c, cs, hcs, hc, hmore⟩ := hx.chars
      refine hrun _ rest (.identifier x) ts rfl (fun d hd => not_isBlank_of_isWordChar ?_) ih
      rw [hcs] at hd
      rcases List.mem_cons.mp hd with rfl | hd
      · exact .inl hc
      · exact hmore d hd
  | @number s rest ts hchars _ _ _ _ ih =>
      exact hrun _ rest (.number s) ts rfl (fun d hd => not_isBlank_of_isNumeralChar (hchars d hd)) ih

/-! ### Characters of no class -/

theorem close_ne_unrecognized {p : Pending} {c : Char} {k : Nat} :
    p.close ≠ .error (.unrecognized c k) := by
  intro h
  cases p with
  | none | word => cases h
  | number start r =>
      simp only [Pending.close, numberToken] at h
      split_ifs at h <;> cases h

/-- A character that is reported stands where it is reported. -/
theorem getElem?_of_unrecognized {position : Nat} {p : Pending} {cs : List Char} {c : Char} {k : Nat}
    (h : scanFrom position p cs = .error (.unrecognized c k)) :
    ∃ n, k = position + n ∧ cs[n]? = some c := by
  induction cs generalizing position p with
  | nil => exact absurd h close_ne_unrecognized
  | cons d cs ih =>
      have hlater : ∀ {p'}, scanFrom (position + 1) p' cs = .error (.unrecognized c k) →
          ∃ n, k = position + n ∧ (d :: cs)[n]? = some c := by
        intro p' hp'
        obtain ⟨n, rfl, hn⟩ := ih hp'
        exact ⟨n + 1, by omega, hn⟩
      rw [scanFrom_cons] at h
      split at h
      · obtain ⟨rfl, rfl⟩ := Fault.unrecognized.inj (Except.error.inj h)
        exact ⟨0, rfl, rfl⟩
      · split at h
        · exact hlater h
        · rcases bind_eq_error.mp h with h | ⟨closed, -, h⟩
          · exact absurd h close_ne_unrecognized
          · rcases bind_eq_error.mp h with h | ⟨others, -, h⟩
            · exact hlater h
            · cases h

end Scan

/-! ### The tokens of a text -/

/-- A text has the tokens it falls into. -/
theorem tokenize_eq_ok_iff {text : String} {ts : List Token} :
    tokenize text = .ok ts ↔ Scan.Munches text.toList ts :=
  ⟨fun h => Scan.lexes_iff.mp (Scan.Lexes.of_tokenize h), fun h => h.lexes.tokenize_eq⟩

/-- The numbers among the tokens of a text are numerals. -/
theorem isNumeral_of_tokenize {text s : String} {ts : List Token} (h : tokenize text = .ok ts)
    (hs : .number s ∈ ts) : IsNumeral s.toList :=
  (tokenize_eq_ok_iff.mp h).isNumeral hs

/-- A text that is reported not to have tokens is the text that was scanned. -/
theorem tokenize_eq_error {text : String} {err : LexError} (h : tokenize text = .error err) :
    Scan.scanFrom 0 .none text.toList = .error err.fault := by
  unfold tokenize at h
  cases hscan : Scan.scanFrom 0 .none text.toList with
  | ok ts => simp [hscan, Except.mapError] at h
  | error fault =>
      simp only [hscan, Except.mapError, Except.error.injEq] at h
      rw [← h]

/-- **The tokens of a text are those of the lexical grammar.**  There are tokens
exactly if the text falls into tokens by maximal munch, and then these are the
tokens; their texts together are the text without its white space.  Every other
text is turned down, and a character that is reported with its position stands at
this position of the text. -/
theorem tokenize_munches (text : String) :
    (∀ ts, tokenize text = .ok ts ↔ Scan.Munches text.toList ts) ∧
      (∀ ts, tokenize text = .ok ts →
        (String.join (ts.map Token.text)).toList = text.toList.filter (!Text.isBlank ·)) ∧
      ((∀ ts, ¬Scan.Munches text.toList ts) → ∃ err, tokenize text = .error err ∧
        ∀ c, err.character? = some c → text.toList[err.position]? = some c) := by
  refine ⟨fun ts => tokenize_eq_ok_iff, fun ts h => ?_, fun hnone => ?_⟩
  · rw [String.toList_join, List.flatMap_map]
    exact (tokenize_eq_ok_iff.mp h).flatMap_text
  · cases htokens : tokenize text with
    | ok ts => exact absurd (tokenize_eq_ok_iff.mp htokens) (hnone ts)
    | error err =>
        refine ⟨err, rfl, fun c hc => ?_⟩
        have hscan := tokenize_eq_error htokens
        obtain ⟨fault, _⟩ := err
        cases fault with
        | unrecognized d k =>
            obtain rfl := Option.some.inj hc
            obtain ⟨n, rfl, hn⟩ := Scan.getElem?_of_unrecognized hscan
            rwa [show LexError.position ⟨.unrecognized d (0 + n), _⟩ = n from Nat.zero_add n]
        | manyPoints | noDigits => cases hc

end Formula
