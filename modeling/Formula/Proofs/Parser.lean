/-
Formula/Proofs/Parser.lean

The parser on the tokens of a text: it finds the tree of every sentence, and
everything else it turns down with an error about the sentence.

Which sentences there are and what their trees are is `parse_eq_ok_iff`.  The
one error that is not about the sentence, a number that cannot be read, needs
an unreadable number token (`exists_unreadable_of_parse`), and the scan makes
none.
-/
import Formula.Proofs.LexicalGrammar

namespace Formula

universe u

variable {α : Type u}

/-- An error about the sentence, not about the text of a number. -/
def ParseError.IsSyntax (err : ParseError) : Prop := ∀ text, err ≠ .notANumber text

theorem isSyntax_of_applyUnary {run : List UnaryOp} {row : List (Segment α)} {err : ParseError}
    (h : Segment.applyUnary run row = .error err) : err.IsSyntax := by
  fun_induction Segment.applyUnary run row with
  | case1 => cases h
  | case2 =>
      obtain rfl := Except.error.inj h
      simp [ParseError.IsSyntax]
  | case3 run op rest ih => exact ih h
  | case4 run e rest ih =>
      rcases bind_eq_error.mp h with h | ⟨_, _, h⟩
      · exact ih h
      · cases h
  | case5 op rest ih =>
      rcases bind_eq_error.mp h with h | ⟨_, _, h⟩
      · exact ih h
      · cases h
  | case6 =>
      obtain rfl := Except.error.inj h
      simp [ParseError.IsSyntax]

theorem isSyntax_of_join {level : Precedence} {left : Option (Expr α)} {links : List (Link α)}
    {err : ParseError} (h : Link.join level left links = .error err) : err.IsSyntax := by
  fun_induction Link.join level left links with
  | case1 => cases h
  | case2 left e rest ih =>
      rcases bind_eq_error.mp h with h | ⟨_, _, h⟩
      · exact ih h
      · cases h
  | case3 =>
      obtain rfl := Except.error.inj h
      simp [ParseError.IsSyntax]
  | case4 op hop l r rest ih => exact ih h
  | case5 =>
      obtain rfl := Except.error.inj h
      simp [ParseError.IsSyntax]
  | case6 left op rest hop ih =>
      rcases bind_eq_error.mp h with h | ⟨_, _, h⟩
      · exact ih h
      · cases h

theorem isSyntax_of_single {links : List (Link α)} {err : ParseError}
    (h : Link.single links = .error err) : err.IsSyntax := by
  unfold Link.single at h
  split at h
  · cases h
  · obtain rfl := Except.error.inj h
    simp [ParseError.IsSyntax]
  · obtain rfl := Except.error.inj h
    simp [ParseError.IsSyntax]

theorem isSyntax_of_foldlM_join {levels : List Precedence} {links : List (Link α)}
    {err : ParseError}
    (h : levels.foldlM (fun links level => Link.join level none links) links = .error err) :
    err.IsSyntax := by
  induction levels generalizing links with
  | nil => cases h
  | cons level levels ih =>
      rw [List.foldlM_cons] at h
      rcases bind_eq_error.mp h with h | ⟨joined, _, h⟩
      · exact isSyntax_of_join h
      · exact ih h

theorem isSyntax_of_resolve {row : List (Segment α)} {err : ParseError}
    (h : Segment.resolve row = .error err) : err.IsSyntax := by
  rcases bind_eq_error.mp h with h | ⟨links, _, h⟩
  · exact isSyntax_of_applyUnary h
  rcases bind_eq_error.mp h with h | ⟨joined, _, h⟩
  · exact isSyntax_of_foldlM_join h
  · exact isSyntax_of_single h

theorem isSyntax_of_finish {s : Scope α} {ifEmpty err : ParseError} (hempty : ifEmpty.IsSyntax)
    (h : s.finish ifEmpty = .error err) : err.IsSyntax := by
  unfold Scope.finish at h
  split at h
  · obtain rfl := Except.error.inj h
    exact hempty
  · exact isSyntax_of_resolve h

variable [Numeral α] {known : String → Bool}

/-- The token is a number that cannot be read. -/
def Token.IsUnreadable (α : Type u) [Numeral α] (t : Token) : Prop :=
  ∃ s, t = .number s ∧ (Numeral.ofText? s : Option α) = none

/-- A step fails for a reason of syntax, or at a number that cannot be read. -/
theorem isSyntax_of_step {s : ParseState α} {t : Token} {err : ParseError}
    (h : s.step known t = .error err) : err.IsSyntax ∨ t.IsUnreadable α := by
  unfold ParseState.step at h
  rcases hrole : t.role with text | x | - | - | - | op | op <;> simp only [hrole] at h
  case number =>
    split at h
    · obtain rfl := Except.error.inj h
      exact .inl (by simp [ParseError.IsSyntax])
    · rcases hv : (Numeral.ofText? text : Option α) with - | v
      · exact .inr ⟨text, Token.eq_of_role_number hrole, hv⟩
      · simp [hv] at h
  case name =>
    split at h
    · cases h
    · obtain rfl := Except.error.inj h
      exact .inl (by simp [ParseError.IsSyntax])
  case closing =>
    split at h
    · obtain rfl := Except.error.inj h
      exact .inl (by simp [ParseError.IsSyntax])
    · rcases bind_eq_error.mp h with h | ⟨_, _, h⟩
      · exact .inl (isSyntax_of_finish (by simp [ParseError.IsSyntax]) h)
      · cases h
  all_goals cases h

theorem exists_unreadable_of_foldlM {ts : List Token} {s : ParseState α} {err : ParseError}
    (h : ts.foldlM (ParseState.step known) s = .error err) :
    err.IsSyntax ∨ ∃ t ∈ ts, t.IsUnreadable α := by
  induction ts generalizing s with
  | nil => cases h
  | cons t ts ih =>
      rw [List.foldlM_cons] at h
      rcases bind_eq_error.mp h with h | ⟨s', _, h⟩
      · exact (isSyntax_of_step h).imp_right fun ht => ⟨t, List.mem_cons_self, ht⟩
      · exact (ih h).imp_right fun ⟨t', hmem, ht'⟩ => ⟨t', List.mem_cons_of_mem _ hmem, ht'⟩

/-- Every failure of the parser is one of syntax, unless a number cannot be
read. -/
theorem exists_unreadable_of_parse {ts : List Token} {err : ParseError}
    (h : parse (α := α) known ts = .error err) : err.IsSyntax ∨ ∃ t ∈ ts, t.IsUnreadable α := by
  rcases bind_eq_error.mp h with h | ⟨⟨s, outer⟩, _, h⟩
  · exact exists_unreadable_of_foldlM h
  · unfold ParseState.finish at h
    split at h
    · exact .inl (isSyntax_of_finish (by simp [ParseError.IsSyntax]) h)
    · obtain rfl := Except.error.inj h
      exact .inl (by simp [ParseError.IsSyntax])

/-- No number of a text is unreadable. -/
theorem not_isUnreadable_of_tokenize {text : String} {ts : List Token}
    (h : tokenize text = .ok ts) {t : Token} (ht : t ∈ ts) : ¬t.IsUnreadable Float := by
  rintro ⟨s, rfl, hs⟩
  have hread := (isNumeral_of_tokenize h ht).isSome_ofText?
  rw [show Decimal.ofText? s = none from hs] at hread
  cases hread

/-! ### The parser on a text -/

/-- On the tokens of a text the parser finds a tree exactly if they are a
sentence with that tree, and else it fails with an error of syntax. -/
theorem parse_tokens_of_text {text : String} {ts : List Token} (h : tokenize text = .ok ts) :
    (∀ e : Expr Float, parse anyName ts = .ok e ↔ Derives anyName .extremum ts e) ∧
      ((∀ e : Expr Float, ¬Derives anyName .extremum ts e) →
        ∃ err : ParseError, parse (α := Float) anyName ts = .error err ∧ err.IsSyntax) := by
  refine ⟨fun e => parse_eq_ok_iff, fun hnone => ?_⟩
  cases hparse : parse (α := Float) anyName ts with
  | ok e => exact absurd (parse_eq_ok_iff.mp hparse) (hnone e)
  | error err =>
      refine ⟨err, rfl, ?_⟩
      rcases exists_unreadable_of_parse hparse with hsyntax | ⟨t, hmem, ht⟩
      · exact hsyntax
      · exact absurd ht (not_isUnreadable_of_tokenize h hmem)

/-- A sentence with a multiplication that has no token, and a negation behind
one that has. -/
theorem parse_tokens_of_product :
    tokenize "2x*-(y)" = .ok [.number "2", .identifier "x", .times, .minus, .openParen,
        .identifier "y", .closeParen] ∧
      (∀ e : Expr Float,
        parse anyName [.number "2", .identifier "x", .times, .minus, .openParen,
            .identifier "y", .closeParen] = .ok e ↔
          Derives anyName .extremum [.number "2", .identifier "x", .times, .minus, .openParen,
            .identifier "y", .closeParen] e) :=
  ⟨rfl, (parse_tokens_of_text (show tokenize "2x*-(y)" = .ok _ from rfl)).1⟩

end Formula
