/-
Formula/Proofs/Sentence.lean

`parse` succeeds exactly on the sentences of the grammar, with their trees.

The parser takes tokens from left to right and keeps a stack of open levels.
`Reads tokens state` is its invariant: every open level is spelled by the
tokens taken since its parenthesis was opened, where a closed group counts as
one leaf phrase.  A level that is spelled and whose row is a phrase is spelled
by a phrase; this is where a row is cut at an operator, and the tokens with
it (`Spells.cut_binary`, `Spells.cut_unary`).

Conversely a phrase drives the parser from any level that does not end in a
value to the same level with a phrase of segments on top.  A multiplication
of neighbours is the one place where the parser stands behind a value; there
the first step puts the multiplication in (`step_behind_value`).
-/
import Formula.Proofs.Row

namespace Formula

universe u

variable {α : Type u}

/-! ### Tokens and their roles -/

namespace Token

theorem eq_of_role_number {t : Token} {s : String} (h : t.role = .number s) : t = .number s := by
  cases t <;> simp_all [role]

theorem eq_of_role_name {t : Token} {x : String} (h : t.role = .name x) : t = .identifier x := by
  cases t <;> simp_all [role]

theorem eq_of_role_opening {t : Token} (h : t.role = .opening) : t = .openParen := by
  cases t <;> simp_all [role]

theorem eq_of_role_closing {t : Token} (h : t.role = .closing) : t = .closeParen := by
  cases t <;> simp_all [role]

theorem eq_of_role_minus {t : Token} (h : t.role = .minus) : t = .minus := by
  cases t <;> simp_all [role]

end Token

/-! ### The level as the tokens spell it -/

/-- Which segment the token of an operator stands for.  `before` is how the
tokens before it end. -/
inductive Denotes (before : Ended) : Token → Segment α → Prop
  | binary {t : Token} {op : BinaryOp} : t.role = .binary op → Denotes before t (.binary op)
  | function {t : Token} {op : UnaryOp} : t.role = .function op → Denotes before t (.unary op)
  | subtraction : before ≠ .nothing → Denotes before .minus (.binary .sub)
  | negation : before = .nothing → Denotes before .minus (.unary .neg)

/-- What goes in front of a value. -/
def inFront (before : Ended) : List (Segment α) :=
  if before = .nothing then [] else [.binary .mul]

theorem Scope.value_eq (s : Scope α) (e : Expr α) (c : Ended) :
    s.value e c = ⟨.operand e :: (inFront s.ended ++ s.reversed), c⟩ := by
  cases h : s.ended <;> simp [Scope.value, Scope.juxtapose, inFront, h]

theorem Denotes.ended_eq {before : Ended} {t : Token} {segment : Segment α}
    (h : Denotes before t segment) : t.ended = .nothing := by
  cases h with
  | @binary t _ ht => cases t <;> simp_all [Token.role, Token.ended]
  | @function t _ ht => cases t <;> simp_all [Token.role, Token.ended]
  | _ => rfl

/-- What connects two stretches of a level: the token of the operator, or no
token for a multiplication of neighbours. -/
inductive Connects (α : Type u) (left right : List Token) : BinaryOp → List Token → Prop
  | token {t : Token} {op : BinaryOp} : Denotes (endOf left) t (.binary op : Segment α) →
      Connects α left right op [t]
  | neighbours : SideBySide left right → Connects α left right .mul []

/-- It is still there when the second stretch grows. -/
theorem Connects.append {left right mid : List Token} {op : BinaryOp}
    (h : Connects α left right op mid) (vs : List Token) :
    Connects α left (right ++ vs) op mid := by
  cases h with
  | token ht => exact .token ht
  | neighbours h =>
      obtain ⟨hleft, t, hright, ht⟩ := h
      exact .neighbours ⟨hleft, t, by simp_all [List.head?_append], ht⟩

theorem finish_of_rowDerives {row : List (Segment α)} {e : Expr α}
    (h : RowDerives .extremum row e) (ended : Ended) (ifEmpty : ParseError) :
    Scope.finish ⟨row.reverse, ended⟩ ifEmpty = .ok e := by
  cases hreversed : row.reverse with
  | nil => exact absurd (List.reverse_eq_nil_iff.mp hreversed) h.ne_nil
  | cons segment reversed =>
      change Segment.resolve (segment :: reversed).reverse = .ok e
      rw [← hreversed, List.reverse_reverse]
      exact resolve_eq_ok_iff.mpr h

/-- A row around a binary operator, read from its end. -/
theorem reverse_row (left right : List (Segment α)) (op : BinaryOp) :
    (left ++ .binary op :: right).reverse = right.reverse ++ .binary op :: left.reverse := by
  simp

/-- A row around a binary operator as it lies on top of a level. -/
theorem reverse_binary (left right rest : List (Segment α)) (op : BinaryOp) :
    (left ++ .binary op :: right).reverse ++ rest
      = right.reverse ++ (.binary op :: (left.reverse ++ rest)) := by
  simp

variable [Numeral α] {known : String → Bool}

/-- A leaf starts with a token that starts a value; it is a number if that is
one. -/
theorem Derives.startsValue {ts : List Token} {e : Expr α} (h : Derives known .leaf ts e) :
    ∃ t ∈ ts.head?, t.startsValue ∧ (t.isNumber → endOf ts = .number) := by
  generalize hlevel : Precedence.leaf = level at h
  induction h with
  | number => exact ⟨_, rfl, rfl, fun _ => rfl⟩
  | name => exact ⟨_, rfl, rfl, by simp [Token.isNumber]⟩
  | group => exact ⟨_, rfl, rfl, by simp [Token.isNumber]⟩
  | @binary _ op => cases op <;> cases hlevel
  | tighter _ ih => subst hlevel; exact ih rfl
  | _ => cases hlevel

/-- The tokens spell the level: taken one by one, and closed groups as a
whole, they make its segments. -/
inductive Spells (known : String → Bool) : List Token → Scope α → Prop
  | start : Spells known [] .start
  | value {ts vs : List Token} {s : Scope α} {e : Expr α} :
      Spells known ts s → Derives known .leaf vs e →
      (s.ended = .number → endOf vs ≠ .number) →
      Spells known (ts ++ vs) (s.value e (endOf vs))
  | operator {ts : List Token} {s : Scope α} {t : Token} {segment : Segment α} :
      Spells known ts s → Denotes s.ended t segment →
      Spells known (ts ++ [t]) (s.operator segment)

namespace Spells

variable {ts : List Token} {s : Scope α}

/-- The level remembers how the tokens end. -/
theorem ended_eq (h : Spells known ts s) : s.ended = endOf ts := by
  cases h with
  | start => rfl
  | value _ hvs _ => simp [Scope.value, endOf_append _ hvs.ne_nil]
  | operator _ ht => simp [Scope.operator, ht.ended_eq]

/-- No tokens spell an empty level. -/
theorem nil_of_empty (h : Spells known ts s) (hs : s.reversed = []) : ts = [] := by
  cases h with
  | start => rfl
  | value => simp [Scope.value] at hs
  | operator => simp [Scope.operator] at hs

/-- A level of one operand is spelled by a leaf. -/
theorem leaf_of_operand {e : Expr α} (h : Spells known ts s) (hs : s.reversed = [.operand e]) :
    Derives known .leaf ts e := by
  cases h with
  | start => simp [Scope.start] at hs
  | @value ts vs s e' hts hvs _ =>
      simp only [Scope.value_eq, List.cons.injEq, List.append_eq_nil_iff] at hs
      obtain ⟨he, -, hrest⟩ := hs
      obtain rfl := Segment.operand.inj he
      obtain rfl := hts.nil_of_empty hrest
      exact hvs
  | operator _ ht =>
      simp only [Scope.operator, List.cons.injEq] at hs
      obtain ⟨rfl, -⟩ := hs
      cases ht

/-- A value goes on top of the end of a level as it does on top of the level. -/
theorem value_above {tr vs : List Token} {r : List (Segment α)} {e : Expr α} {c : Ended}
    (htr : Spells known tr ⟨r, c⟩) (hvs : Derives known .leaf vs e)
    (hnumbers : c = .number → endOf vs ≠ .number) :
    Spells known (tr ++ vs) ⟨.operand e :: (inFront c ++ r), endOf vs⟩ := by
  have h := htr.value hvs hnumbers
  rwa [Scope.value_eq] at h

/-- Tokens that spell a level whose first segment is a unary operator start
with its token. -/
theorem cut_unary {r : List (Segment α)} {op : UnaryOp} (h : Spells known ts s)
    (hs : s.reversed = r ++ [.unary op]) :
    ∃ t tr, ts = t :: tr ∧ Spells known tr ⟨r, s.ended⟩ ∧
      Denotes .nothing t (.unary op : Segment α) := by
  induction h generalizing r with
  | start => simp [Scope.start] at hs
  | @value ts vs s e hts hvs hnumbers ih =>
      rw [Scope.value_eq] at hs ⊢
      -- a value has been read last, so the operator is further in front
      obtain ⟨r, rfl, hrest⟩ : ∃ r', r = .operand e :: (inFront s.ended ++ r') ∧
          s.reversed = r' ++ [.unary op] := by
        unfold inFront at hs ⊢
        by_cases hended : s.ended = .nothing
        · cases r <;> simp_all
        · rcases r with - | ⟨_, - | ⟨_, r⟩⟩ <;> simp_all
      obtain ⟨t, tr, rfl, htr, ht⟩ := ih hrest
      exact ⟨t, tr ++ vs, rfl, htr.value_above hvs hnumbers, ht⟩
  | @operator ts s t segment hts ht ih =>
      simp only [Scope.operator] at hs ⊢
      -- the operator has been read last, and nothing before it, or it is further in front
      cases r with
      | nil =>
          obtain ⟨rfl, hrest⟩ := List.cons.inj hs
          obtain rfl := hts.nil_of_empty hrest
          rw [hts.ended_eq] at ht
          exact ⟨t, [], rfl, .start, ht⟩
      | cons _ r =>
          obtain ⟨rfl, hrest⟩ := List.cons.inj hs
          obtain ⟨t', tr, rfl, htr, ht'⟩ := ih hrest
          exact ⟨t', tr ++ [t], rfl, htr.operator ht, ht'⟩

/-- Where a level is cut at a binary operator, so are the tokens. -/
theorem cut_binary {r l : List (Segment α)} {op : BinaryOp} (h : Spells known ts s)
    (hs : s.reversed = r ++ .binary op :: l) :
    ∃ tl mid tr c, ts = tl ++ (mid ++ tr) ∧ Spells known tl ⟨l, c⟩ ∧
      Spells known tr ⟨r, s.ended⟩ ∧ Connects α tl tr op mid := by
  induction h generalizing r with
  | start => simp [Scope.start] at hs
  | @value ts vs s e hts hvs hnumbers ih =>
      rw [Scope.value_eq] at hs ⊢
      have hcases : (s.ended ≠ .nothing ∧ r = [.operand e] ∧ op = .mul ∧ s.reversed = l) ∨
          ∃ r', r = .operand e :: (inFront s.ended ++ r') ∧ s.reversed = r' ++ .binary op :: l := by
        unfold inFront at hs ⊢
        by_cases hended : s.ended = .nothing
        · cases r <;> simp_all
        · rcases r with - | ⟨_, - | ⟨_, r⟩⟩ <;> simp_all
      rcases hcases with ⟨hended, rfl, rfl, rfl⟩ | ⟨r, rfl, hrest⟩
      · -- the value is put behind a multiplication that has no token
        obtain ⟨t, hhead, ht, hnumber⟩ := hvs.startsValue
        have hvalue := value_above .start hvs (by simp)
        refine ⟨ts, [], vs, s.ended, rfl, hts, hvalue, .neighbours ?_⟩
        rw [hts.ended_eq] at hended hnumbers
        exact ⟨hended, t, hhead, ht, fun h => hnumbers h.1 (hnumber h.2)⟩
      · obtain ⟨tl, mid, tr, c, rfl, htl, htr, hmid⟩ := ih hrest
        exact ⟨tl, mid, tr ++ vs, c, by simp, htl, htr.value_above hvs hnumbers, hmid.append vs⟩
  | @operator ts s t segment hts ht ih =>
      simp only [Scope.operator] at hs ⊢
      cases r with
      | nil =>
          obtain ⟨rfl, rfl⟩ := List.cons.inj hs
          rw [hts.ended_eq] at ht
          exact ⟨ts, [t], [], s.ended, rfl, hts, .start, .token ht⟩
      | cons _ r =>
          obtain ⟨rfl, hrest⟩ := List.cons.inj hs
          obtain ⟨tl, mid, tr, c, rfl, htl, htr, hmid⟩ := ih hrest
          exact ⟨tl, mid, tr ++ [t], c, by simp, htl, htr.operator ht, hmid.append [t]⟩

/-- Tokens that spell the row of a phrase are a phrase. -/
theorem derives {level : Precedence} {row : List (Segment α)} {e : Expr α}
    (hrow : RowDerives level row e) (h : Spells known ts s) (hs : s.reversed = row.reverse) :
    Derives known level ts e := by
  induction hrow generalizing ts s with
  | operand e => exact h.leaf_of_operand hs
  | @unary op row e _ ih =>
      obtain ⟨t, tr, rfl, htr, ht⟩ := h.cut_unary (hs.trans List.reverse_cons)
      cases ht with
      | function ht => exact .function ht (ih htr rfl)
      | negation => exact .negation (ih htr rfl)
  | @binary op l r a b _ _ ihl ihr =>
      obtain ⟨tl, mid, tr, c, rfl, htl, htr, hmid⟩ :=
        h.cut_binary (hs.trans (reverse_row l r op))
      cases hmid with
      | token ht =>
          cases ht with
          | binary ht => exact .binary ht (ihl htl rfl) (ihr htr rfl)
          | subtraction => exact .subtraction (ihl htl rfl) (ihr htr rfl)
      | neighbours hside => exact .juxtaposition hside (ihl htl rfl) (ihr htr rfl)
  | tighter _ ih => exact .tighter (ih h hs)

end Spells

/-! ### Soundness -/

/-- What a finished level stands for is the tree of its tokens. -/
theorem derives_of_finish {ts : List Token} {s : Scope α} {e : Expr α} {ifEmpty : ParseError}
    (h : Spells known ts s) (hfinish : s.finish ifEmpty = .ok e) :
    Derives known .extremum ts e := by
  unfold Scope.finish at hfinish
  split at hfinish
  · cases hfinish
  · exact h.derives (resolve_eq_ok_iff.mp hfinish) (List.reverse_reverse _).symm

/-- The tokens have led the parser to the state: every open level is spelled
by the tokens since it was opened. -/
inductive Reads (known : String → Bool) : List Token → ParseState α → Prop
  | level {ts : List Token} {s : Scope α} : Spells known ts s → Reads known ts ⟨s, []⟩
  | inner {ts us : List Token} {around s : Scope α} {outer : List (Scope α)} :
      Reads known ts ⟨around, outer⟩ → Spells known us s →
      Reads known (ts ++ .openParen :: us) ⟨s, around.juxtapose :: outer⟩

namespace Reads

/-- More tokens of the innermost level. -/
theorem extend {ts vs : List Token} {s s' : Scope α} {outer : List (Scope α)}
    (h : Reads known ts ⟨s, outer⟩)
    (hvs : ∀ us, Spells known us s → Spells known (us ++ vs) s') :
    Reads known (ts ++ vs) ⟨s', outer⟩ := by
  cases h with
  | level hts => exact .level (hvs _ hts)
  | inner hts hus =>
      rw [List.append_assoc, List.cons_append]
      exact .inner hts (hvs _ hus)

/-- One step keeps the invariant. -/
theorem step {ts : List Token} {s s' : ParseState α} {t : Token} (h : Reads known ts s)
    (hstep : s.step known t = .ok s') : Reads known (ts ++ [t]) s' := by
  obtain ⟨s, outer⟩ := s
  unfold ParseState.step at hstep
  rcases hrole : t.role with text | x | - | - | - | op | op <;> simp only [hrole] at hstep
  case number =>
    obtain rfl := Token.eq_of_role_number hrole
    split at hstep
    · cases hstep
    · next hended =>
      rcases hv : (Numeral.ofText? text : Option α) with - | v
      · simp [hv] at hstep
      · simp only [hv, Except.ok.injEq] at hstep
        subst hstep
        exact h.extend fun us hus => hus.value (.number hv) fun hc => absurd hc hended
  case name =>
    obtain rfl := Token.eq_of_role_name hrole
    split at hstep
    · next hx =>
      obtain rfl := Except.ok.inj hstep
      exact h.extend fun us hus => hus.value (.name hx) (by simp [Token.ended])
    · cases hstep
  case opening =>
    obtain rfl := Token.eq_of_role_opening hrole
    obtain rfl := Except.ok.inj hstep
    exact .inner h .start
  case closing =>
    obtain rfl := Token.eq_of_role_closing hrole
    cases h with
    | level => cases hstep
    | @inner ts us around _ outer hts hus =>
        obtain ⟨e, hfinish, hstep⟩ := bind_eq_ok.mp hstep
        obtain rfl := Except.ok.inj hstep
        -- the level between the parentheses is a group, and so one value for the level around
        have hgroup : Derives known .leaf (.openParen :: (us ++ [.closeParen])) e :=
          .group (derives_of_finish hus hfinish)
        rw [List.append_assoc, List.cons_append]
        refine hts.extend fun vs hvs => ?_
        have hvalue := hvs.value hgroup (by rw [← List.cons_append, endOf_concat]; simp [Token.ended])
        rwa [← List.cons_append, endOf_concat] at hvalue
  case minus =>
    obtain rfl := Token.eq_of_role_minus hrole
    obtain rfl := Except.ok.inj hstep
    refine h.extend fun us hus => hus.operator ?_
    split
    · next hended => exact .negation hended
    · next hended => exact .subtraction hended
  case binary =>
    obtain rfl := Except.ok.inj hstep
    exact h.extend fun us hus => hus.operator (.binary hrole)
  case function =>
    obtain rfl := Except.ok.inj hstep
    exact h.extend fun us hus => hus.operator (.function hrole)

/-- A run of the parser keeps the invariant. -/
theorem foldlM_step {ts us : List Token} {s s' : ParseState α} (h : Reads known ts s)
    (hrun : us.foldlM (ParseState.step known) s = .ok s') : Reads known (ts ++ us) s' := by
  induction us generalizing ts s with
  | nil =>
      obtain rfl := Except.ok.inj hrun
      simpa using h
  | cons t us ih =>
      rw [List.foldlM_cons] at hrun
      obtain ⟨s₁, hstep, hrun⟩ := bind_eq_ok.mp hrun
      rw [List.append_cons]
      exact ih (h.step hstep) hrun

end Reads

/-- What is parsed is the tree of a sentence. -/
theorem derives_of_parse {ts : List Token} {e : Expr α} (h : parse known ts = .ok e) :
    Derives known .extremum ts e := by
  obtain ⟨⟨s, outer⟩, hrun, hfinish⟩ := bind_eq_ok.mp h
  have hreads : Reads known ts ⟨s, outer⟩ :=
    Reads.foldlM_step (.level .start : Reads known [] .start) hrun
  cases hreads with
  | level hts => exact derives_of_finish hts hfinish
  | inner => cases hfinish

/-! ### Completeness -/

/-- Behind a value, a token that starts a value finds the multiplication in
front of it. -/
theorem step_behind_value {t : Token} {rest : List (Segment α)} {before : Ended}
    {outer : List (Scope α)} (hbefore : before ≠ .nothing) (ht : t.startsValue)
    (hnumbers : ¬(before = .number ∧ t.isNumber)) :
    ParseState.step known ⟨⟨rest, before⟩, outer⟩ t
      = ParseState.step known ⟨⟨.binary .mul :: rest, .nothing⟩, outer⟩ t := by
  cases t with
  | number s =>
      have hnumber : before ≠ .number := fun h => hnumbers ⟨h, rfl⟩
      cases before <;> simp_all [ParseState.step, Token.role, Scope.value, Scope.juxtapose]
  | identifier x =>
      cases before <;> simp_all [ParseState.step, Token.role, Scope.value, Scope.juxtapose]
  | openParen =>
      cases before <;> simp_all [ParseState.step, Token.role, Scope.juxtapose]
  | _ => cases ht

theorem foldlM_step_behind_value {l r : List Token} {rest : List (Segment α)}
    {outer : List (Scope α)} (h : SideBySide l r) :
    r.foldlM (ParseState.step known) ⟨⟨rest, endOf l⟩, outer⟩
      = r.foldlM (ParseState.step known) ⟨⟨.binary .mul :: rest, .nothing⟩, outer⟩ := by
  obtain ⟨hended, t, hhead, ht, hnumbers⟩ := h
  obtain ⟨r, rfl⟩ : ∃ r', r = t :: r' := by
    cases r <;> simp_all
  rw [List.foldlM_cons, List.foldlM_cons, step_behind_value hended ht hnumbers]

/-- A phrase drives the parser through a level that does not end in a value,
and leaves a phrase of segments on top of it. -/
theorem foldlM_step_of_derives {level : Precedence} {ts : List Token} {e : Expr α}
    (h : Derives known level ts e) :
    ∃ row, RowDerives level row e ∧ ∀ (rest : List (Segment α)) (outer : List (Scope α)),
      ts.foldlM (ParseState.step known) ⟨⟨rest, .nothing⟩, outer⟩
        = .ok ⟨⟨row.reverse ++ rest, endOf ts⟩, outer⟩ := by
  induction h with
  | number hv =>
      refine ⟨_, .operand _, fun rest outer => ?_⟩
      simp [ParseState.step, Token.role, hv, Scope.value, Scope.juxtapose, Token.ended, pure,
        Except.pure, bind, Except.bind]
  | name hx =>
      refine ⟨_, .operand _, fun rest outer => ?_⟩
      simp [ParseState.step, Token.role, hx, Scope.value, Scope.juxtapose, Token.ended, pure,
        Except.pure, bind, Except.bind]
  | @group ts e _ ih =>
      obtain ⟨row, hrow, hrun⟩ := ih
      refine ⟨_, .operand e, fun rest outer => ?_⟩
      have hfinish : Scope.finish ⟨row.reverse, endOf ts⟩ .emptyGroup = .ok e :=
        finish_of_rowDerives hrow _ _
      -- what is read between the parentheses is a level of its own
      have hinner := hrun [] (⟨rest, .nothing⟩ :: outer)
      rw [List.append_nil] at hinner
      rw [← List.cons_append, endOf_concat, List.cons_append, List.foldlM_cons]
      refine bind_eq_ok.mpr ⟨⟨.start, ⟨rest, .nothing⟩ :: outer⟩, rfl, ?_⟩
      rw [List.foldlM_append]
      refine bind_eq_ok.mpr ⟨_, hinner, ?_⟩
      simp [ParseState.step, Token.role, Token.ended, hfinish, pure, Except.pure, bind, Except.bind]
  | @function t op ts e ht h ih =>
      obtain ⟨row, hrow, hrun⟩ := ih
      refine ⟨_, .unary hrow, fun rest outer => ?_⟩
      rw [List.foldlM_cons, endOf_cons t h.ne_nil, List.reverse_cons, List.append_assoc]
      refine bind_eq_ok.mpr ⟨_, ?_, hrun _ outer⟩
      simp [ParseState.step, ht, Scope.operator]
  | @negation ts e h ih =>
      obtain ⟨row, hrow, hrun⟩ := ih
      refine ⟨_, .unary hrow, fun rest outer => ?_⟩
      rw [List.foldlM_cons, endOf_cons _ h.ne_nil, List.reverse_cons, List.append_assoc]
      exact bind_eq_ok.mpr ⟨_, rfl, hrun _ outer⟩
  | @binary t op l r a b ht hl hr ihl ihr =>
      obtain ⟨left, hleft, hrunl⟩ := ihl
      obtain ⟨right, hright, hrunr⟩ := ihr
      refine ⟨_, .binary hleft hright, fun rest outer => ?_⟩
      rw [List.foldlM_append, endOf_append _ (List.cons_ne_nil t r), endOf_cons t hr.ne_nil]
      refine bind_eq_ok.mpr ⟨_, hrunl rest outer, ?_⟩
      rw [List.foldlM_cons, reverse_binary]
      refine bind_eq_ok.mpr ⟨_, ?_, hrunr _ outer⟩
      simp [ParseState.step, ht, Scope.operator]
  | @subtraction l r a b hl hr ihl ihr =>
      obtain ⟨left, hleft, hrunl⟩ := ihl
      obtain ⟨right, hright, hrunr⟩ := ihr
      refine ⟨_, RowDerives.binary_of rfl hleft hright, fun rest outer => ?_⟩
      rw [List.foldlM_append, endOf_append _ (List.cons_ne_nil _ r), endOf_cons _ hr.ne_nil]
      refine bind_eq_ok.mpr ⟨_, hrunl rest outer, ?_⟩
      rw [List.foldlM_cons, reverse_binary]
      refine bind_eq_ok.mpr ⟨_, ?_, hrunr _ outer⟩
      have hvalue := hl.endsValue
      cases hended : endOf l <;>
        simp_all [ParseState.step, Token.role, Scope.minus, Scope.operator]
  | @juxtaposition l r a b hside hl hr ihl ihr =>
      obtain ⟨left, hleft, hrunl⟩ := ihl
      obtain ⟨right, hright, hrunr⟩ := ihr
      refine ⟨_, RowDerives.binary_of rfl hleft hright, fun rest outer => ?_⟩
      rw [List.foldlM_append, endOf_append _ hr.ne_nil]
      refine bind_eq_ok.mpr ⟨_, hrunl rest outer, ?_⟩
      rw [reverse_binary, foldlM_step_behind_value hside]
      exact hrunr _ outer
  | tighter _ ih =>
      obtain ⟨row, hrow, hrun⟩ := ih
      exact ⟨row, .tighter hrow, hrun⟩

/-- `parse` finds exactly the trees of sentences. -/
theorem parse_eq_ok_iff {ts : List Token} {e : Expr α} :
    parse known ts = .ok e ↔ Derives known .extremum ts e := by
  refine ⟨derives_of_parse, fun h => ?_⟩
  obtain ⟨row, hrow, hrun⟩ := foldlM_step_of_derives h
  have hall := hrun [] []
  rw [List.append_nil] at hall
  exact bind_eq_ok.mpr ⟨_, hall, finish_of_rowDerives hrow _ _⟩

end Formula
