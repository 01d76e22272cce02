/-
Formula/Proofs/Simplify/Tidy.lean

What has been optimized is tidy: a constant, or else an expression without a value
and without a factor that is zero.  An expression is loose if it has a value or no
factor that is zero; when it has a value it is folded, and is tidy then.

If the operands of an operator are tidy, the operator is loose when no rule
applies to it (`loose_of_halted`), and where there are no powers it is loose
after a rule has been applied (`loose_perform`).  The second is what holds if the
passes end early.
-/
import Formula.Proofs.Simplify.ZeroFree

namespace Formula

universe u

open Path (Apart)

variable {K : Type u} [Field K] [Arithmetic K] {D : Domain K} {env ctx : Environment K}
  {s : Settings K} {rule : Rule} {e f l r x : Expr K} {op : BinaryOp} {m : Move K} {sk : Sketch K}
  {p : Path} {c v w : K} {sp : Splice K}

namespace Expr

/-- A constant, or else an expression without a value that is free of zeros. -/
def Tidy (ctx : Environment K) (e : Expr K) : Prop :=
  (∃ c, e = const c) ∨ e.ZeroFree ctx ∧ e.HasFree ctx

/-- An expression that has a value or is free of zeros. -/
def Loose (ctx : Environment K) (e : Expr K) : Prop :=
  (∃ v, e.eval ctx = .ok v) ∨ e.ZeroFree ctx

omit [Field K] in
theorem eval_const : (const c).eval ctx = .ok c := rfl

theorem loose_const : (const c).Loose ctx := .inl ⟨c, eval_const⟩

/-- An operator that is not one of products is free of zeros. -/
theorem loose_binary (hmul : op ≠ .mul) (hdiv : op ≠ .div) : (binary op l r).Loose ctx :=
  .inr (zeroFree_binary hmul hdiv)

theorem Tidy.loose (h : x.Tidy ctx) : x.Loose ctx := by
  rcases h with ⟨c, rfl⟩ | ⟨hz, -⟩
  · exact loose_const
  · exact .inr hz

theorem Loose.neg (h : x.Loose ctx) : (unary .neg x).Loose ctx := by
  rcases h with ⟨v, hv⟩ | hz
  · exact .inl ⟨Arithmetic.unary .neg v, by rw [eval, hv]; rfl⟩
  · exact .inr (zeroFree_neg.mpr hz)

/-- What is tidy and not zero is free of zeros. -/
theorem Tidy.zeroFree (hD : Exact D) (h : x.Tidy ctx) (hx : x.isValue Arithmetic.zero = false) :
    x.ZeroFree ctx := by
  rcases h with ⟨c, rfl⟩ | ⟨hz, -⟩
  · rintro rfl
    rw [Bool.eq_false_iff, ne_eq, hD.isValue_iff, hD.zero] at hx
    exact hx rfl
  · exact hz

omit [Arithmetic K] in
/-- What is tidy and no constant is free of zeros. -/
theorem Tidy.zeroFree_of_ne (h : x.Tidy ctx) (hx : ∀ c, x ≠ const c) : x.ZeroFree ctx := by
  rcases h with ⟨c, rfl⟩ | ⟨hz, -⟩
  · exact absurd rfl (hx c)
  · exact hz

/-- What is loose and has no value is tidy. -/
theorem Loose.tidy (h : x.Loose ctx) (hfilled : x.isFilled) (hx : ∀ v, x.eval ctx ≠ .ok v) :
    x.Tidy ctx :=
  .inr ⟨h.resolve_left fun ⟨v, hv⟩ => hx v hv, hasFree_of_valueless hfilled hx⟩

/-! ### When no rule applies -/

theorem zeroFree_of_simplifyMultiplication (hD : Exact D) (hs : s.rational = true)
    (hl : l.Tidy ctx) (hr : r.Tidy ctx) (h : l.simplifyMultiplication s r = none) :
    (binary .mul l r).ZeroFree ctx := by
  have hzero : l.isValue Arithmetic.zero = false ∧ r.isValue Arithmetic.zero = false := by
    unfold simplifyMultiplication at h
    rw [hs, Bool.true_and] at h
    split at h
    · cases h
    split at h
    · cases h
    split at h
    · cases h
    · next hnot => simpa using hnot
  exact zeroFree_mul.mpr ⟨hl.zeroFree hD hzero.1, hr.zeroFree hD hzero.2⟩

theorem zeroFree_of_simplifyDivision (hD : Exact D) (hs : s.rational = true) (hl : l.Tidy ctx)
    (h : l.simplifyDivision s r = none) : (binary .div l r).ZeroFree ctx := by
  have hzero : l.isValue Arithmetic.zero = false := by
    unfold simplifyDivision at h
    rw [hs, Bool.true_and, Bool.true_and] at h
    split at h
    · cases h
    split at h
    · cases h
    split at h
    · cases h
    · next hnot => simpa using hnot
  exact zeroFree_div.mpr (.inl (hl.zeroFree hD hzero))

/-- An operator with tidy operands to which no rule applies. -/
theorem loose_of_halted (hD : Exact D) (hs : s.rational = true)
    (htidy : ∀ slot x, e.operand? slot = some x → x.Tidy ctx)
    (h : ∀ rule ∈ e.rules, rule ≠ .combineFractions → rule.move? s e = none) : e.Loose ctx := by
  cases e with
  | hole | var => exact .inr trivial
  | const => exact loose_const
  | unary op x =>
      by_cases hop : op = .neg
      · subst hop
        exact (htidy .operand x rfl).loose.neg
      · exact .inr fun heq => absurd heq hop
  | binary op l r =>
      have hl := htidy .left l rfl
      have hr := htidy .right r rfl
      by_cases hmul : op = .mul
      · subst hmul
        have hnone := h .simplifyMultiplication (by simp [rules]) (by decide)
        exact .inr (zeroFree_of_simplifyMultiplication hD hs hl hr (Option.map_eq_none_iff.mp hnone))
      by_cases hdiv : op = .div
      · subst hdiv
        have hnone := h .simplifyDivision (by simp [rules]) (by decide)
        exact .inr (zeroFree_of_simplifyDivision hD hs hl (Option.map_eq_none_iff.mp hnone))
      · exact loose_binary hmul hdiv

/-! ### Sums and negations -/

theorem loose_addition (hl : l.Tidy ctx) (hr : r.Tidy ctx) (h : rule.Rebuilds s (.binary .add l r) sk) :
    ((binary .add l r).build sk).Loose ctx := by
  cases h with
  | add_zero => exact hl.loose
  | zero_add => exact hr.loose
  | add_neg | neg_add => exact loose_binary (by decide) (by decide)

theorem loose_subtraction (hl : l.Tidy ctx) (hr : r.Tidy ctx)
    (h : rule.Rebuilds s (.binary .sub l r) sk) : ((binary .sub l r).build sk).Loose ctx := by
  cases h with
  | sub_zero => exact hl.loose
  | zero_sub => exact hr.loose.neg
  | sub_self => exact loose_const
  | sub_neg => exact loose_binary (by decide) (by decide)

theorem loose_negation (hx : x.Tidy ctx) (h : rule.Rebuilds s (.unary .neg x) sk) :
    ((unary .neg x).build sk).Loose ctx := by
  cases h with
  | neg_neg => exact .inr (zeroFree_neg.mp (hx.zeroFree_of_ne nofun))
  | neg_sub => exact loose_binary (by decide) (by decide)

omit [Field K] [Arithmetic K] in
/-- Without a factor to take up a sign the leftmost factor is no constant. -/
theorem ne_const_of_leftmostFactor (h : x.signAbsorber? = none)
    (hf : x.at? x.leftmostFactor = some f) (c : K) : f ≠ const c := by
  rintro rfl
  induction x with
  | hole | var => cases hf
  | const => cases h
  | unary op x =>
      simp only [leftmostFactor, at?_nil, Option.some.injEq, reduceCtorEq] at hf
  | binary op l r ihl =>
      simp only [leftmostFactor, signAbsorber?] at h hf
      split at h
      · next hop =>
        rw [if_pos hop] at hf
        split at h
        · cases h
        · next hnone => exact ihl hnone hf
      · next hop =>
        rw [if_neg hop] at hf
        cases hf

/-- A product stays free of zeros when a factor takes up a minus sign. -/
theorem zeroFree_put_of_absorbs (hD : Exact D) (hz : x.ZeroFree ctx) {change : SignChange K}
    (h : x.Absorbs p f change) : (x.put p (f.build change.sketch)).ZeroFree ctx := by
  have hpath := h.chainPath
  cases h with
  | flip _ hv =>
      exact hz.put hpath hv (fun hne => hD.neg _ ▸ neg_ne_zero.mpr hne) (fun _ => ⟨_, rfl⟩)
        fun hfree => absurd hfree not_hasFree_const
  | unwrap _ hy =>
      refine hz.put hpath hy zeroFree_neg.mp (fun hconst => ?_) fun hfree => ?_
      · obtain ⟨c, hc⟩ := hconst
        cases hc
      obtain ⟨q, z, hq, hz⟩ := hfree
      cases q with
      | nil => cases hq
      | cons t q =>
          cases t <;> first | cases hq | exact ⟨q, z, hq, hz⟩
  | wrap hnone hf =>
      exact hz.put hpath hf zeroFree_neg.mpr
        (fun hconst => hconst.elim fun c hc => absurd hc (ne_const_of_leftmostFactor hnone hf c))
        fun hfree => hfree.of_part (p := [.operand]) rfl

theorem loose_pushSign (hD : Exact D) (hx : x.Tidy ctx) (hfactored : x.isFactored = true) :
    ((unary .neg x).perform (.pushSign (.operand :: x.signChange.1) x.signChange.2)).Loose ctx := by
  obtain ⟨f, habsorbs⟩ := exists_absorbs x
  rw [perform_pushSign habsorbs.at?]
  -- a constant is not factored, so the tidy operand is free of zeros
  have hz : x.ZeroFree ctx := hx.zeroFree_of_ne fun c hc => by
    rw [hc] at hfactored
    cases hfactored
  exact .inr (zeroFree_put_of_absorbs hD hz habsorbs)

/-- A constant in a sum may become another one. -/
theorem loose_put_sum (hp : ChainPath .additive x p) (hc : x.at? p = some (const c)) :
    (x.put p (const w)).Loose ctx := by
  induction hp with
  | here =>
      rw [put_nil]
      exact loose_const
  | operand hp ih => exact (ih hc).neg
  | left hop _ _ | right hop _ _ => exact loose_binary (by rintro rfl; cases hop) (by rintro rfl; cases hop)

/-- What is left of a sum without one of its terms. -/
theorem loose_splice_sum (hop : (ChainKind.additive.flips? op).isSome) (hl : l.Loose ctx)
    (hr : r.Loose ctx) (hsp : (binary op l r).splice? .additive p = some sp)
    (hp : ((binary op l r).at? p).isSome) : ((binary op l r).splice sp).Loose ctx := by
  have hmul : op ≠ .mul := by rintro rfl; cases hop
  have hdiv : op ≠ .div := by rintro rfl; cases hop
  cases p with
  | nil => cases hsp
  | cons t p =>
      obtain ⟨a, ha⟩ := Option.isSome_iff_exists.mp hp
      obtain ⟨x, hx, hat⟩ := Option.bind_eq_some_iff.mp ha
      rcases splice?_below_or_here hsp hx with ⟨sp', hsp', rfl⟩ | ⟨-, hhere⟩
      · rw [splice_below hx (isSome_place hsp' (Option.isSome_of_eq_some hat))]
        cases t <;> cases hx <;> exact loose_binary hmul hdiv
      · cases t <;> cases hx
        · cases op <;> simp only [ChainKind.flips?, Option.isSome_none, Bool.false_eq_true] at hop <;>
            cases hhere
          · exact hr
          · exact hr.neg
        · cases hhere
          exact hl

theorem loose_collapse_sum {q : Path} (hop : (ChainKind.additive.flips? op).isSome) (hl : l.Tidy ctx)
    (hr : r.Tidy ctx) (hq : ChainPath .additive (binary op l r) q)
    (hc : (binary op l r).at? q = some (const c)) (hp : ((binary op l r).at? p).isSome)
    (hsp : (binary op l r).splice? .additive p = some sp) (hqp : Apart q p) :
    (((binary op l r).put q (const w)).splice sp).Loose ctx := by
  rw [← at?_put_of_apart (f := const w) hqp] at hp
  rw [← splice?_put (f := const w) hqp] at hsp
  cases hq with
  | here => cases hc
  | left _ hq => exact loose_splice_sum hop (loose_put_sum hq hc) hr.loose hsp hp
  | right _ hq => exact loose_splice_sum hop hl.loose (loose_put_sum hq hc) hsp hp

theorem loose_collapseAdditive (hop : (ChainKind.additive.flips? op).isSome) (hl : l.Tidy ctx)
    (hr : r.Tidy ctx) (h : (binary op l r).collapseAdditive = some m) :
    ((binary op l r).perform m).Loose ctx := by
  obtain ⟨first, hfirst, last, hlast, hne, rfl⟩ := collapseAdditive_spec h
  obtain ⟨sp, hrem, hat, hpath, -, hsp⟩ :=
    exists_joinable (mem_constantTerms.mp hlast) (mem_constantTerms.mp hfirst) hne
  rw [perform, hsp]
  exact loose_collapse_sum hop hl hr hpath hat hrem.isSome hsp hrem.apart.symm

/-! ### Products -/

theorem loose_multiplication (hD : Exact D) (hs : s.rational = true) (hl : l.Tidy ctx)
    (hr : r.Tidy ctx) (h : rule.Rebuilds s (.binary .mul l r) sk) :
    ((binary .mul l r).build sk).Loose ctx := by
  cases h with
  | mul_one => exact hl.loose
  | one_mul => exact hr.loose
  | zero_mul | mul_zero => exact loose_const
  | neg_mul_neg =>
      exact .inr (zeroFree_mul.mpr ⟨zeroFree_neg.mp (hl.zeroFree_of_ne nofun),
        zeroFree_neg.mp (hr.zeroFree_of_ne nofun)⟩)
  -- the factor that becomes the numerator is not zero, or the product would be
  | mul_one_div _ hne => exact .inr (zeroFree_div.mpr (.inl (hl.zeroFree hD (hne hs))))
  | one_div_mul _ hne => exact .inr (zeroFree_div.mpr (.inl (hr.zeroFree hD (hne hs))))

theorem loose_division (hD : Exact D) (hs : s.rational = true) (hl : l.Tidy ctx)
    (h : rule.Rebuilds s (.binary .div l r) sk) (hv : Evaluates D env (.binary .div l r) v) :
    ((binary .div l r).build sk).Loose ctx := by
  obtain ⟨a, b, -, hr, hb, -⟩ := hD.evaluates_div.mp hv
  cases h with
  | div_one => exact hl.loose
  | div_self | zero_div => exact loose_const
  | neg_div_neg =>
      exact .inr (zeroFree_div.mpr (.inl (zeroFree_neg.mp (hl.zeroFree_of_ne nofun))))
  | div_div =>
      refine .inr (zeroFree_div.mpr ?_)
      rcases zeroFree_div.mp (hl.zeroFree_of_ne nofun) with hx | ⟨hx, hy⟩
      · exact .inl hx
      · exact .inr ⟨hx, hy.of_part (p := [.left]) rfl⟩
  | div_by_div hne =>
      -- what is divided by is not zero, and neither is what that is divided by
      obtain ⟨c, d, -, hy, hd, rfl⟩ := hD.evaluates_div.mp hr
      exact .inr (zeroFree_div.mpr (.inl (zeroFree_mul.mpr
        ⟨hl.zeroFree hD (hne hs), zeroFree_of_ne_zero hD hy hd⟩)))

/-- A quotient of tidy expressions. -/
theorem loose_div (hl : l.Tidy ctx) (hr : r.Tidy ctx) : (binary .div l r).Loose ctx := by
  rcases hl with ⟨c, rfl⟩ | ⟨hz, -⟩
  · rcases hr with ⟨d, rfl⟩ | ⟨-, hfree⟩
    · exact .inl ⟨_, rfl⟩
    · exact .inr (zeroFree_div.mpr (.inr ⟨⟨c, rfl⟩, hfree⟩))
  · exact .inr (zeroFree_div.mpr (.inl hz))

theorem zeroFree_collapseMultiplicative (hD : Exact D) (hz : e.ZeroFree ctx)
    (h : e.collapseMultiplicative = some m) (hv : Evaluates D env e v) :
    (e.perform m).ZeroFree ctx := by
  obtain ⟨first, hfirst, last, hlast, hne, hpin, rfl⟩ := collapseMultiplicative_spec h
  have hfirst := mem_constantTerms.mp hfirst
  have hlast := mem_constantTerms.mp hlast
  have hfirst0 := ne_zero_of_zeroFree hD hz hv hfirst rfl hpin
  obtain ⟨sp, hrem, hat, hpath, hat', hsp⟩ := exists_joinable hlast hfirst hne
  have hapart := hrem.apart.symm
  rw [perform, hsp]
  refine (hz.put hpath hat (fun hlast0 => ?_) (fun _ => ⟨_, rfl⟩)
    fun hfree => absurd hfree not_hasFree_const).splice hD (chainPath_put hrem.chain hapart) (c := first.value)
    (by rw [at?_put_of_apart hapart, hat']) (by rw [splice?_put hapart, hsp])
  simp only [ConstantTerm.scaled, hD.mul, hD.div, hD.one, ZeroFree]
  change last.value ≠ 0 at hlast0
  cases first.flipped <;> cases last.flipped <;> simp [hfirst0, hlast0]

/-! ### After a rule has been applied -/

/-- Without powers there are none to be merged. -/
theorem combineExponents_eq_none (hpow : ∀ a b, ¬D.binary .pow a b) (hD : Exact D)
    (hv : Evaluates D env e v) : e.combineExponents s = none := by
  rw [Option.eq_none_iff_forall_not_mem]
  intro m h
  obtain ⟨entry, hentry, hbase, -⟩ := combineExponents_spec h
  obtain ⟨u, hu⟩ := hv.part (at?_of_mem_termsFrom hentry).1
  rcases powerBase?_eq_some hbase with ⟨y, hy⟩ | ⟨d, hd⟩
  · obtain ⟨a, b, -, -, hmem, -⟩ := evaluates_binary.mp (hy ▸ hu)
    exact hpow a b hmem
  · obtain ⟨a, b, -, -, -, hmem, -⟩ := hD.evaluates_root.mp (hd ▸ hu)
    exact hpow b (1 / a) hmem

/-- Where there are no powers, an operator with tidy operands is loose after it has been
rebuilt. -/
theorem loose_of_rebuilds (hD : Exact D) (hpow : ∀ a b, ¬D.binary .pow a b) (hs : s.rational = true)
    (htidy : ∀ slot x, e.operand? slot = some x → x.Tidy ctx) (h : rule.Rebuilds s e sk)
    (hv : Evaluates D env e v) : (e.build sk).Loose ctx := by
  cases e with
  | hole | const | var => cases h
  | unary op x =>
      cases op
      case neg => exact loose_negation (htidy .operand x rfl) h
      case ln => exact absurd hv hD.not_evaluates_ln
      all_goals cases h
  | binary op l r =>
      have hl := htidy .left l rfl
      have hr := htidy .right r rfl
      cases op
      case add => exact loose_addition hl hr h
      case sub => exact loose_subtraction hl hr h
      case mul => exact loose_multiplication hD hs hl hr h
      case div => exact loose_division hD hs hl h hv
      case pow =>
        obtain ⟨a, b, -, -, hmem, -⟩ := evaluates_binary.mp hv
        exact absurd hmem (hpow a b)
      case root =>
        obtain ⟨a, b, -, -, -, hmem, -⟩ := hD.evaluates_root.mp hv
        exact absurd hmem (hpow b (1 / a))
      case log => exact absurd hv hD.not_evaluates_log
      all_goals cases h

/-- Where there are no powers, an operator with tidy operands is loose after a rule
has been applied to it. -/
theorem loose_perform (hD : Exact D) (hpow : ∀ a b, ¬D.binary .pow a b) (hs : s.rational = true)
    (htidy : ∀ slot x, e.operand? slot = some x → x.Tidy ctx) (hrule : rule ∈ e.rules)
    (h : rule.move? s e = some m) (hz : rule = .collapseMultiplicativeConstants → e.ZeroFree ctx)
    (hv : Evaluates D env e v) : (e.perform m).Loose ctx := by
  cases decides_of_move? hrule h with
  | rebuild hsk => exact loose_of_rebuilds hD hpow hs htidy hsk hv
  | pushSign heq hfactored =>
      subst heq
      exact loose_pushSign hD (htidy .operand _ rfl) hfactored
  | collapseAdditive h =>
      have hmem : ChainKind.additive.collapseRule ∈ e.rules := hrule
      obtain ⟨op, l, r, rfl, hop⟩ := collapseRule_mem_rules_iff.mp hmem
      exact loose_collapseAdditive hop (htidy .left l rfl) (htidy .right r rfl) h
  | collapseMultiplicative h => exact .inr (zeroFree_collapseMultiplicative hD (hz rfl) h hv)
  | combineLogarithms h => cases (combineLogarithms_eq_none hD hv).symm.trans h
  | combineExponents h => cases (combineExponents_eq_none hpow hD hv).symm.trans h

end Expr

end Formula
