/-
Formula/Proofs/Simplify/Meaning.lean

The rules keep the value.  In exact arithmetic, and without a tolerance, an
expression that has a value within the domain has the same value after a rule has
been applied to it (`evaluates_perform`).  Only one rule needs more than that:
when a constant is multiplied into another one that is divided by, it must not be
zero.
-/
import Formula.Proofs.Simplify.Merging

namespace Formula

universe u

open Expr (Evaluates)

variable {K : Type u} [Field K] [Arithmetic K] {D : Domain K} {env : Environment K} {s : Settings K}
  {rule : Rule} {e f l r t x : Expr K} {sk : Sketch K} {m : Move K} {a b c u v w : K} {p : Path}

namespace Expr

/-- Without a tolerance only equal expressions are alike. -/
theorem eq_of_alike (hD : Exact D) (hε : s.epsilon = 0) (h : alike s l r = true) : l = r := by
  rw [alike, hε] at h
  exact hD.eq_of_equals h

/-! ### Sums, differences, negations -/

theorem evaluates_addition (hD : Exact D) (h : rule.Rebuilds s (.binary .add l r) sk)
    (hv : Evaluates D env (.binary .add l r) v) :
    Evaluates D env ((Expr.binary .add l r).build sk) v := by
  obtain ⟨a, b, hl, hr, rfl⟩ := hD.evaluates_add.mp hv
  cases h with
  | add_zero hzero =>
      rw [hD.eq_zero hzero hr, add_zero]
      exact hl
  | zero_add hzero =>
      rw [hD.eq_zero hzero hl, zero_add]
      exact hr
  | add_neg =>
      obtain ⟨c, hx, rfl⟩ := hD.evaluates_neg.mp hr
      exact hD.evaluates_sub.mpr ⟨a, c, hl, hx, (sub_eq_add_neg a c).symm⟩
  | neg_add =>
      obtain ⟨c, hx, rfl⟩ := hD.evaluates_neg.mp hl
      exact hD.evaluates_sub.mpr ⟨b, c, hr, hx, neg_add_eq_sub c b⟩

theorem evaluates_subtraction (hD : Exact D) (hε : s.epsilon = 0)
    (h : rule.Rebuilds s (.binary .sub l r) sk) (hv : Evaluates D env (.binary .sub l r) v) :
    Evaluates D env ((Expr.binary .sub l r).build sk) v := by
  obtain ⟨a, b, hl, hr, rfl⟩ := hD.evaluates_sub.mp hv
  cases h with
  | sub_zero hzero =>
      rw [hD.eq_zero hzero hr, sub_zero]
      exact hl
  | zero_sub hzero =>
      rw [hD.eq_zero hzero hl, zero_sub]
      exact hD.evaluates_neg.mpr ⟨b, hr, rfl⟩
  | sub_self _ hsame =>
      obtain rfl := eq_of_alike hD hε hsame
      rw [hl.unique hr, sub_self]
      exact hD.evaluates_zero
  | sub_neg =>
      obtain ⟨c, hx, rfl⟩ := hD.evaluates_neg.mp hr
      exact hD.evaluates_add.mpr ⟨a, c, hl, hx, sub_neg_eq_add a c⟩

theorem evaluates_negation (hD : Exact D) (h : rule.Rebuilds s (.unary .neg x) sk)
    (hv : Evaluates D env (.unary .neg x) v) : Evaluates D env ((Expr.unary .neg x).build sk) v := by
  obtain ⟨a, hx, rfl⟩ := hD.evaluates_neg.mp hv
  cases h with
  | neg_neg =>
      obtain ⟨c, hy, rfl⟩ := hD.evaluates_neg.mp hx
      rw [neg_neg]
      exact hy
  | neg_sub =>
      obtain ⟨b, c, hy, hz, rfl⟩ := hD.evaluates_sub.mp hx
      exact hD.evaluates_sub.mpr ⟨c, b, hz, hy, neg_sub b c⟩

/-! ### Products and quotients -/

theorem evaluates_multiplication (hD : Exact D) (h : rule.Rebuilds s (.binary .mul l r) sk)
    (hv : Evaluates D env (.binary .mul l r) v) :
    Evaluates D env ((Expr.binary .mul l r).build sk) v := by
  obtain ⟨a, b, hl, hr, rfl⟩ := hD.evaluates_mul.mp hv
  cases h with
  | mul_one hone =>
      rw [hD.eq_one hone hr, mul_one]
      exact hl
  | one_mul hone =>
      rw [hD.eq_one hone hl, one_mul]
      exact hr
  -- a product with a zero is zero in a field, whatever the other operand is
  | zero_mul _ hzero =>
      rw [hD.eq_zero hzero hl, zero_mul]
      exact hD.evaluates_zero
  | mul_zero _ hzero =>
      rw [hD.eq_zero hzero hr, mul_zero]
      exact hD.evaluates_zero
  | neg_mul_neg =>
      obtain ⟨c, hx, rfl⟩ := hD.evaluates_neg.mp hl
      obtain ⟨d, hy, rfl⟩ := hD.evaluates_neg.mp hr
      exact hD.evaluates_mul.mpr ⟨c, d, hx, hy, neg_mul_neg c d⟩
  | mul_one_div hone =>
      obtain ⟨c, d, hx, hy, hd, rfl⟩ := hD.evaluates_div.mp hr
      rw [hD.eq_one hone hx, mul_one_div]
      exact hD.evaluates_div.mpr ⟨a, d, hl, hy, hd, rfl⟩
  | one_div_mul hone =>
      obtain ⟨c, d, hx, hy, hd, rfl⟩ := hD.evaluates_div.mp hl
      rw [hD.eq_one hone hx, one_div_mul_eq_div]
      exact hD.evaluates_div.mpr ⟨b, d, hr, hy, hd, rfl⟩

theorem evaluates_division (hD : Exact D) (hε : s.epsilon = 0)
    (h : rule.Rebuilds s (.binary .div l r) sk) (hv : Evaluates D env (.binary .div l r) v) :
    Evaluates D env ((Expr.binary .div l r).build sk) v := by
  obtain ⟨a, b, hl, hr, hb, rfl⟩ := hD.evaluates_div.mp hv
  cases h with
  | div_one hone =>
      rw [hD.eq_one hone hr, div_one]
      exact hl
  | div_self _ hsame =>
      -- without a tolerance operands alike are the same, and a divisor is not zero
      obtain rfl := eq_of_alike hD hε hsame
      rw [hl.unique hr, div_self hb]
      exact hD.evaluates_one
  | zero_div _ hzero =>
      rw [hD.eq_zero hzero hl, zero_div]
      exact hD.evaluates_zero
  | neg_div_neg =>
      obtain ⟨c, hx, rfl⟩ := hD.evaluates_neg.mp hl
      obtain ⟨d, hy, rfl⟩ := hD.evaluates_neg.mp hr
      exact hD.evaluates_div.mpr ⟨c, d, hx, hy, neg_ne_zero.mp hb, neg_div_neg_eq c d⟩
  | div_div =>
      obtain ⟨c, d, hx, hy, hd, rfl⟩ := hD.evaluates_div.mp hl
      exact hD.evaluates_div.mpr ⟨c, d * b, hx, hD.evaluates_mul.mpr ⟨d, b, hy, hr, rfl⟩,
        mul_ne_zero hd hb, div_div c d b⟩
  | div_by_div =>
      obtain ⟨c, d, hx, hy, hd, rfl⟩ := hD.evaluates_div.mp hr
      exact hD.evaluates_div.mpr ⟨a * d, c, hD.evaluates_mul.mpr ⟨a, d, hl, hy, rfl⟩, hx,
        (div_ne_zero_iff.mp hb).1, div_div_eq_mul_div a c d⟩

/-! ### Powers and roots -/

theorem evaluates_exponentiation (hD : Exact D) (h : rule.Rebuilds s (.binary .pow l r) sk)
    (hv : Evaluates D env (.binary .pow l r) v) :
    Evaluates D env ((Expr.binary .pow l r).build sk) v := by
  obtain ⟨a, b, hl, hr, hmem, rfl⟩ := evaluates_binary.mp hv
  cases h with
  | pow_one hone =>
      rw [hD.eq_one hone hr] at hmem ⊢
      rw [hD.pow_one a hmem]
      exact hl
  | pow_zero hzero =>
      rw [hD.eq_zero hzero hr] at hmem ⊢
      rw [hD.pow_zero a hmem]
      exact hD.evaluates_one
  | one_pow hone =>
      rw [hD.eq_one hone hl] at hmem ⊢
      rw [hD.one_pow b hmem]
      exact hD.evaluates_one
  | pow_pow =>
      obtain ⟨c, d, hx, hy, hinner, rfl⟩ := evaluates_binary.mp hl
      -- the law needs the inner power as well as the outer one to be in the domain
      obtain ⟨hmem', heq⟩ := hD.pow_pow c d b hinner hmem
      exact evaluates_binary.mpr ⟨c, d * b, hx, hD.evaluates_mul.mpr ⟨d, b, hy, hr, rfl⟩, hmem',
        heq.symm⟩
  | pow_root =>
      obtain ⟨c, d, hx, hy, hc, hinner, rfl⟩ := hD.evaluates_root.mp hl
      obtain ⟨hmem', heq⟩ := hD.pow_pow d (1 / c) b hinner hmem
      rw [one_div_mul_eq_div] at hmem' heq
      exact evaluates_binary.mpr ⟨d, b / c, hy, hD.evaluates_div.mpr ⟨b, c, hr, hx, hc, rfl⟩, hmem',
        heq.symm⟩

theorem evaluates_root (hD : Exact D) (h : rule.Rebuilds s (.binary .root l r) sk)
    (hv : Evaluates D env (.binary .root l r) v) :
    Evaluates D env ((Expr.binary .root l r).build sk) v := by
  obtain ⟨a, b, hl, hr, ha, hmem, rfl⟩ := hD.evaluates_root.mp hv
  cases h with
  | root_one hone =>
      rw [hD.eq_one hone hl, one_div_one] at hmem ⊢
      rw [hD.pow_one b hmem]
      exact hr
  | root_pow =>
      obtain ⟨c, d, hx, hy, hinner, rfl⟩ := evaluates_binary.mp hr
      obtain ⟨hmem', heq⟩ := hD.pow_pow c d (1 / a) hinner hmem
      rw [mul_one_div] at hmem' heq
      exact evaluates_binary.mpr ⟨c, d / a, hx, hD.evaluates_div.mpr ⟨d, a, hy, hl, ha, rfl⟩, hmem',
        heq.symm⟩
  | root_root =>
      obtain ⟨c, d, hx, hy, hc, hinner, rfl⟩ := hD.evaluates_root.mp hr
      obtain ⟨hmem', heq⟩ := hD.pow_pow d (1 / c) (1 / a) hinner hmem
      rw [one_div_mul_one_div_rev] at hmem' heq
      exact hD.evaluates_root.mpr ⟨a * c, d, hD.evaluates_mul.mpr ⟨a, c, hl, hx, rfl⟩, hy,
        mul_ne_zero ha hc, hmem', heq.symm⟩

/-- Every identity keeps the value. -/
theorem evaluates_of_rebuilds (hD : Exact D) (hε : s.epsilon = 0) (h : rule.Rebuilds s e sk)
    (hv : Evaluates D env e v) : Evaluates D env (e.build sk) v := by
  cases e with
  | hole | const | var => cases h
  | unary op x =>
      cases op
      case neg => exact evaluates_negation hD h hv
      case ln => exact absurd hv hD.not_evaluates_ln
      all_goals cases h
  | binary op l r =>
      cases op
      case add => exact evaluates_addition hD h hv
      case sub => exact evaluates_subtraction hD hε h hv
      case mul => exact evaluates_multiplication hD h hv
      case div => exact evaluates_division hD hε h hv
      case pow => exact evaluates_exponentiation hD h hv
      case root => exact evaluates_root hD h hv
      case log => exact absurd hv hD.not_evaluates_log
      all_goals cases h

/-! ### Signs -/

/-- The factor that takes up a minus sign gets the opposite value. -/
theorem evaluates_of_absorbs (hD : FieldDomain D) {change : SignChange K} (h : x.Absorbs p f change)
    (hu : Evaluates D env f u) : Evaluates D env (f.build change.sketch) (-u) := by
  cases h with
  | flip =>
      rw [evaluates_const.mp hu]
      exact evaluates_const.mpr (hD.neg _).symm
  | unwrap =>
      obtain ⟨c, hc, rfl⟩ := hD.evaluates_neg.mp hu
      rw [neg_neg]
      exact hc
  | wrap => exact hD.evaluates_neg.mpr ⟨u, hu, rfl⟩

/-- A product in which a factor takes up a minus sign has the opposite value. -/
theorem evaluates_rebuildAt_signChange (hD : FieldDomain D) (hx : Evaluates D env x v) :
    Evaluates D env (x.rebuildAt x.signChange.1 x.signChange.2.sketch) (-v) := by
  obtain ⟨f, habsorbs⟩ := exists_absorbs x
  have hf := habsorbs.at?
  obtain ⟨u, hu⟩ := hx.part hf
  have hbuild := evaluates_of_absorbs hD habsorbs hu
  obtain ⟨k, rfl, hput⟩ := exists_value hD habsorbs.chainPath hx hf hu
  rw [rebuildAt, part_of_at? hf]
  refine (hput _ _ hbuild fun _ => neg_ne_zero.mpr).of_eq ?_
  cases x.isFlipped .multiplicative x.signChange.1 <;>
    simp [ChainKind.join, ChainKind.contribution, inv_neg]

theorem evaluates_pushSign (hD : Exact D) (hv : Evaluates D env (.unary .neg x) v) :
    Evaluates D env
      ((Expr.unary .neg x).perform (.pushSign (.operand :: x.signChange.1) x.signChange.2)) v := by
  obtain ⟨a, hx, rfl⟩ := hD.evaluates_neg.mp hv
  obtain ⟨f, habsorbs⟩ := exists_absorbs x
  have hf := habsorbs.at?
  have hnegated := evaluates_rebuildAt_signChange hD.fieldDomain hx
  rw [rebuildAt, part_of_at? hf] at hnegated
  rwa [perform_pushSign hf]

/-! ### Constants -/

/-- Two constants are merged if the one that stays contributes what both did. -/
theorem evaluates_collapse {kind : ChainKind} {first last : ConstantTerm K} (hD : Exact D)
    (hv : Evaluates D env e v) (hfirst : first ∈ e.constantTerms kind)
    (hlast : last ∈ e.constantTerms kind) (hne : first.path ≠ last.path)
    (hw : kind.contribution last.flipped w = kind.join (kind.contribution first.flipped first.value)
      (kind.contribution last.flipped last.value)) (hallow : kind.Allows last.value w) :
    Evaluates D env (e.perform (.collapse kind last.path w first.path)) v := by
  have hfirst := mem_constantTerms.mp hfirst
  have hlast := mem_constantTerms.mp hlast
  obtain ⟨sp, hrem, hat', hpath', hat, hsp⟩ := exists_joinable hlast hfirst hne
  obtain ⟨k, rfl, hmerge⟩ := exists_merge hD hrem.chain hpath' hrem.apart hv hat (.const _) hat'
    (.const _) hsp
  have hflip := flipped_of_mem_terms hfirst
  have hflip' := flipped_of_mem_terms hlast
  simp only at hflip hflip' hsp
  rw [← hflip, ← hflip', ← hw, hflip', perform, hsp]
  exact hmerge _ w (.const w) hallow

theorem evaluates_collapseAdditive (hD : Exact D) (h : e.collapseAdditive = some m)
    (hv : Evaluates D env e v) : Evaluates D env (e.perform m) v := by
  obtain ⟨first, hfirst, last, hlast, hne, rfl⟩ := collapseAdditive_spec h
  refine evaluates_collapse hD hv hfirst hlast hne ?_ nofun
  simp only [ConstantTerm.signed, hD.add, hD.neg]
  cases first.flipped <;> cases last.flipped <;> simp [ChainKind.contribution, ChainKind.join, add_comm]

theorem evaluates_collapseMultiplicative (hD : Exact D) (h : e.collapseMultiplicative = some m)
    (hzero : ∀ c ∈ e.constantTerms .multiplicative, c.pinned = false → c.value ≠ 0)
    (hv : Evaluates D env e v) : Evaluates D env (e.perform m) v := by
  obtain ⟨first, hfirst, last, hlast, hne, hpin, rfl⟩ := collapseMultiplicative_spec h
  have hfirst0 := hzero first hfirst hpin
  refine evaluates_collapse hD hv hfirst hlast hne ?_ fun _ hlast0 => ?_
  · simp only [ConstantTerm.scaled, hD.mul, hD.div, hD.one]
    cases first.flipped <;> cases last.flipped <;> simp [ChainKind.contribution, ChainKind.join]
  · simp only [ConstantTerm.scaled, hD.mul, hD.div, hD.one]
    cases first.flipped <;> cases last.flipped <;> simp [hfirst0, hlast0]

/-! ### Powers of the same base -/

/-- A factor is a power of its base with its exponent. -/
theorem evaluates_exponent (hD : Exact D) {b : K} (ht : Evaluates D env t u)
    (hb : Evaluates D env (t.powerBase?.getD t) b) (hone : D.binary .pow b 1) :
    ∃ c, Evaluates D env (t.build t.exponent) c ∧ D.binary .pow b c ∧ u = Arithmetic.binary .pow b c := by
  cases hbase : t.powerBase? with
  | some x =>
      rw [hbase, Option.getD_some] at hb
      rcases powerBase?_eq_some hbase with ⟨y, rfl⟩ | ⟨d, rfl⟩
      · obtain ⟨b', c, hb', hc, hmem, rfl⟩ := evaluates_binary.mp ht
        obtain rfl := hb.unique hb'
        exact ⟨c, hc, hmem, rfl⟩
      · obtain ⟨c, b', hc, hb', hc0, hmem, rfl⟩ := hD.evaluates_root.mp ht
        obtain rfl := hb.unique hb'
        exact ⟨1 / c, hD.evaluates_div.mpr ⟨1, c, hD.evaluates_one, hc, hc0, rfl⟩, hmem, rfl⟩
  | none =>
      rw [hbase, Option.getD_none] at hb
      obtain rfl := ht.unique hb
      have hexponent : t.exponent = .const Arithmetic.one := by
        cases t with
        | binary op l r => cases op <;> simp [powerBase?, exponent, hasOp] at hbase ⊢
        | _ => rfl
      rw [hexponent]
      exact ⟨1, hD.evaluates_one, hone, (hD.pow_one _ hone).symm⟩

/-- A power or root, turned into a power. -/
theorem evaluates_normalized (hD : Exact D) {x : Expr K} {b : K} (hbase : t.powerBase? = some x)
    (hx : Evaluates D env x b) (ht : Evaluates D env t u) (hat : e.at? p = some t) :
    ∃ y c, (if t.hasOp .root then e.rebuildAt p rootAsPower else e).at? p = some (.binary .pow x y) ∧
      Evaluates D env y c ∧ D.binary .pow b c ∧ u = Arithmetic.binary .pow b c := by
  obtain ⟨y, hpow, rfl | ⟨d, rfl, rfl⟩⟩ := exists_normalized hbase hat
  · obtain ⟨b', c, hb', hc, hmem, rfl⟩ := evaluates_binary.mp ht
    obtain rfl := hx.unique hb'
    exact ⟨y, c, hpow, hc, hmem, rfl⟩
  · obtain ⟨c, b', hc, hb', hc0, hmem, rfl⟩ := hD.evaluates_root.mp ht
    obtain rfl := hx.unique hb'
    exact ⟨_, 1 / c, hpow, hD.evaluates_div.mpr ⟨1, c, hD.evaluates_one, hc, hc0, rfl⟩, hmem, rfl⟩

theorem evaluates_combineExponents (hD : Exact D) (hε : s.epsilon = 0)
    (h : e.combineExponents s = some m) (hv : Evaluates D env e v) :
    Evaluates D env (e.perform m) v := by
  obtain ⟨entry, hentry, hbase, t, ht, hne, -, hsame, rfl⟩ := combineExponents_spec h
  obtain ⟨sp, hrem, hat', hpath', hat, hsp⟩ := exists_joinable hentry ht hne
  obtain ⟨u, hu⟩ := hv.part hat
  obtain ⟨w, hw⟩ := hv.part hat'
  obtain ⟨b, hb⟩ : ∃ b, Evaluates D env entry.base b := by
    rcases powerBase?_eq_some hbase with ⟨y, hy⟩ | ⟨d, hd⟩
    · exact (hy ▸ hw).operand (s := .left) rfl
    · exact (hd ▸ hw).operand (s := .right) rfl
  obtain ⟨y, a, hkept, hy, hmem, rfl⟩ := evaluates_normalized hD hbase hb hw hat'
  rw [hε] at hsame
  obtain ⟨c, hc, hmem', rfl⟩ := evaluates_exponent hD hu (hD.eq_of_equals hsame ▸ hb)
    (hD.one_mem b a hmem)
  obtain ⟨k, rfl, hmerge⟩ := exists_merge hD hrem.chain hpath' hrem.apart hv hat hu hat' hw hsp
  rw [perform_joinPowers hkept hrem hat hsp, flipped_of_mem_terms hentry, flipped_of_mem_terms ht]
  have hflip := ne_zero_of_isFlipped hD.fieldDomain hrem.chain hv hat hu
  have hflip' := ne_zero_of_isFlipped hD.fieldDomain hpath' hv hat' hw
  have hne0 := hD.pow_ne_zero b a c hmem hmem'
  split
  · next heq =>
    obtain ⟨hmemadd, hadd⟩ := hD.pow_add b a c hmem hmem'
    have hsum := evaluates_binary.mpr
      ⟨b, a + c, hb, hD.evaluates_add.mpr ⟨a, c, hy, hc, rfl⟩, hmemadd, rfl⟩
    refine (hmerge _ _ hsum fun _ ha => ?_).of_eq ?_
    · rw [hadd]
      exact mul_ne_zero ha (hne0 ha)
    · rw [hadd, heq]
      cases e.isFlipped .multiplicative t.path <;> simp [ChainKind.join, ChainKind.contribution, mul_comm]
  · next hdiff =>
    -- one of the two is divided by, so the base is not zero
    have hc0 : Arithmetic.binary .pow b c ≠ 0 := by
      cases hb : e.isFlipped .multiplicative t.path with
      | true => exact hflip hb
      | false =>
          refine hne0 (hflip' ?_)
          rw [hb] at hdiff
          simpa using hdiff
    obtain ⟨hmemsub, hsub⟩ := hD.pow_sub b a c hmem hmem' hc0
    have hdifference := evaluates_binary.mpr
      ⟨b, a - c, hb, hD.evaluates_sub.mpr ⟨a, c, hy, hc, rfl⟩, hmemsub, rfl⟩
    refine (hmerge _ _ hdifference fun _ ha => ?_).of_eq ?_
    · rw [hsub]
      exact div_ne_zero ha hc0
    · rw [hsub]
      cases hb : e.isFlipped .multiplicative t.path <;>
        cases hb' : e.isFlipped .multiplicative entry.term.path <;>
        simp_all [ChainKind.join, ChainKind.contribution, div_eq_mul_inv, mul_comm]

/-! ### Logarithms -/

/-- There are no logarithms to be merged. -/
theorem combineLogarithms_eq_none (hD : Exact D) (hv : Evaluates D env e v) :
    e.combineLogarithms s = none := by
  rw [Option.eq_none_iff_forall_not_mem]
  intro m h
  obtain ⟨_, -, t, ht, -, -, hlog, -⟩ := combineLogarithms_spec h
  obtain ⟨u, hu⟩ := hv.part (at?_of_mem_termsFrom ht).1
  generalize t.expr = x at hlog hu
  cases x with
  | unary op x =>
      cases op <;> simp only [logBase?, reduceCtorEq, if_false, Option.isSome_none, Bool.false_eq_true]
        at hlog
      exact hD.not_evaluates_ln hu
  | binary op l r =>
      cases op <;> simp only [logBase?, reduceCtorEq, if_false, Option.isSome_none, Bool.false_eq_true]
        at hlog
      exact hD.not_evaluates_log hu
  | _ => cases hlog

end Expr

/-! ### All rules -/

/-- **A rule keeps the value.**  Constants that are multiplied into others must not
be zero. -/
theorem evaluates_perform (hD : Exact D) (hε : s.epsilon = 0) (hrule : rule ∈ e.rules)
    (h : rule.move? s e = some m) (hzero : rule = .collapseMultiplicativeConstants →
      ∀ c ∈ e.constantTerms .multiplicative, c.pinned = false → c.value ≠ 0)
    (hv : Evaluates D env e v) : Evaluates D env (e.perform m) v := by
  cases decides_of_move? hrule h with
  | rebuild hsk => exact Expr.evaluates_of_rebuilds hD hε hsk hv
  | pushSign heq =>
      subst heq
      exact Expr.evaluates_pushSign hD hv
  | collapseAdditive h => exact Expr.evaluates_collapseAdditive hD h hv
  | collapseMultiplicative h => exact Expr.evaluates_collapseMultiplicative hD h (hzero rfl) hv
  | combineLogarithms h => cases (Expr.combineLogarithms_eq_none hD hv).symm.trans h
  | combineExponents h => exact Expr.evaluates_combineExponents hD hε h hv

end Formula
