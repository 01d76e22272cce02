/-
Formula/Proofs/Simplify/Decisions.lean

What rules decide.  `Rule.Rebuilds` has one constructor for each identity of the
local rules: the shape of the expression, what is known of the operands, and the
sketch of the result.  `Rule.Decides` adds the moves of the other rules.

The alternatives of a rule are opened here once (`decides_of_move?`).  What is shown
of all rules elsewhere goes by the cases of these two relations.  An identity that
comes late in its rule applies only where earlier ones do not; a constructor says so
where this matters, which is for factors that are known not to be zero.
-/
import Formula.Simplify.Optimize
import Mathlib.Data.List.Basic

namespace Formula

universe u

variable {α : Type u}

namespace Expr

/-! ### Tests -/

theorem isNegation_iff {e : Expr α} : e.isNegation = true ↔ ∃ x, e = .unary .neg x := by
  cases e <;> simp [isNegation]

theorem hasOp_iff {op : BinaryOp} {e : Expr α} :
    e.hasOp op = true ↔ ∃ l r, e = .binary op l r := by
  cases e <;> simp [hasOp]

variable [Arithmetic α]

theorem isValue_iff {v : α} {e : Expr α} :
    e.isValue v = true ↔ ∃ w, e = .const w ∧ Arithmetic.same w v = true := by
  cases e <;> simp [isValue, isConstant]

theorem isReciprocal_iff {e : Expr α} :
    e.isReciprocal = true ↔ ∃ a b, e = .binary .div a b ∧ a.isValue Arithmetic.one = true := by
  cases e <;> simp [isReciprocal]

end Expr

open Expr

variable [Arithmetic α] {s : Settings α} {rule : Rule} {e l r x : Expr α} {sk : Sketch α} {m : Move α}

/-! ### Identities -/

/-- A local rule rebuilds an expression as the sketch says. -/
inductive Rule.Rebuilds (s : Settings α) : Rule → Expr α → Sketch α → Prop
  -- sums, differences, negations
  | add_zero {l r : Expr α} : r.isValue Arithmetic.zero = true →
      Rebuilds s .simplifyAddition (.binary .add l r) (.part [.left])
  | zero_add {l r : Expr α} : l.isValue Arithmetic.zero = true →
      Rebuilds s .simplifyAddition (.binary .add l r) (.part [.right])
  | add_neg {l x : Expr α} :
      Rebuilds s .simplifyAddition (.binary .add l (.unary .neg x))
        (.binary .sub (.part [.left]) (.part [.right, .operand]))
  | neg_add {r x : Expr α} :
      Rebuilds s .simplifyAddition (.binary .add (.unary .neg x) r)
        (.binary .sub (.part [.right]) (.part [.left, .operand]))
  | sub_zero {l r : Expr α} : r.isValue Arithmetic.zero = true →
      Rebuilds s .simplifySubtraction (.binary .sub l r) (.part [.left])
  | zero_sub {l r : Expr α} : l.isValue Arithmetic.zero = true →
      Rebuilds s .simplifySubtraction (.binary .sub l r) (.unary .neg (.part [.right]))
  | sub_self {l r : Expr α} : s.rational = true → alike s l r = true →
      Rebuilds s .simplifySubtraction (.binary .sub l r) (.const Arithmetic.zero)
  | sub_neg {l x : Expr α} :
      Rebuilds s .simplifySubtraction (.binary .sub l (.unary .neg x))
        (.binary .add (.part [.left]) (.part [.right, .operand]))
  | neg_neg {x : Expr α} :
      Rebuilds s .simplifyNegation (.unary .neg (.unary .neg x)) (.part [.operand, .operand])
  | neg_sub {x y : Expr α} :
      Rebuilds s .simplifyNegation (.unary .neg (.binary .sub x y))
        (.binary .sub (.part [.operand, .right]) (.part [.operand, .left]))
  -- products and quotients
  | mul_one {l r : Expr α} : r.isValue Arithmetic.one = true →
      Rebuilds s .simplifyMultiplication (.binary .mul l r) (.part [.left])
  | one_mul {l r : Expr α} : l.isValue Arithmetic.one = true →
      Rebuilds s .simplifyMultiplication (.binary .mul l r) (.part [.right])
  | zero_mul {l r : Expr α} : s.rational = true → l.isValue Arithmetic.zero = true →
      Rebuilds s .simplifyMultiplication (.binary .mul l r) (.const Arithmetic.zero)
  | mul_zero {l r : Expr α} : s.rational = true → r.isValue Arithmetic.zero = true →
      Rebuilds s .simplifyMultiplication (.binary .mul l r) (.const Arithmetic.zero)
  | neg_mul_neg {x y : Expr α} :
      Rebuilds s .simplifyMultiplication (.binary .mul (.unary .neg x) (.unary .neg y))
        (.binary .mul (.part [.left, .operand]) (.part [.right, .operand]))
  | mul_one_div {l x y : Expr α} : x.isValue Arithmetic.one = true →
      (s.rational = true → l.isValue Arithmetic.zero = false) →
      Rebuilds s .simplifyMultiplication (.binary .mul l (.binary .div x y))
        (.binary .div (.part [.left]) (.part [.right, .right]))
  | one_div_mul {r x y : Expr α} : x.isValue Arithmetic.one = true →
      (s.rational = true → r.isValue Arithmetic.zero = false) →
      Rebuilds s .simplifyMultiplication (.binary .mul (.binary .div x y) r)
        (.binary .div (.part [.right]) (.part [.left, .right]))
  | div_one {l r : Expr α} : r.isValue Arithmetic.one = true →
      Rebuilds s .simplifyDivision (.binary .div l r) (.part [.left])
  | div_self {l r : Expr α} : s.rational = true → alike s l r = true →
      Rebuilds s .simplifyDivision (.binary .div l r) (.const Arithmetic.one)
  | zero_div {l r : Expr α} : s.rational = true → l.isValue Arithmetic.zero = true →
      Rebuilds s .simplifyDivision (.binary .div l r) (.const Arithmetic.zero)
  | neg_div_neg {x y : Expr α} :
      Rebuilds s .simplifyDivision (.binary .div (.unary .neg x) (.unary .neg y))
        (.binary .div (.part [.left, .operand]) (.part [.right, .operand]))
  | div_div {r x y : Expr α} :
      Rebuilds s .simplifyDivision (.binary .div (.binary .div x y) r)
        (.binary .div (.part [.left, .left]) (.binary .mul (.part [.left, .right]) (.part [.right])))
  | div_by_div {l x y : Expr α} : (s.rational = true → l.isValue Arithmetic.zero = false) →
      Rebuilds s .simplifyDivision (.binary .div l (.binary .div x y))
        (.binary .div (.binary .mul (.part [.left]) (.part [.right, .right])) (.part [.right, .left]))
  -- powers, roots, logarithms
  | pow_one {l r : Expr α} : r.isValue Arithmetic.one = true →
      Rebuilds s .simplifyExponentiation (.binary .pow l r) (.part [.left])
  | pow_zero {l r : Expr α} : r.isValue Arithmetic.zero = true →
      Rebuilds s .simplifyExponentiation (.binary .pow l r) (.const Arithmetic.one)
  | one_pow {l r : Expr α} : l.isValue Arithmetic.one = true →
      Rebuilds s .simplifyExponentiation (.binary .pow l r) (.const Arithmetic.one)
  | pow_pow {r x y : Expr α} :
      Rebuilds s .simplifyExponentiation (.binary .pow (.binary .pow x y) r)
        (.binary .pow (.part [.left, .left]) (.binary .mul (.part [.left, .right]) (.part [.right])))
  | pow_root {r x y : Expr α} :
      Rebuilds s .simplifyExponentiation (.binary .pow (.binary .root x y) r)
        (.binary .pow (.part [.left, .right]) (.binary .div (.part [.right]) (.part [.left, .left])))
  | root_one {l r : Expr α} : l.isValue Arithmetic.one = true →
      Rebuilds s .simplifyRoot (.binary .root l r) (.part [.right])
  | root_pow {l x y : Expr α} :
      Rebuilds s .simplifyRoot (.binary .root l (.binary .pow x y))
        (.binary .pow (.part [.right, .left]) (.binary .div (.part [.right, .right]) (.part [.left])))
  | root_root {l x y : Expr α} :
      Rebuilds s .simplifyRoot (.binary .root l (.binary .root x y))
        (.binary .root (.binary .mul (.part [.left]) (.part [.right, .left])) (.part [.right, .right]))
  | log_pow {l x y : Expr α} : alike s x l = true →
      Rebuilds s .simplifyLogarithm (.binary .log l (.binary .pow x y)) (.part [.right, .right])
  | log_root {l x y : Expr α} : alike s y l = true →
      Rebuilds s .simplifyLogarithm (.binary .log l (.binary .root x y))
        (.binary .div (.const Arithmetic.one) (.part [.right, .left]))
  | ln_pow {x y : Expr α} : isEuler s x = true →
      Rebuilds s .simplifyNaturalLog (.unary .ln (.binary .pow x y)) (.part [.operand, .right])
  | ln_root {x y : Expr α} : isEuler s y = true →
      Rebuilds s .simplifyNaturalLog (.unary .ln (.binary .root x y))
        (.binary .div (.const Arithmetic.one) (.part [.operand, .left]))

namespace Expr

theorem rebuilds_addition (h : l.simplifyAddition r = some sk) :
    Rule.simplifyAddition.Rebuilds s (.binary .add l r) sk := by
  unfold simplifyAddition at h
  split at h
  · next hr =>
    cases h
    exact .add_zero hr
  split at h
  · next hl =>
    cases h
    exact .zero_add hl
  split at h
  · next hr =>
    obtain ⟨x, rfl⟩ := isNegation_iff.mp hr
    cases h
    exact .add_neg
  split at h
  · next hl =>
    obtain ⟨x, rfl⟩ := isNegation_iff.mp hl
    cases h
    exact .neg_add
  · cases h

theorem rebuilds_subtraction (h : l.simplifySubtraction s r = some sk) :
    Rule.simplifySubtraction.Rebuilds s (.binary .sub l r) sk := by
  unfold simplifySubtraction at h
  split at h
  · next hr =>
    cases h
    exact .sub_zero hr
  split at h
  · next hl =>
    cases h
    exact .zero_sub hl
  split at h
  · next hsame =>
    obtain ⟨hs, hlr⟩ := Bool.and_eq_true_iff.mp hsame
    cases h
    exact .sub_self hs hlr
  split at h
  · next hr =>
    obtain ⟨x, rfl⟩ := isNegation_iff.mp hr
    cases h
    exact .sub_neg
  · cases h

theorem rebuilds_negation (h : x.simplifyNegation = some sk) :
    Rule.simplifyNegation.Rebuilds s (.unary .neg x) sk := by
  unfold simplifyNegation at h
  split at h
  · next hx =>
    obtain ⟨y, rfl⟩ := isNegation_iff.mp hx
    cases h
    exact .neg_neg
  split at h
  · next hx =>
    obtain ⟨y, z, rfl⟩ := hasOp_iff.mp hx
    cases h
    exact .neg_sub
  · cases h

theorem rebuilds_multiplication (h : l.simplifyMultiplication s r = some sk) :
    Rule.simplifyMultiplication.Rebuilds s (.binary .mul l r) sk := by
  unfold simplifyMultiplication at h
  split at h
  · next hr =>
    cases h
    exact .mul_one hr
  split at h
  · next hl =>
    cases h
    exact .one_mul hl
  split at h
  · next hzero =>
    obtain ⟨hs, hlr⟩ := Bool.and_eq_true_iff.mp hzero
    cases h
    rcases Bool.or_eq_true_iff.mp hlr with hl | hr
    · exact .zero_mul hs hl
    · exact .mul_zero hs hr
  next hzero =>
  have hne : s.rational = true → l.isValue Arithmetic.zero = false ∧ r.isValue Arithmetic.zero = false := by
    intro hs
    simpa [hs] using hzero
  split at h
  · next hlr =>
    obtain ⟨hl, hr⟩ := Bool.and_eq_true_iff.mp hlr
    obtain ⟨x, rfl⟩ := isNegation_iff.mp hl
    obtain ⟨y, rfl⟩ := isNegation_iff.mp hr
    cases h
    exact .neg_mul_neg
  split at h
  · next hr =>
    obtain ⟨a, b, rfl, ha⟩ := isReciprocal_iff.mp hr
    cases h
    exact .mul_one_div ha fun hs => (hne hs).1
  split at h
  · next hl =>
    obtain ⟨a, b, rfl, ha⟩ := isReciprocal_iff.mp hl
    cases h
    exact .one_div_mul ha fun hs => (hne hs).2
  · cases h

theorem rebuilds_division (h : l.simplifyDivision s r = some sk) :
    Rule.simplifyDivision.Rebuilds s (.binary .div l r) sk := by
  unfold simplifyDivision at h
  split at h
  · next hr =>
    cases h
    exact .div_one hr
  split at h
  · next hsame =>
    obtain ⟨hs, hlr⟩ := Bool.and_eq_true_iff.mp hsame
    cases h
    exact .div_self hs hlr
  split at h
  · next hzero =>
    obtain ⟨hs, hl⟩ := Bool.and_eq_true_iff.mp hzero
    cases h
    exact .zero_div hs hl
  next hzero =>
  split at h
  · next hlr =>
    obtain ⟨hl, hr⟩ := Bool.and_eq_true_iff.mp hlr
    obtain ⟨x, rfl⟩ := isNegation_iff.mp hl
    obtain ⟨y, rfl⟩ := isNegation_iff.mp hr
    cases h
    exact .neg_div_neg
  split at h
  · next hl =>
    obtain ⟨a, b, rfl⟩ := hasOp_iff.mp hl
    cases h
    exact .div_div
  split at h
  · next hr =>
    obtain ⟨a, b, rfl⟩ := hasOp_iff.mp hr
    cases h
    exact .div_by_div fun hs => by simpa [hs] using hzero
  · cases h

theorem rebuilds_exponentiation (h : l.simplifyExponentiation r = some sk) :
    Rule.simplifyExponentiation.Rebuilds s (.binary .pow l r) sk := by
  unfold simplifyExponentiation at h
  split at h
  · next hr =>
    cases h
    exact .pow_one hr
  split at h
  · next hone =>
    cases h
    rcases Bool.or_eq_true_iff.mp hone with hr | hl
    · exact .pow_zero hr
    · exact .one_pow hl
  split at h
  · next hl =>
    obtain ⟨a, b, rfl⟩ := hasOp_iff.mp hl
    cases h
    exact .pow_pow
  split at h
  · next hl =>
    obtain ⟨a, b, rfl⟩ := hasOp_iff.mp hl
    cases h
    exact .pow_root
  · cases h

theorem rebuilds_root (h : l.simplifyRoot r = some sk) :
    Rule.simplifyRoot.Rebuilds s (.binary .root l r) sk := by
  unfold simplifyRoot at h
  split at h
  · next hl =>
    cases h
    exact .root_one hl
  split at h
  · next hr =>
    obtain ⟨a, b, rfl⟩ := hasOp_iff.mp hr
    cases h
    exact .root_pow
  split at h
  · next hr =>
    obtain ⟨a, b, rfl⟩ := hasOp_iff.mp hr
    cases h
    exact .root_root
  · cases h

/-- The argument of a logarithm that has an exponent is a power or a root. -/
theorem exponentOf?_eq_some {isBase : Expr α → Bool} {slot : Slot}
    (h : exponentOf? isBase slot x = some sk) :
    (∃ a b, x = .binary .pow a b ∧ isBase a = true ∧ sk = .part [slot, .right]) ∨
      ∃ a b, x = .binary .root a b ∧ isBase b = true ∧
        sk = .binary .div (.const Arithmetic.one) (.part [slot, .left]) := by
  unfold exponentOf? at h
  split at h
  · next a b =>
    split at h <;> cases h
    exact .inl ⟨a, b, rfl, ‹_›, rfl⟩
  · next a b =>
    split at h <;> cases h
    exact .inr ⟨a, b, rfl, ‹_›, rfl⟩
  · cases h

theorem rebuilds_logarithm (h : l.simplifyLogarithm s r = some sk) :
    Rule.simplifyLogarithm.Rebuilds s (.binary .log l r) sk := by
  rcases exponentOf?_eq_some h with ⟨a, b, rfl, ha, rfl⟩ | ⟨a, b, rfl, hb, rfl⟩
  · exact .log_pow ha
  · exact .log_root hb

theorem rebuilds_naturalLog (h : x.simplifyNaturalLog s = some sk) :
    Rule.simplifyNaturalLog.Rebuilds s (.unary .ln x) sk := by
  rcases exponentOf?_eq_some h with ⟨a, b, rfl, ha, rfl⟩ | ⟨a, b, rfl, hb, rfl⟩
  · exact .ln_pow ha
  · exact .ln_root hb

end Expr

/-! ### Moves -/

/-- The rule that merges the constants of a chain. -/
def ChainKind.collapseRule : ChainKind → Rule
  | additive => .collapseAdditiveConstants
  | multiplicative => .collapseMultiplicativeConstants

omit [Arithmetic α] in
/-- Constants are merged where there is a chain. -/
theorem collapseRule_mem_rules_iff {kind : ChainKind} :
    kind.collapseRule ∈ e.rules ↔ ∃ op l r, e = .binary op l r ∧ (kind.flips? op).isSome := by
  cases e with
  | hole | const | var => simp [rules]
  | unary op x => cases op <;> cases kind <;> simp [rules, ChainKind.collapseRule]
  | binary op l r => cases op <;> cases kind <;> simp [rules, ChainKind.collapseRule, ChainKind.flips?]

/-- What a rule decides to do to an expression. -/
inductive Rule.Decides (s : Settings α) (e : Expr α) : Rule → Move α → Prop
  | rebuild {rule : Rule} {sk : Sketch α} : rule.Rebuilds s e sk → Decides s e rule (.rebuild sk)
  | pushSign {x : Expr α} : e = .unary .neg x → x.isFactored = true →
      Decides s e .simplifyNegation (.pushSign (.operand :: x.signChange.1) x.signChange.2)
  | collapseAdditive {m : Move α} : e.collapseAdditive = some m → Decides s e .collapseAdditiveConstants m
  | collapseMultiplicative {m : Move α} : e.collapseMultiplicative = some m →
      Decides s e .collapseMultiplicativeConstants m
  | combineLogarithms {m : Move α} : e.combineLogarithms s = some m → Decides s e .combineLogarithms m
  | combineExponents {m : Move α} : e.combineExponents s = some m → Decides s e .combineExponents m

/-- **All that a rule can decide.** -/
theorem decides_of_move? (hrule : rule ∈ e.rules) (h : rule.move? s e = some m) :
    rule.Decides s e m := by
  have hrebuild : ∀ {o : Option (Sketch α)}, o.map Move.rebuild = some m →
      (∀ sk, o = some sk → rule.Rebuilds s e sk) → rule.Decides s e m := by
    intro o h hsk
    obtain ⟨sk, ho, rfl⟩ := Option.map_eq_some_iff.mp h
    exact .rebuild (hsk sk ho)
  -- one case for each rule of the operator
  cases e with
  | hole | const | var => cases hrule
  | unary op x =>
      cases op <;> simp only [rules, List.mem_singleton, List.not_mem_nil] at hrule <;> subst hrule
      case neg =>
        simp only [Rule.move?] at h
        split at h
        · next hx =>
          cases h
          exact .pushSign rfl hx
        · exact hrebuild h fun sk => rebuilds_negation
      case ln => exact hrebuild h fun sk => rebuilds_naturalLog
  | binary op l r =>
      cases op <;> simp only [rules, List.mem_cons, List.not_mem_nil, or_false] at hrule
      case add =>
        rcases hrule with rfl | rfl | rfl
        exacts [hrebuild h fun sk => rebuilds_addition, .collapseAdditive h, .combineLogarithms h]
      case sub =>
        rcases hrule with rfl | rfl | rfl
        exacts [hrebuild h fun sk => rebuilds_subtraction, .collapseAdditive h, .combineLogarithms h]
      case mul =>
        rcases hrule with rfl | rfl | rfl | rfl
        · exact hrebuild h fun sk => rebuilds_multiplication
        · exact .collapseMultiplicative h
        · exact .combineExponents h
        · cases h
      case div =>
        rcases hrule with rfl | rfl | rfl
        exacts [hrebuild h fun sk => rebuilds_division, .collapseMultiplicative h, .combineExponents h]
      case pow =>
        subst hrule
        exact hrebuild h fun sk => rebuilds_exponentiation
      case root =>
        subst hrule
        exact hrebuild h fun sk => rebuilds_root
      case log =>
        subst hrule
        exact hrebuild h fun sk => rebuilds_logarithm

end Formula
