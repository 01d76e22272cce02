/-
Formula/Proofs/Simplify/Steady.lean

Tallies that no step raises.  For a tally to be steady, a value that is computed from
constants must not count more than the constants do (`Tally.Steady`).  This needs to be
so only for the operators of a vocabulary, which expressions do not leave; without
quotients, say, there are no reciprocals of constants in a chain of factors
(`Expr.Over.div_of_isFlipped`).

Then no rule raises the tally, except that the merging of exponents must be looked at
apart, and a part counts at least what the value counts to which it is folded.  So the
tally bounds what each constant counts that the optimizer may bring about
(`Expr.const_le_of_reflTransGen`).
-/
import Formula.Proofs.Simplify.Folding
import Formula.Proofs.Simplify.Fragment
import Formula.Proofs.Simplify.Merging
import Formula.Proofs.Simplify.Tally
import Formula.Proofs.Simplify.Termination

namespace Formula

universe u

open Relation (ReflTransGen)

variable {α : Type u}

/-- All operators. -/
def Vocabulary.all : Vocabulary where
  unary _ := True
  binary _ := True
  sub_of_add := id
  add_of_sub := id
  neg_of_sub := id
  mul_of_div := id
  mul_of_pow := id
  add_of_pow := id
  pow_of_root := id
  div_of_root := id
  div_of_log := id
  div_of_ln := id

/-- What operators of the vocabulary compute from constants counts no more than the
constants do. -/
structure Tally.Steady [Arithmetic α] (w : Tally α) (V : Vocabulary) (env : Environment α) : Prop where
  fair : w.Fair
  unary : ∀ op v, V.unary op → w.const (Arithmetic.unary op v) ≤ w.const v
  binary : ∀ op v v', V.binary op → w.const (Arithmetic.binary op v v') ≤ w.const v + w.const v'
  reciprocal : ∀ v, V.binary .div → w.const (Arithmetic.binary .div Arithmetic.one v) ≤ w.const v
  /-- A difference that is cancelled leaves a zero. -/
  cancel : V.binary .sub → w.const Arithmetic.zero ≤ w.node
  /-- Exponents that are merged get more operators and ones. -/
  powers : V.binary .pow → w.node = 0 ∧ w.const Arithmetic.one = 0
  /-- A variable counts what its value does. -/
  known : ∀ x v, env x = some v → w.const v ≤ w.var

/-- The operator that merges the constants of a chain. -/
def ChainKind.merger : ChainKind → BinaryOp
  | additive => .add
  | multiplicative => .mul

namespace Expr

variable {V : Vocabulary} {w : Tally α} {e f : Expr α} {p : Path} {v : α}

theorem over_all (e : Expr α) : e.Over .all := by
  induction e with
  | hole | const | var => trivial
  | unary op x ih => exact ⟨trivial, ih⟩
  | binary op l r ihl ihr => exact ⟨trivial, ihl, ihr⟩

/-! ### Constants of chains -/

/-- A factor is below a quotient if it enters the chain as a divisor. -/
theorem Over.div_of_isFlipped (he : e.Over V) (h : e.isFlipped .multiplicative p = true) :
    V.binary .div := by
  induction e generalizing p with
  | hole | const | var => cases h
  | unary op x ih =>
      rcases p with _ | ⟨_ | _ | _, p⟩ <;> simp only [isFlipped, reduceCtorEq] at h
      change (x.isFlipped .multiplicative p != false) = true at h
      exact ih he.2 (by simpa using h)
  | binary op l r ihl ihr =>
      rcases p with _ | ⟨_ | _ | _, p⟩ <;> simp only [isFlipped, reduceCtorEq] at h
      · exact ihl he.2.1 h
      · cases hr : r.isFlipped .multiplicative p with
        | true => exact ihr he.2.2 hr
        | false =>
          obtain rfl : op = .div := by
            cases op <;> simp_all [ChainKind.flips?]
          exact he.1

/-- Constants are merged where the vocabulary has the operator that merges them. -/
theorem Over.binary_of_collapseRule {kind : ChainKind} (he : e.Over V)
    (hrule : kind.collapseRule ∈ e.rules) : V.binary kind.merger := by
  obtain ⟨op, l, r, rfl, hop⟩ := collapseRule_mem_rules_iff.mp hrule
  cases kind <;> cases op <;> simp only [ChainKind.flips?, Option.isSome_none, Bool.false_eq_true] at hop
  exacts [he.1, V.add_of_sub he.1, he.1, V.mul_of_div he.1]

variable [Arithmetic α] {s : Settings α} {env : Environment α} {rule : Rule} {m : Move α}
  {kind : ChainKind} {first last : ConstantTerm α}

/-- What a constant contributes to a sum counts no more than the constant. -/
theorem const_signed_le (hw : w.Fair) (c : ConstantTerm α) : w.const c.signed ≤ w.const c.value := by
  unfold ConstantTerm.signed
  split
  exacts [hw.neg _, le_rfl]

/-- What a constant contributes to a product counts no more than the constant. -/
theorem const_scaled_le (hw : w.Steady V env) (he : e.Over V)
    (h : first ∈ e.constantTerms .multiplicative) : w.const first.scaled ≤ w.const first.value := by
  unfold ConstantTerm.scaled
  split
  · next hflipped =>
    have hterm := flipped_of_mem_terms (mem_constantTerms.mp h)
    exact hw.reciprocal _ (he.div_of_isFlipped (hterm.symm.trans hflipped))
  · exact le_rfl

/-- Two constants of a chain become one that counts no more than both of them. -/
theorem const_merged_le (hw : w.Steady V env) (he : e.Over V) (hrule : kind.collapseRule ∈ e.rules)
    (hfirst : first ∈ e.constantTerms kind) (hlast : last ∈ e.constantTerms kind) :
    w.const (first.merged last kind) ≤ w.const first.value + w.const last.value := by
  cases kind with
  | additive =>
      have htotal := hw.binary .add first.signed last.signed (he.binary_of_collapseRule hrule)
      have hsigned := const_signed_le hw.fair first
      have hsigned' := const_signed_le hw.fair last
      have hneg := hw.fair.neg (Arithmetic.binary .add first.signed last.signed)
      simp only [ConstantTerm.merged]
      split <;> omega
  | multiplicative =>
      have hproduct := hw.binary .mul first.scaled last.scaled (he.binary_of_collapseRule hrule)
      have hscaled := const_scaled_le hw he hfirst
      have hscaled' := const_scaled_le hw he hlast
      simp only [ConstantTerm.merged]
      split
      · next hflipped =>
        have hterm := flipped_of_mem_terms (mem_constantTerms.mp hlast)
        have hreciprocal := hw.reciprocal (Arithmetic.binary .mul first.scaled last.scaled)
          (he.div_of_isFlipped (hterm.symm.trans hflipped))
        omega
      · omega

/-! ### Steps -/

/-- No rule raises a steady tally. -/
theorem tally_perform_of_steady (hw : w.Steady V env) (he : e.isFilled) (hover : e.Over V)
    (hrule : rule ∈ e.rules) (h : rule.move? s e = some m) : (e.perform m).tally w ≤ e.tally w := by
  by_cases hpowers : rule = .combineExponents
  · subst hpowers
    have h : e.combineExponents s = some m := by cases e <;> exact h
    obtain ⟨b, -, hle⟩ := tally_combineExponents hw.fair he h
    have hpow : V.binary .pow := by
      by_contra hpow
      rw [hover.combineExponents_eq_none hpow] at h
      cases h
    have hfree := hw.powers hpow
    omega
  · refine tally_perform hw.fair he hrule h hpowers ?_ ?_
    · rintro rfl
      have hsub : V.binary .sub := by
        cases e with
        | binary op l r =>
          cases op <;> simp [rules] at hrule
          exact hover.1
        | unary op x => cases op <;> simp [rules] at hrule
        | _ => simp [rules] at hrule
      exact hw.cancel hsub
    · rintro kind rfl first hfirst last hlast
      exact const_merged_le hw hover hrule hfirst hlast

/-- An expression counts at least what its value does. -/
theorem const_le_of_eval (hw : w.Steady V env) (hover : e.Over V) (h : e.eval env = .ok v) :
    w.const v ≤ e.tally w := by
  induction e generalizing v with
  | hole => cases h
  | const c =>
      obtain rfl := Except.ok.inj h
      exact le_rfl
  | var x =>
      rw [eval] at h
      split at h <;> cases h
      exact hw.known x _ ‹_›
  | unary op x ih =>
      obtain ⟨a, ha, rfl⟩ := eval_unary_eq_ok.mp h
      have hx := ih hover.2 ha
      have hop := hw.unary op a hover.1
      rw [tally]
      omega
  | binary op l r ihl ihr =>
      obtain ⟨a, b, ha, hb, rfl⟩ := eval_binary_eq_ok.mp h
      have hl := ihl hover.2.1 ha
      have hr := ihr hover.2.2 hb
      have hop := hw.binary op a b hover.1
      rw [tally]
      omega

/-- No step raises a steady tally, nor does it leave the vocabulary. -/
theorem Rewrites.tally_le (h : Rewrites s env e f) (hw : w.Steady V env) (he : e.isFilled)
    (hover : e.Over V) : f.Over V ∧ f.tally w ≤ e.tally w := by
  induction h with
  | rule hrule hm => exact ⟨hover.perform hrule hm, tally_perform_of_steady hw he hover hrule hm⟩
  | fractions => exact ⟨hover.fractions, (tally_fractions _ _ _).le⟩
  | fold _ hv => exact ⟨trivial, const_le_of_eval hw hover hv⟩
  | unary _ ih =>
      obtain ⟨hy, hle⟩ := ih he hover.2
      exact ⟨⟨hover.1, hy⟩, Nat.add_le_add_left hle _⟩
  | left _ ih =>
      obtain ⟨hy, hle⟩ := ih (Bool.and_eq_true_iff.mp he).1 hover.2.1
      refine ⟨⟨hover.1, hy, hover.2.2⟩, ?_⟩
      simp only [tally]
      omega
  | right _ ih =>
      obtain ⟨hy, hle⟩ := ih (Bool.and_eq_true_iff.mp he).2 hover.2.2
      refine ⟨⟨hover.1, hover.2.1, hy⟩, ?_⟩
      simp only [tally]
      omega

/-! ### Runs -/

/-- Nor do any number of steps. -/
theorem tally_of_reflTransGen (h : ReflTransGen (Rewrites s env) e f) (hw : w.Steady V env)
    (he : e.isFilled) (hover : e.Over V) : f.isFilled ∧ f.Over V ∧ f.tally w ≤ e.tally w := by
  induction h with
  | refl => exact ⟨he, hover, le_rfl⟩
  | tail _ h ih =>
      obtain ⟨hfilled, hover', hle⟩ := ih
      obtain ⟨hover'', hle'⟩ := h.tally_le hw hfilled hover'
      exact ⟨h.isFilled hfilled, hover'', hle'.trans hle⟩

/-- So the tally of an expression bounds what the constants count that are left. -/
theorem const_le_of_reflTransGen (h : ReflTransGen (Rewrites s env) e f) (hw : w.Steady V env)
    (he : e.isFilled) (hover : e.Over V) : ∀ v ∈ f.constants, w.const v ≤ e.tally w := by
  intro v hv
  obtain ⟨p, hp⟩ := exists_at?_of_mem_constants hv
  have hpart : (const v).tally w ≤ f.tally w := tally_part hp
  exact hpart.trans (tally_of_reflTransGen h hw he hover).2.2

end Expr

end Formula
