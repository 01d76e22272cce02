/-
Formula/Proofs/Simplify/Exact.lean

Exact arithmetic.  The rules of the optimizer are laws of a field; this file says
what is assumed of the values for them to be.  `FieldArithmetic K` says that the
operations that a field has are those of the field, that values are the same if
they are equal, and that no two of them are closer than zero.  All other
operations may be any functions.

`PowerLaws P` adds what is assumed of powers and roots, for the bases and exponents
that `P` allows.  In a domain of exact arithmetic (`Exact`) nothing is divided by
zero and logarithms do not occur.  It may exclude powers altogether
(`Domain.arithmetic`).  Where only the operations of a field matter, the domain of
the others may be any (`FieldDomain`).
-/
import Formula.Proofs.Simplify.Evaluates
import Formula.Proofs.Simplify.Fits
import Mathlib.Algebra.Field.Basic

namespace Formula

universe u

open Arithmetic (unary binary)

/-- The arithmetic of the values is that of a field. -/
structure FieldArithmetic (K : Type u) [Field K] [Arithmetic K] : Prop where
  zero : (Arithmetic.zero : K) = 0
  one : (Arithmetic.one : K) = 1
  neg : ∀ a : K, unary .neg a = -a
  add : ∀ a b : K, binary .add a b = a + b
  sub : ∀ a b : K, binary .sub a b = a - b
  mul : ∀ a b : K, binary .mul a b = a * b
  div : ∀ a b : K, binary .div a b = a / b
  same : ∀ a b : K, Arithmetic.same a b = true ↔ a = b
  within : ∀ a b : K, Arithmetic.within 0 a b = false

/-- The laws of powers and roots hold where `P` says that a base may be raised to an
exponent. -/
structure PowerLaws {K : Type u} [Field K] [Arithmetic K] (P : K → K → Prop) : Prop where
  root : ∀ a x, a ≠ 0 → P x (1 / a) → binary .root a x = binary .pow x (1 / a)
  one_mem : ∀ x a, P x a → P x 1
  pow_one : ∀ x, P x 1 → binary .pow x 1 = x
  pow_zero : ∀ x, P x 0 → binary .pow x 0 = 1
  one_pow : ∀ a, P 1 a → binary .pow 1 a = 1
  pow_pow : ∀ x a b, P x a → P (binary .pow x a) b →
    P x (a * b) ∧ binary .pow x (a * b) = binary .pow (binary .pow x a) b
  pow_add : ∀ x a b, P x a → P x b →
    P x (a + b) ∧ binary .pow x (a + b) = binary .pow x a * binary .pow x b
  pow_sub : ∀ x a b, P x a → P x b → binary .pow x b ≠ 0 →
    P x (a - b) ∧ binary .pow x (a - b) = binary .pow x a / binary .pow x b
  pow_ne_zero : ∀ x a b, P x a → P x b → binary .pow x a ≠ 0 → binary .pow x b ≠ 0

/-- The domain is one of exact arithmetic. -/
structure Exact {K : Type u} [Field K] [Arithmetic K] (D : Domain K) : Prop
    extends FieldArithmetic K, PowerLaws (D.binary .pow) where
  neg_mem : ∀ a, D.unary .neg a
  add_mem : ∀ a b, D.binary .add a b
  sub_mem : ∀ a b, D.binary .sub a b
  mul_mem : ∀ a b, D.binary .mul a b
  div_mem : ∀ a b, D.binary .div a b ↔ b ≠ 0
  ln_not_mem : ∀ a, ¬D.unary .ln a
  log_not_mem : ∀ a b, ¬D.binary .log a b
  root_mem : ∀ a x, D.binary .root a x ↔ a ≠ 0 ∧ D.binary .pow x (1 / a)

/-- The operations of a field are applied wherever a field applies them: to anything,
but that nothing is divided by zero. -/
structure FieldDomain {K : Type u} [Field K] [Arithmetic K] (D : Domain K) : Prop
    extends FieldArithmetic K where
  neg_mem : ∀ a, D.unary .neg a
  add_mem : ∀ a b, D.binary .add a b
  sub_mem : ∀ a b, D.binary .sub a b
  mul_mem : ∀ a b, D.binary .mul a b
  div_mem : ∀ a b, D.binary .div a b ↔ b ≠ 0

namespace Domain

/-- The domain in which nothing is divided by zero, and that is all. -/
def division (K : Type u) [Field K] : Domain K where
  unary _ _ := True
  binary op _ b := op = .div → b ≠ 0

/-- The domain in which nothing is divided by zero, there are no logarithms, and a
base may be raised to an exponent where `P` says so. -/
def withPowers {K : Type u} [Field K] (P : K → K → Prop) : Domain K where
  unary op _ := op ≠ .ln
  binary op a b :=
    match op with
    | .div => b ≠ 0
    | .pow => P a b
    | .root => a ≠ 0 ∧ P b (1 / a)
    | .log => False
    | _ => True

/-- The domain without powers, roots and logarithms, in which nothing is divided by
zero. -/
def arithmetic (K : Type u) [Field K] : Domain K := withPowers fun _ _ => False

end Domain

namespace FieldArithmetic

variable {K : Type u} [Field K] [Arithmetic K] {P : K → K → Prop}

/-- Where the laws of powers hold, arithmetic is exact. -/
theorem exact (h : FieldArithmetic K) (hP : PowerLaws P) : Exact (Domain.withPowers P) where
  toFieldArithmetic := h
  toPowerLaws := hP
  neg_mem _ := UnaryOp.noConfusion
  add_mem _ _ := trivial
  sub_mem _ _ := trivial
  mul_mem _ _ := trivial
  div_mem _ _ := .rfl
  ln_not_mem _ hne := hne rfl
  log_not_mem _ _ := id
  root_mem _ _ := .rfl

/-- Without powers there is nothing to assume of them. -/
theorem exact_arithmetic (h : FieldArithmetic K) : Exact (Domain.arithmetic K) :=
  h.exact {
    root := fun _ _ _ => False.elim
    one_mem := fun _ _ => False.elim
    pow_one := fun _ => False.elim
    pow_zero := fun _ => False.elim
    one_pow := fun _ => False.elim
    pow_pow := fun _ _ _ => False.elim
    pow_add := fun _ _ _ => False.elim
    pow_sub := fun _ _ _ => False.elim
    pow_ne_zero := fun _ _ _ => False.elim }

theorem fieldDomain_division (h : FieldArithmetic K) : FieldDomain (Domain.division K) where
  toFieldArithmetic := h
  neg_mem _ := trivial
  add_mem _ _ := nofun
  sub_mem _ _ := nofun
  mul_mem _ _ := nofun
  div_mem _ _ := ⟨fun hb => hb rfl, fun hb _ => hb⟩

/-- Minus one. -/
theorem negOne (h : FieldArithmetic K) : (Arithmetic.negOne : K) = -1 := by
  rw [Arithmetic.negOne, h.neg, h.one]

/-- Constants are alike only if they are equal. -/
theorem alike (h : FieldArithmetic K) (a b : K) : Arithmetic.alike 0 a b = true ↔ a = b := by
  simp [Arithmetic.alike, h.within, h.same]

/-- Without a tolerance only equal expressions are alike. -/
theorem eq_of_equals (h : FieldArithmetic K) {e e' : Expr K} (heq : e.equals 0 e' = true) :
    e = e' := by
  induction e generalizing e' with
  | hole => cases e' <;> simp_all [Expr.equals]
  | const a => cases e' <;> simp_all [Expr.equals, h.alike]
  | var x => cases e' <;> simp_all [Expr.equals]
  | unary op x ih =>
      cases e' with
      | unary op' x' =>
          simp only [Expr.equals, Bool.and_eq_true, beq_iff_eq] at heq
          rw [heq.1, ih heq.2]
      | _ => cases heq
  | binary op l r ihl ihr =>
      cases e' with
      | binary op' l' r' =>
          simp only [Expr.equals, Bool.and_eq_true, beq_iff_eq] at heq
          rw [heq.1.1, ihl heq.1.2, ihr heq.2]
      | _ => cases heq

theorem isValue_iff (h : FieldArithmetic K) {v : K} {e : Expr K} :
    e.isValue v = true ↔ e = .const v := by
  cases e <;> simp [Expr.isValue, Expr.isConstant, h.same, eq_comm]

end FieldArithmetic

/-! ### Values of operations -/

namespace FieldDomain

open Expr (Evaluates)

variable {K : Type u} [Field K] [Arithmetic K] {D : Domain K} {env : Environment K} {l r x : Expr K}
  {v : K}

theorem evaluates_neg (hD : FieldDomain D) : Evaluates D env (.unary .neg x) v ↔
    ∃ a, Evaluates D env x a ∧ v = -a := by
  simp [Expr.evaluates_unary, hD.neg_mem, hD.neg]

theorem evaluates_add (hD : FieldDomain D) : Evaluates D env (.binary .add l r) v ↔
    ∃ a b, Evaluates D env l a ∧ Evaluates D env r b ∧ v = a + b := by
  simp [Expr.evaluates_binary, hD.add_mem, hD.add]

theorem evaluates_sub (hD : FieldDomain D) : Evaluates D env (.binary .sub l r) v ↔
    ∃ a b, Evaluates D env l a ∧ Evaluates D env r b ∧ v = a - b := by
  simp [Expr.evaluates_binary, hD.sub_mem, hD.sub]

theorem evaluates_mul (hD : FieldDomain D) : Evaluates D env (.binary .mul l r) v ↔
    ∃ a b, Evaluates D env l a ∧ Evaluates D env r b ∧ v = a * b := by
  simp [Expr.evaluates_binary, hD.mul_mem, hD.mul]

theorem evaluates_div (hD : FieldDomain D) : Evaluates D env (.binary .div l r) v ↔
    ∃ a b, Evaluates D env l a ∧ Evaluates D env r b ∧ b ≠ 0 ∧ v = a / b := by
  simp [Expr.evaluates_binary, hD.div_mem, hD.div]

end FieldDomain

namespace Exact

open Expr (Evaluates)

variable {K : Type u} [Field K] [Arithmetic K] {D : Domain K} {env : Environment K} {l r x : Expr K}
  {v : K}

/-- A domain of exact arithmetic is one of the operations of a field. -/
theorem fieldDomain (hD : Exact D) : FieldDomain D where
  toFieldArithmetic := hD.toFieldArithmetic
  neg_mem := hD.neg_mem
  add_mem := hD.add_mem
  sub_mem := hD.sub_mem
  mul_mem := hD.mul_mem
  div_mem := hD.div_mem

theorem evaluates_neg (hD : Exact D) : Evaluates D env (.unary .neg x) v ↔
    ∃ a, Evaluates D env x a ∧ v = -a :=
  hD.fieldDomain.evaluates_neg

theorem evaluates_add (hD : Exact D) : Evaluates D env (.binary .add l r) v ↔
    ∃ a b, Evaluates D env l a ∧ Evaluates D env r b ∧ v = a + b :=
  hD.fieldDomain.evaluates_add

theorem evaluates_sub (hD : Exact D) : Evaluates D env (.binary .sub l r) v ↔
    ∃ a b, Evaluates D env l a ∧ Evaluates D env r b ∧ v = a - b :=
  hD.fieldDomain.evaluates_sub

theorem evaluates_mul (hD : Exact D) : Evaluates D env (.binary .mul l r) v ↔
    ∃ a b, Evaluates D env l a ∧ Evaluates D env r b ∧ v = a * b :=
  hD.fieldDomain.evaluates_mul

theorem evaluates_div (hD : Exact D) : Evaluates D env (.binary .div l r) v ↔
    ∃ a b, Evaluates D env l a ∧ Evaluates D env r b ∧ b ≠ 0 ∧ v = a / b :=
  hD.fieldDomain.evaluates_div

/-- A root is a power with the reciprocal of the degree. -/
theorem evaluates_root (hD : Exact D) : Evaluates D env (.binary .root l r) v ↔
    ∃ a b, Evaluates D env l a ∧ Evaluates D env r b ∧ a ≠ 0 ∧ D.binary .pow b (1 / a) ∧
      v = binary .pow b (1 / a) := by
  rw [Expr.evaluates_binary]
  constructor
  · rintro ⟨a, b, hl, hr, hmem, rfl⟩
    obtain ⟨ha, hpow⟩ := (hD.root_mem a b).mp hmem
    exact ⟨a, b, hl, hr, ha, hpow, hD.root a b ha hpow⟩
  · rintro ⟨a, b, hl, hr, ha, hpow, rfl⟩
    have hmem := (hD.root_mem a b).mpr ⟨ha, hpow⟩
    exact ⟨a, b, hl, hr, hmem, (hD.root a b ha hpow).symm⟩

/-- Expressions with logarithms have no value. -/
theorem not_evaluates_ln (hD : Exact D) : ¬Evaluates D env (.unary .ln x) v := by
  rintro (_ | _ | ⟨-, hmem⟩)
  exact hD.ln_not_mem _ hmem

theorem not_evaluates_log (hD : Exact D) : ¬Evaluates D env (.binary .log l r) v := by
  rintro (_ | _ | _ | ⟨-, -, hmem⟩)
  exact hD.log_not_mem _ _ hmem

/-- What is compared with zero has the value zero. -/
theorem eq_zero (hD : Exact D) (h : x.isValue Arithmetic.zero = true) (hx : Evaluates D env x v) :
    v = 0 := by
  rw [hD.isValue_iff, hD.zero] at h
  exact Expr.evaluates_const.mp (h ▸ hx)

theorem eq_one (hD : Exact D) (h : x.isValue Arithmetic.one = true) (hx : Evaluates D env x v) :
    v = 1 := by
  rw [hD.isValue_iff, hD.one] at h
  exact Expr.evaluates_const.mp (h ▸ hx)

theorem evaluates_zero (hD : Exact D) : Evaluates D env (.const Arithmetic.zero) 0 :=
  Expr.evaluates_const.mpr hD.zero.symm

theorem evaluates_one (hD : Exact D) : Evaluates D env (.const Arithmetic.one) 1 :=
  Expr.evaluates_const.mpr hD.one.symm

end Exact

end Formula
