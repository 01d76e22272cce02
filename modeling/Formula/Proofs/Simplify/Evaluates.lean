/-
Formula/Proofs/Simplify/Evaluates.lean

Values within a domain.  `Expr.eval` never fails on account of the arithmetic; a
division by zero has some value or other.  `Evaluates D env e v` says that `e`
has the value `v` and that every operation in it is applied to operands in the
domain `D`, for instance that nothing is divided by zero.

Such a value is unique (`Evaluates.unique`) and is the one that `eval` gives
(`Evaluates.eval_eq`).  Every part of an expression that has a value has one,
and it may be replaced by an expression that has the same one
(`Evaluates.put`).
-/
import Formula.Expr.Evaluation
import Formula.Proofs.Simplify.Shape

namespace Formula

universe u

/-- The operands to which operations may be applied. -/
structure Domain (α : Type u) where
  unary : UnaryOp → α → Prop
  binary : BinaryOp → α → α → Prop

namespace Expr

variable {α : Type u} [Arithmetic α] {D : Domain α} {env ctx : Environment α} {e f x l r a : Expr α}
  {op : UnaryOp} {op' : BinaryOp} {u v w : α} {p : Path}

/-- The expression has a value, and all operations are applied in their domain. -/
inductive Evaluates (D : Domain α) (env : Environment α) : Expr α → α → Prop
  | const (v : α) : Evaluates D env (const v) v
  | var {x : String} {v : α} : env x = some v → Evaluates D env (var x) v
  | unary {op : UnaryOp} {x : Expr α} {a : α} : Evaluates D env x a → D.unary op a →
      Evaluates D env (unary op x) (Arithmetic.unary op a)
  | binary {op : BinaryOp} {l r : Expr α} {a b : α} : Evaluates D env l a → Evaluates D env r b →
      D.binary op a b → Evaluates D env (binary op l r) (Arithmetic.binary op a b)

theorem evaluates_const : Evaluates D env (const w) v ↔ v = w := by
  constructor
  · rintro ⟨⟩
    rfl
  · rintro rfl
    exact .const v

theorem evaluates_unary : Evaluates D env (unary op x) v ↔
    ∃ a, Evaluates D env x a ∧ D.unary op a ∧ v = Arithmetic.unary op a := by
  constructor
  · rintro (_ | _ | ⟨hx, hD⟩)
    exact ⟨_, hx, hD, rfl⟩
  · rintro ⟨a, hx, hD, rfl⟩
    exact .unary hx hD

theorem evaluates_binary : Evaluates D env (binary op' l r) v ↔
    ∃ a b, Evaluates D env l a ∧ Evaluates D env r b ∧ D.binary op' a b ∧
      v = Arithmetic.binary op' a b := by
  constructor
  · rintro (_ | _ | _ | ⟨hl, hr, hD⟩)
    exact ⟨_, _, hl, hr, hD, rfl⟩
  · rintro ⟨a, b, hl, hr, hD, rfl⟩
    exact .binary hl hr hD

namespace Evaluates

/-- The value is the one that evaluation gives. -/
theorem eval_eq (h : Evaluates D env e v) : e.eval env = .ok v := by
  induction h with
  | const => rfl
  | var hx => simp only [eval, hx]
  | unary _ _ ih => rw [eval, ih]; rfl
  | binary _ _ _ ihl ihr => rw [eval, ihl, ihr]; rfl

theorem of_eq (h : Evaluates D env e v) (hvw : v = w) : Evaluates D env e w := hvw ▸ h

theorem unique (h : Evaluates D env e v) (h' : Evaluates D env e w) : v = w :=
  Except.ok.inj (h.eval_eq.symm.trans h'.eval_eq)

/-- Every operand has a value. -/
theorem operand {s : Slot} (h : Evaluates D env e v) (hx : e.operand? s = some x) :
    ∃ u, Evaluates D env x u := by
  cases h with
  | const | var => cases s <;> cases hx
  | unary h _ => cases s <;> cases hx; exact ⟨_, h⟩
  | binary hl hr _ => cases s <;> cases hx; exacts [⟨_, hl⟩, ⟨_, hr⟩]

/-- Every part has a value. -/
theorem part (h : Evaluates D env e v) (ha : e.at? p = some a) : ∃ u, Evaluates D env a u := by
  induction p generalizing e v with
  | nil =>
      obtain rfl := Option.some.inj ha
      exact ⟨v, h⟩
  | cons s p ih =>
      obtain ⟨x, hx, ha⟩ := Option.bind_eq_some_iff.mp ha
      obtain ⟨u, hu⟩ := h.operand hx
      exact ih hu ha

/-- A part may be replaced by an expression that has its value. -/
theorem put (h : Evaluates D env e v) (ha : e.at? p = some a)
    (hf : ∀ u, Evaluates D env a u → Evaluates D env f u) : Evaluates D env (e.put p f) v := by
  induction p generalizing e v with
  | nil =>
      obtain rfl := Option.some.inj ha
      rw [put_nil]
      exact hf v h
  | cons s p ih =>
      obtain ⟨x, hx, ha⟩ := Option.bind_eq_some_iff.mp ha
      cases h with
      | const | var => cases s <;> cases hx
      | unary h hD =>
          cases s <;> cases hx
          exact .unary (ih h ha) hD
      | binary hl hr hD =>
          cases s <;> cases hx
          · exact .binary (ih hl ha) hr hD
          · exact .binary hl (ih hr ha) hD

end Evaluates

/-! ### Values in a context -/

/-- A value that is known in a context is the value wherever the context holds. -/
theorem eval_mono (hle : ∀ x v, ctx x = some v → env x = some v) (h : e.eval ctx = .ok v) :
    e.eval env = .ok v := by
  induction e generalizing v with
  | hole => cases h
  | const => exact h
  | var x =>
      simp only [eval] at h ⊢
      split at h
      · next w hw =>
        rw [hle x w hw]
        exact h
      · cases h
  | unary op x ih =>
      rw [eval] at h ⊢
      cases hx : x.eval ctx with
      | error err => rw [hx] at h; cases h
      | ok a => rw [ih hx]; rwa [hx] at h
  | binary op l r ihl ihr =>
      rw [eval] at h ⊢
      cases hl : l.eval ctx with
      | error err => rw [hl] at h; cases h
      | ok a =>
          cases hr : r.eval ctx with
          | error err => rw [hl, hr] at h; cases h
          | ok b => rw [ihl hl, ihr hr]; rwa [hl, hr] at h

/-- Folding gives the value. -/
theorem Evaluates.of_fold (h : Evaluates D env e v) (hle : ∀ x v, ctx x = some v → env x = some v)
    (hw : e.eval ctx = .ok w) : Evaluates D env (.const w) v := by
  rw [evaluates_const]
  exact Except.ok.inj (h.eval_eq.symm.trans (eval_mono hle hw))

end Expr

end Formula
