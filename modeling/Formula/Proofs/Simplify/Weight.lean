/-
Formula/Proofs/Simplify/Weight.lean

The weight of expressions under changes.  Putting changes the weight, like any
measure to which operators add fixed amounts (`Additive`), by the difference of
the two parts.  A splice takes away at least what the part that
goes weighs, but for one; in a product it takes away one more, unless the part
is a numerator, which a constant replaces.
-/
import Formula.Proofs.Simplify.Shape
import Formula.Simplify.Optimize

namespace Formula

universe u

open Path (Apart)

namespace Expr

variable {α : Type u} {e f a x t : Expr α} {s : Slot} {p : Path}

/-! ### Measures -/

/-- A measure to which every operator adds a fixed amount. -/
structure Additive (μ : Expr α → Nat) : Prop where
  unary : ∀ op, ∃ k, ∀ x, μ (unary op x) = k + μ x
  binary : ∀ op, ∃ k, ∀ l r, μ (binary op l r) = k + (μ l + μ r)

namespace Additive

variable {μ : Expr α → Nat}

/-- A part measures no more than the whole. -/
theorem part_le (h : Additive μ) (ha : e.at? p = some a) : μ a ≤ μ e := by
  induction p generalizing e with
  | nil => rw [Option.some.inj ha]
  | cons s p ih =>
      obtain ⟨x, hx, hat⟩ := Option.bind_eq_some_iff.mp ha
      refine (ih hat).trans ?_
      cases e with
      | hole | const | var => cases s <;> cases hx
      | unary op y =>
          obtain ⟨k, hk⟩ := h.unary op
          cases s <;> cases hx
          rw [hk]
          omega
      | binary op l r =>
          obtain ⟨k, hk⟩ := h.binary op
          cases s <;> cases hx <;> rw [hk] <;> omega

/-- Putting changes the measure by the difference of the parts. -/
theorem put (h : Additive μ) (ha : e.at? p = some a) (f : Expr α) :
    μ (e.put p f) + μ a = μ e + μ f := by
  induction p generalizing e with
  | nil =>
      obtain rfl := Option.some.inj ha
      rw [put_nil, Nat.add_comm]
  | cons s p ih =>
      obtain ⟨x, hx, hat⟩ := Option.bind_eq_some_iff.mp ha
      have hbelow := ih hat
      cases e with
      | hole | const | var => cases s <;> cases hx
      | unary op y =>
          obtain ⟨k, hk⟩ := h.unary op
          cases s <;> cases hx
          rw [Expr.put, hk, hk]
          omega
      | binary op l r =>
          obtain ⟨k, hk⟩ := h.binary op
          cases s <;> cases hx <;> rw [Expr.put, hk, hk] <;> omega

/-- A splice in an operand changes the measure by as much as in the operand. -/
theorem splice_below {sp : Splice α} (h : Additive μ) (hx : e.operand? s = some x)
    (hplace : (x.at? sp.place).isSome) :
    μ (e.splice (sp.below [s])) + μ x = μ e + μ (x.splice sp) := by
  rw [Expr.splice_below hx hplace]
  exact h.put (by simp [at?_cons, hx]) _

end Additive

/-! ### The weight -/

theorem additive_weight : Additive (weight : Expr α → Nat) :=
  ⟨fun _ => ⟨_, fun _ => rfl⟩, fun _ => ⟨_, fun _ _ => rfl⟩⟩

theorem weight_operand (h : e.operand? s = some x) : x.weight < e.weight := by
  cases e <;> cases s <;> simp only [operand?, Option.some.injEq, reduceCtorEq] at h <;> subst h <;>
    simp only [weight] <;> split <;> omega

theorem weight_part (h : e.at? p = some a) : a.weight ≤ e.weight := additive_weight.part_le h

/-- Putting changes the weight by the difference of the parts. -/
theorem weight_put (h : e.at? p = some a) (f : Expr α) :
    (e.put p f).weight + a.weight = e.weight + f.weight := additive_weight.put h f

theorem isFilled_part (he : e.isFilled) (h : e.at? p = some a) : a.isFilled := by
  induction p generalizing e with
  | nil => rwa [← Option.some.inj h]
  | cons s p ih =>
      obtain ⟨x, hx, hat⟩ := Option.bind_eq_some_iff.mp h
      refine ih ?_ hat
      cases e <;> cases s <;> simp_all [operand?, isFilled]

theorem one_le_weight (he : e.isFilled) : 1 ≤ e.weight := by
  cases e <;> simp_all [isFilled, weight] <;> split <;> omega

theorem at?_put_self (h : e.at? p = some a) (f : Expr α) : (e.put p f).at? p = some f := by
  induction p generalizing e with
  | nil => simp
  | cons s p ih =>
      obtain ⟨x, hx, hat⟩ := Option.bind_eq_some_iff.mp h
      cases e <;> cases s <;> simp only [operand?, Option.some.injEq, reduceCtorEq] at hx <;>
        subst hx <;> simp [put, at?_cons, operand?, ih hat]

theorem at?_put_of_apart {q : Path} (h : Apart p q) : (e.put p f).at? q = e.at? q := by
  induction p generalizing e q with
  | nil => exact absurd rfl h.ne_nil
  | cons s p ih =>
      cases q with
      | nil => exact absurd rfl h.symm.ne_nil
      | cons t q =>
          by_cases hst : s = t
          · subst hst
            have hih := fun x : Expr α => ih (e := x) (h := Path.Apart.cons_iff.mp h)
            cases e <;> cases s <;> simp [put, at?_cons, operand?, hih]
          · cases e <;> cases s <;> cases t <;> first | rfl | exact absurd rfl hst

/-! ### Splices -/

variable {kind : ChainKind} {sp : Splice α}

variable [Arithmetic α]

theorem isSome_place (h : e.splice? kind p = some sp) (hp : (e.at? p).isSome) :
    (e.at? sp.place).isSome := (splices_of_splice? h hp).isSome_place

/-- What a splice at the topmost operator leaves. -/
theorem weight_spliceHere (h : e.spliceHere? kind s = some sp) (hx : e.operand? s = some x) :
    (e.splice sp).weight + x.weight ≤ e.weight + 1 := by
  cases e <;> cases s <;> simp only [operand?, Option.some.injEq, reduceCtorEq] at hx <;> subst hx <;>
    simp only [spliceHere?] at h
  case unary.operand =>
    split at h <;> cases h
    simp only [splice, rebuildAt, Splice.place, Splice.sketch, put_nil, build, weight]
    omega
  case binary.left op l r =>
    split at h <;> cases h <;>
      simp [splice, rebuildAt, Splice.place, Splice.sketch, put, build, part, at?_cons, operand?,
        weight] <;> omega
  case binary.right op l r =>
    cases h
    simp [splice, rebuildAt, Splice.place, Splice.sketch, build, part, at?_cons, operand?, weight]
    omega

/-- A splice takes away what goes, but for one. -/
theorem weight_splice_add (h : e.splice? kind p = some sp) (hp : e.at? p = some t) :
    (e.splice sp).weight + t.weight ≤ e.weight + 1 := by
  induction p generalizing e sp with
  | nil => cases h
  | cons s p ih =>
      obtain ⟨x, hx, hat⟩ := Option.bind_eq_some_iff.mp hp
      rcases splice?_below_or_here h hx with ⟨sp', hsp', rfl⟩ | ⟨-, hhere⟩
      · have hbelow := additive_weight.splice_below hx (isSome_place hsp' (Option.isSome_of_eq_some hat))
        have hx' := ih hsp' hat
        omega
      · have hpart := weight_part hat
        have hhere := weight_spliceHere hhere hx
        omega

/-- In a product there is always an operator that can answer. -/
theorem eq_nil_of_splice? (h : e.splice? .multiplicative p = none) (hp : (e.at? p).isSome) :
    p = [] := by
  cases p with
  | nil => rfl
  | cons s p =>
      obtain ⟨a, ha⟩ := Option.isSome_iff_exists.mp hp
      obtain ⟨x, hx, -⟩ := Option.bind_eq_some_iff.mp ha
      have hhere := (splice?_eq_none_below h hx).2
      obtain rfl := eq_operand_of_spliceHere? hhere hx
      cases e <;> simp_all [operand?, spliceHere?]

/-- Out of a product a splice takes away one more than what goes, unless that is
a whole numerator. -/
theorem weight_splice_product (hpath : ChainPath .multiplicative e p)
    (h : e.splice? .multiplicative p = some sp) (hp : e.at? p = some t) (hplace : sp.place ≠ p) :
    (e.splice sp).weight + t.weight + 1 ≤ e.weight := by
  induction p generalizing e sp with
  | nil => cases h
  | cons s p ih =>
      obtain ⟨x, hx, hat⟩ := Option.bind_eq_some_iff.mp hp
      rcases splice?_below_or_here h hx with ⟨sp', hsp', rfl⟩ | ⟨hnone, hhere⟩
      · have hbelow := additive_weight.splice_below hx (isSome_place hsp' (Option.isSome_of_eq_some hat))
        -- a place other than the path is so below the first step
        have hplace' : sp'.place ≠ p := Splice.place_below_ne_iff.mp hplace
        have hpath' : ChainPath .multiplicative x p := by
          cases hpath <;> cases hx <;> assumption
        have hx' := ih hpath' hsp' hat hplace'
        omega
      · have hpart := weight_part hat
        cases hpath with
        | operand hpath =>
            cases hx
            cases hhere
            simp [splice, rebuildAt, Splice.place, Splice.sketch, build, weight]
            omega
        | @left op l r _ hop hpath =>
            cases hx
            cases op <;> simp [ChainKind.flips?] at hop <;> cases hhere
            · simp [splice, rebuildAt, Splice.place, Splice.sketch, build, part, at?_cons, operand?,
                weight]
              omega
            · -- a quotient whose whole numerator goes
              exact absurd (by rw [eq_nil_of_splice? hnone (Option.isSome_of_eq_some hat)]; rfl) hplace
        | @right op l r _ hop hpath =>
            cases hx
            cases hhere
            cases op <;> simp [ChainKind.flips?] at hop <;>
              simp [splice, rebuildAt, Splice.place, Splice.sketch, build, part, at?_cons, operand?,
                weight] <;> omega

end Expr

end Formula
