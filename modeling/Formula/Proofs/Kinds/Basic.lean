/-
Formula/Proofs/Kinds/Basic.lean

Kinds of numbers: zeros, infinities and the ordinary numbers in between, each with a
sign.  `Kinds` is the set of kinds that a number may be of; NaN is of none, so the
empty set says that there is no number.

The kinds of a sum say what is known if only the kinds of the operands are known:
ordinary numbers of one sign have an ordinary or infinite sum, for opposite signs
nothing is known, and opposite infinities have no sum.  Likewise a product of ordinary
numbers may overflow or underflow, and zero times infinity is no number.  Known in
this way, sums and products are associative, though the numbers' own are not.
-/
import Mathlib.Data.Finset.Union
import Mathlib.Data.Fintype.Defs
import Formula.Simplify.Chain

namespace Formula

/-- The size of a number. -/
inductive Size
  | zero | ordinary | infinite
  deriving DecidableEq

/-- The kind of a number. -/
structure Kind where
  negative : Bool
  size : Size
  deriving DecidableEq

instance : Fintype Kind where
  elems := {⟨false, .zero⟩, ⟨false, .ordinary⟩, ⟨false, .infinite⟩,
    ⟨true, .zero⟩, ⟨true, .ordinary⟩, ⟨true, .infinite⟩}
  complete := by
    rintro ⟨s, z⟩
    cases s <;> cases z <;> decide

/-- The kinds that a number may be of. -/
abbrev Kinds := Finset Kind

namespace Kind

/-- The kind of the opposite number. -/
def neg (a : Kind) : Kind := ⟨!a.negative, a.size⟩

/-- The kind of the reciprocal, not rounded. -/
def inv : Kind → Kind
  | ⟨s, .zero⟩ => ⟨s, .infinite⟩
  | ⟨s, .ordinary⟩ => ⟨s, .ordinary⟩
  | ⟨s, .infinite⟩ => ⟨s, .zero⟩

/-- The kinds of a sum. -/
def add (a b : Kind) : Kinds :=
  match a.size, b.size with
  | .infinite, .infinite => if a = b then {a} else ∅
  | .infinite, _ => {a}
  | _, .infinite => {b}
  | .zero, .zero => {a, b}
  | .zero, .ordinary => {b}
  | .ordinary, .zero => {a}
  | .ordinary, .ordinary => if a = b then {a, ⟨a.negative, .infinite⟩} else Finset.univ

/-- The kinds of a product. -/
def mul (a b : Kind) : Kinds :=
  let negative := a.negative != b.negative
  match a.size, b.size with
  | .zero, .infinite | .infinite, .zero => ∅
  | .infinite, _ | _, .infinite => {⟨negative, .infinite⟩}
  | .zero, _ | _, .zero => {⟨negative, .zero⟩}
  | .ordinary, .ordinary => {⟨negative, .zero⟩, ⟨negative, .ordinary⟩, ⟨negative, .infinite⟩}

/-- The place among the kinds from negative infinity to positive infinity; the zeros
have the same. -/
def rank : Kind → Nat
  | ⟨true, .infinite⟩ => 0
  | ⟨true, .ordinary⟩ => 1
  | ⟨_, .zero⟩ => 2
  | ⟨false, .ordinary⟩ => 3
  | ⟨false, .infinite⟩ => 4

/-- The kinds of the greater number. -/
def max (a b : Kind) : Kinds :=
  if b.rank < a.rank then {a} else if a.rank < b.rank then {b} else {a, b}

/-- The kinds of the lesser number. -/
def min (a b : Kind) : Kinds :=
  if b.rank < a.rank then {b} else if a.rank < b.rank then {a} else {a, b}

@[simp] theorem neg_neg (a : Kind) : a.neg.neg = a := by
  revert a
  decide

@[simp] theorem inv_inv (a : Kind) : a.inv.inv = a := by
  revert a
  decide

theorem inv_neg (a : Kind) : a.neg.inv = a.inv.neg := by
  revert a
  decide

theorem add_comm (a b : Kind) : a.add b = b.add a := by
  revert a b
  decide

theorem mul_comm (a b : Kind) : a.mul b = b.mul a := by
  revert a b
  decide

theorem neg_add (a b : Kind) : (a.add b).image neg = a.neg.add b.neg := by
  revert a b
  decide

theorem inv_mul (a b : Kind) : (a.mul b).image inv = a.inv.mul b.inv := by
  revert a b
  decide

theorem neg_mul (a b : Kind) : (a.mul b).image neg = a.neg.mul b := by
  revert a b
  decide

variable {a b : Kind}

theorem mem_max_left (h : b.rank ≤ a.rank) : a ∈ a.max b := by
  unfold max
  grind

theorem mem_max_right (h : a.rank ≤ b.rank) : b ∈ a.max b := by
  unfold max
  grind

theorem mem_min_left (h : a.rank ≤ b.rank) : a ∈ a.min b := by
  unfold min
  grind

theorem mem_min_right (h : b.rank ≤ a.rank) : b ∈ a.min b := by
  unfold min
  grind

end Kind

namespace Kinds

variable {S S' T T' U : Kinds} {a b c : Kind} {op : Kind → Kind → Kinds} {f : Kind → Kind}

/-- All kinds that an operation may give for operands of the given kinds. -/
def lift (op : Kind → Kind → Kinds) (S T : Kinds) : Kinds := S.biUnion fun a => T.biUnion (op a)

theorem mem_lift : c ∈ lift op S T ↔ ∃ a ∈ S, ∃ b ∈ T, c ∈ op a b := by simp [lift]

theorem lift_mono (hS : S ⊆ S') (hT : T ⊆ T') : lift op S T ⊆ lift op S' T' := by
  intro c hc
  obtain ⟨a, ha, b, hb, hab⟩ := mem_lift.mp hc
  exact mem_lift.mpr ⟨a, hS ha, b, hT hb, hab⟩

@[simp] theorem lift_empty_left : lift op ∅ T = ∅ := rfl

@[simp] theorem lift_empty_right : lift op S ∅ = ∅ := by
  ext c
  simp [mem_lift]

@[simp] theorem lift_singleton : lift op {a} {b} = op a b := by simp [lift]

theorem lift_comm (h : ∀ a b, op a b = op b a) : lift op S T = lift op T S := by
  ext c
  simp only [mem_lift]
  grind

theorem lift_assoc (h : ∀ a b c, lift op (op a b) {c} = lift op {a} (op b c)) :
    lift op (lift op S T) U = lift op S (lift op T U) := by
  have hmem : ∀ a b c d, (∃ e ∈ op a b, d ∈ op e c) ↔ ∃ e ∈ op b c, d ∈ op a e := fun a b c d => by
    simpa [mem_lift] using Finset.ext_iff.mp (h a b c) d
  ext d
  simp only [mem_lift]
  constructor
  · rintro ⟨e, ⟨a, ha, b, hb, he⟩, c, hc, hd⟩
    obtain ⟨e', he', hd'⟩ := (hmem a b c d).mp ⟨e, he, hd⟩
    exact ⟨a, ha, e', ⟨b, hb, c, hc, he'⟩, hd'⟩
  · rintro ⟨a, ha, e, ⟨b, hb, c, hc, he⟩, hd⟩
    obtain ⟨e', he', hd'⟩ := (hmem a b c d).mpr ⟨e, he, hd⟩
    exact ⟨e', ⟨a, ha, b, hb, he'⟩, c, hc, hd'⟩

theorem image_lift {g h : Kind → Kind} (hop : ∀ a b, (op a b).image f = op (g a) (h b)) :
    (lift op S T).image f = lift op (S.image g) (T.image h) := by
  simp only [lift, Finset.biUnion_image, Finset.image_biUnion, hop]

/-! ### Operations -/

/-- The kinds of the opposite number. -/
def neg (S : Kinds) : Kinds := S.image Kind.neg

/-- The kinds of the reciprocal, not rounded. -/
def inv (S : Kinds) : Kinds := S.image Kind.inv

/-- The kinds of a sum. -/
def add (S T : Kinds) : Kinds := lift Kind.add S T

/-- The kinds of a product. -/
def mul (S T : Kinds) : Kinds := lift Kind.mul S T

@[simp] theorem neg_neg : neg (neg S) = S := by simp [neg, Finset.image_image, Function.comp_def]

@[simp] theorem inv_inv : inv (inv S) = S := by simp [inv, Finset.image_image, Function.comp_def]

theorem inv_neg : inv (neg S) = neg (inv S) := by
  simp only [neg, inv, Finset.image_image, Function.comp_def, Kind.inv_neg]

@[simp] theorem neg_empty : neg ∅ = ∅ := rfl

@[simp] theorem inv_empty : inv ∅ = ∅ := rfl

theorem neg_mono (h : S ⊆ T) : neg S ⊆ neg T := Finset.image_subset_image h

theorem inv_mono (h : S ⊆ T) : inv S ⊆ inv T := Finset.image_subset_image h

theorem add_comm : add S T = add T S := lift_comm Kind.add_comm

theorem mul_comm : mul S T = mul T S := lift_comm Kind.mul_comm

theorem add_assoc : add (add S T) U = add S (add T U) := lift_assoc (by decide +kernel)

theorem mul_assoc : mul (mul S T) U = mul S (mul T U) := lift_assoc (by decide +kernel)

instance : Std.Associative add := ⟨fun _ _ _ => add_assoc⟩

instance : Std.Commutative add := ⟨fun _ _ => add_comm⟩

instance : Std.Associative mul := ⟨fun _ _ _ => mul_assoc⟩

instance : Std.Commutative mul := ⟨fun _ _ => mul_comm⟩

theorem neg_add : neg (add S T) = add (neg S) (neg T) := image_lift Kind.neg_add

theorem inv_mul : inv (mul S T) = mul (inv S) (inv T) := image_lift Kind.inv_mul

theorem neg_mul : neg (mul S T) = mul (neg S) T := by
  simpa [neg, mul] using image_lift (S := S) (T := T) (h := id) Kind.neg_mul

theorem mul_neg_neg : mul (neg S) (neg T) = mul S T := by
  rw [← neg_mul, mul_comm, ← neg_mul, neg_neg, mul_comm]

/-- The kinds of the number one. -/
def one : Kinds := {⟨false, .ordinary⟩}

theorem subset_add_zero (negative : Bool) : S ⊆ add S {⟨negative, .zero⟩} := by
  have h : ∀ (s : Bool) (a : Kind), a ∈ a.add ⟨s, .zero⟩ := by decide
  exact fun a ha => mem_lift.mpr ⟨a, ha, _, Finset.mem_singleton_self _, h negative a⟩

/-- A further factor one makes no difference to a product. -/
theorem mul_one_mul : mul (mul S T) one = mul S T := by
  have h : ∀ a b : Kind, lift Kind.mul (a.mul b) {⟨false, .ordinary⟩} = a.mul b := by decide +kernel
  ext c
  constructor
  · intro hc
    obtain ⟨d, hd, o, ho, hc⟩ := mem_lift.mp hc
    obtain ⟨a, ha, b, hb, hd⟩ := mem_lift.mp hd
    exact mem_lift.mpr ⟨a, ha, b, hb, h a b ▸ mem_lift.mpr ⟨d, hd, o, ho, hc⟩⟩
  · intro hc
    obtain ⟨a, ha, b, hb, hc⟩ := mem_lift.mp hc
    obtain ⟨d, hd, o, ho, hc⟩ := mem_lift.mp ((h a b).symm ▸ hc)
    exact mem_lift.mpr ⟨d, mem_lift.mpr ⟨a, ha, b, hb, hd⟩, o, ho, hc⟩

theorem subset_mul_one : S ⊆ mul S one := by
  have h : ∀ a : Kind, a ∈ a.mul ⟨false, .ordinary⟩ := by decide
  exact fun a ha => mem_lift.mpr ⟨a, ha, _, Finset.mem_singleton_self _, h a⟩

end Kinds

end Formula
