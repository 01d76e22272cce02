/-
Formula/Proofs/Similarity.lean

What it means that expressions are equal up to a tolerance.  They have the same parts:
whatever path leads to a part of one leads to a part of the other, and the two are
topped by the same operator, name or empty slot, or are close constants
(`equals_iff_agree`).  Constants are close if they are equal or less than the tolerance
apart, as binary64 subtracts them.

The difference of two numbers and the one the other way round are the same but for the
sign (`Binary64.abs_sub_comm`), since rounding does not look at it.  So the relation is
symmetric.  It is reflexive but for NaN, whatever the tolerance is (`equals_self`).

Hashing follows the shape, and leaves out what constants are.  Expressions have one hash
in all ways to hash them exactly if their skeletons are the same (`skeleton_eq_iff`).
-/
import Formula.Proofs.Kinds.Binary64
import Formula.Proofs.Simplify.Interpretation

namespace Formula

universe u v

/-! ### Close numbers -/

namespace Binary64

open Float.Model (Format UnpackedFloat)
open Float.Model.UnpackedFloat

section

variable (u w : UnpackedFloat) (s : Sign) (m : Nat) (k e : Int)

theorem abs_roundWithAccuracy (accuracy : Accuracy) :
    (roundWithAccuracy .binary64 s m e accuracy).abs = roundWithAccuracy .binary64 .positive m e accuracy := by
  simp only [roundWithAccuracy]
  split <;> rfl

theorem abs_round :
    (UnpackedFloat.round .binary64 s m e).abs = UnpackedFloat.round .binary64 .positive m e :=
  abs_roundWithAccuracy ..

/-- Rounding a number and its opposite. -/
theorem abs_normalize_neg :
    (UnpackedFloat.normalize .binary64 (-k) e .positive).abs
      = (UnpackedFloat.normalize .binary64 k e .positive).abs := by
  rcases lt_trichotomy k 0 with hk | rfl | hk
  · rw [UnpackedFloat.normalize, UnpackedFloat.normalize, compare_lt_iff_lt.mpr hk,
      compare_gt_iff_gt.mpr (by omega), abs_round, abs_round]
  · rfl
  · rw [UnpackedFloat.normalize, UnpackedFloat.normalize, compare_gt_iff_gt.mpr hk,
      compare_lt_iff_lt.mpr (by omega), abs_round, abs_round, Int.neg_neg]

theorem abs_sub_unpacked : (sub .binary64 u w).abs = (sub .binary64 w u).abs := by
  cases u <;> cases w
  case infinity.infinity s s' | zero.zero s s' => cases s <;> cases s' <;> rfl
  case finite.finite s m e hm s' m' e' hm' =>
    simp only [sub]
    rw [min_comm e' e, ← abs_normalize_neg, Int.neg_sub]
  all_goals rfl

theorem unpack_packComponents_abs (field : BitVec 11) (fraction : BitVec 52) :
    (unpack .binary64 (packComponents .binary64 s field fraction)).abs
      = unpack .binary64 (packComponents .binary64 .positive field fraction) := by
  simp only [unpack, unpackMantissa_packComponents, unpackExponent_packComponents,
    unpackSign_packComponents, Sign.ofBitVec_toBitVec]
  split_ifs <;> rfl

/-- What is packed loses nothing of its absolute value with its sign. -/
theorem unpack_pack_abs :
    (unpack .binary64 (pack .binary64 u)).abs = unpack .binary64 (pack .binary64 u.abs) := by
  cases u with
  | notANumber => rfl
  | infinity s => exact unpack_packComponents_abs s _ _
  | zero s => exact unpack_packComponents_abs s _ _
  | finite s m e hm =>
      rw [show (UnpackedFloat.finite s m e hm).abs = .finite .positive m e hm from rfl, Kinds.pack_finite,
        Kinds.pack_finite]
      split_ifs <;> exact unpack_packComponents_abs s _ _

end

variable (ε v w : Float)

/-- The distance of two numbers is the same both ways. -/
theorem abs_sub_comm : (v - w).abs = (w - v).abs := by
  have habs : ∀ v w : Float, (v - w).abs = ⟨.pack (unpack .binary64 (pack .binary64
      (sub .binary64 v.toModel.unpack w.toModel.unpack))).abs⟩ := fun v w => rfl
  rw [habs, habs, unpack_pack_abs, unpack_pack_abs, abs_sub_unpacked]

theorem beq_comm : (v == w) = (w == v) := by
  rw [Bool.eq_iff_iff, Float.beq_iff_ne_nan_and_eq, Float.beq_iff_ne_nan_and_eq]
  grind

/-- The numbers are equal, or less than the tolerance apart. -/
def Close : Prop := (v == w) = true ∨ (v - w).abs < ε

theorem alike_iff_close : Arithmetic.alike ε v w = true ↔ Close ε v w := by
  rw [Arithmetic.alike, Bool.or_eq_true]
  exact or_congr_right decide_eq_true_iff

theorem close_comm : Close ε v w ↔ Close ε w v := by
  rw [Close, Close, beq_comm, abs_sub_comm]

theorem lt_of_isNaN {v : Float} (hv : v.toModel.unpack = .notANumber) : ¬v < w := by
  rw [← decide_eq_false_iff_not, Kinds.decide_lt, hv]
  rfl

/-- Only NaN is not close to itself. -/
theorem close_self : Close ε v v ↔ v.isNaN = false := by
  have hself : (v == v) = true ↔ v.isNaN = false := by
    rw [Float.isNaN_eq_decide_eq_nan, decide_eq_false_iff_not]
    exact Float.beq_self_iff
  refine ⟨fun h => ?_, fun hv => .inl (hself.mpr hv)⟩
  rcases h with heq | hlt
  · exact hself.mp heq
  · by_contra hv
    have hunpack : v.toModel.unpack = .notANumber := by
      rw [Bool.not_eq_false] at hv
      change v.toModel.unpack.isNaN = true at hv
      revert hv
      cases v.toModel.unpack <;> simp [UnpackedFloat.isNaN]
    refine lt_of_isNaN _ ?_ hlt
    change unpack .binary64 (pack .binary64 (unpack .binary64 (pack .binary64
      (sub .binary64 v.toModel.unpack v.toModel.unpack))).abs) = .notANumber
    rw [hunpack]
    rfl

end Binary64

namespace Expr

variable {α : Type u} {V : Type v}

/-! ### Expressions part by part -/

section

variable {close : α → α → Prop} {a b l r l' r' x y : Expr α} {op op' : UnaryOp} {bop bop' : BinaryOp}

/-- The topmost nodes are the same, but that the values of constants are only close. -/
inductive Matches (close : α → α → Prop) : Expr α → Expr α → Prop
  | hole : Matches close .hole .hole
  | const {v w : α} (hclose : close v w) : Matches close (.const v) (.const w)
  | var (x : String) : Matches close (.var x) (.var x)
  | unary (op : UnaryOp) (x y : Expr α) : Matches close (.unary op x) (.unary op y)
  | binary (op : BinaryOp) (l r l' r' : Expr α) : Matches close (.binary op l r) (.binary op l' r')

/-- The same paths lead to parts of both expressions, and the parts they lead to match. -/
def Agree (close : α → α → Prop) (a b : Expr α) : Prop :=
  ∀ p, Option.Rel (Matches close) (a.at? p) (b.at? p)

theorem Agree.matches (h : Agree close a b) : Matches close a b := Option.rel_some_some.mp (h [])

theorem agree_iff : Agree close a b ↔
    Matches close a b ∧ ∀ s p, Option.Rel (Matches close) (a.at? (s :: p)) (b.at? (s :: p)) := by
  refine ⟨fun h => ⟨h.matches, fun s p => h (s :: p)⟩, fun h p => ?_⟩
  cases p with
  | nil => exact .some h.1
  | cons s p => exact h.2 s p

/-- Agreement the other way round. -/
theorem Agree.symm {close' : α → α → Prop} (hclose : ∀ v w, close v w → close' w v)
    (h : Agree close a b) : Agree close' b a := by
  have hmatches : ∀ {x y : Expr α}, Matches close x y → Matches close' y x := by
    intro x y hxy
    cases hxy with
    | hole => exact .hole
    | const h => exact .const (hclose _ _ h)
    | var | unary | binary => constructor
  intro p
  have hp := h p
  generalize a.at? p = x at hp ⊢
  generalize b.at? p = y at hp ⊢
  cases hp with
  | none => exact .none
  | some hxy => exact .some (hmatches hxy)

theorem agree_hole : Agree close (hole : Expr α) hole :=
  agree_iff.mpr ⟨.hole, fun s _ => by cases s <;> exact .none⟩

theorem agree_var {x y : String} : Agree close (var x : Expr α) (var y) ↔ y = x := by
  constructor
  · intro h
    cases h.matches
    rfl
  · rintro rfl
    exact agree_iff.mpr ⟨.var _, fun s _ => by cases s <;> exact .none⟩

theorem agree_const {v w : α} : Agree close (const v) (const w) ↔ close v w := by
  constructor
  · intro h
    cases h.matches with
    | const hclose => exact hclose
  · exact fun h => agree_iff.mpr ⟨.const h, fun s _ => by cases s <;> exact .none⟩

theorem agree_unary : Agree close (unary op x) (unary op' y) ↔ op' = op ∧ Agree close x y := by
  constructor
  · intro h
    cases h.matches
    exact ⟨rfl, fun p => h (.operand :: p)⟩
  · rintro ⟨rfl, h⟩
    refine agree_iff.mpr ⟨.unary _ _ _, fun s p => ?_⟩
    cases s with
    | operand => exact h p
    | left | right => exact .none

theorem agree_binary :
    Agree close (binary bop l r) (binary bop' l' r') ↔
      bop' = bop ∧ Agree close l l' ∧ Agree close r r' := by
  constructor
  · intro h
    cases h.matches
    exact ⟨rfl, fun p => h (.left :: p), fun p => h (.right :: p)⟩
  · rintro ⟨rfl, hl, hr⟩
    refine agree_iff.mpr ⟨.binary _ _ _ _ _, fun s p => ?_⟩
    cases s with
    | operand => exact .none
    | left => exact hl p
    | right => exact hr p

end

/-- Expressions are equal up to a tolerance exactly if they agree part by part. -/
theorem equals_iff_agree {a b : Expr Float} {ε : Float} :
    a.equals ε b = true ↔ Agree (Binary64.Close ε) a b := by
  induction a generalizing b with
  | hole =>
      cases b with
      | hole => exact iff_of_true rfl agree_hole
      | _ => exact iff_of_false Bool.false_ne_true fun h => by cases h.matches
  | const v =>
      cases b with
      | const w => rw [equals, agree_const, Binary64.alike_iff_close, Binary64.close_comm]
      | _ => exact iff_of_false Bool.false_ne_true fun h => by cases h.matches
  | var x =>
      cases b with
      | var y => rw [equals, agree_var, beq_iff_eq]
      | _ => exact iff_of_false Bool.false_ne_true fun h => by cases h.matches
  | unary op x ih =>
      cases b with
      | unary op' y => rw [equals, agree_unary, Bool.and_eq_true, beq_iff_eq, ih]
      | _ => exact iff_of_false Bool.false_ne_true fun h => by cases h.matches
  | binary op l r ihl ihr =>
      cases b with
      | binary op' l' r' =>
          rw [equals, agree_binary, Bool.and_eq_true, Bool.and_eq_true, beq_iff_eq, ihl, ihr, and_assoc]
      | _ => exact iff_of_false Bool.false_ne_true fun h => by cases h.matches

/-! ### NaN -/

section

variable {e : Expr Float}

/-- A constant of the expression is NaN. -/
def HasNaN (e : Expr Float) : Prop := ∃ p v, e.at? p = some (.const v) ∧ v.isNaN = true

theorem hasNaN_const {v : Float} : (const v).HasNaN ↔ v.isNaN = true := by
  constructor
  · rintro ⟨_ | ⟨s, p⟩, w, hat, hw⟩
    · obtain rfl := const.inj (Option.some.inj hat)
      exact hw
    · cases s <;> cases hat
  · exact fun hv => ⟨[], v, rfl, hv⟩

theorem hasNaN_unary {op : UnaryOp} : (unary op e).HasNaN ↔ e.HasNaN := by
  constructor
  · rintro ⟨_ | ⟨s, p⟩, v, hat, hv⟩
    · cases hat
    · cases s <;> first | exact ⟨p, v, hat, hv⟩ | cases hat
  · rintro ⟨p, v, hat, hv⟩
    exact ⟨.operand :: p, v, hat, hv⟩

theorem hasNaN_binary {op : BinaryOp} {l r : Expr Float} :
    (binary op l r).HasNaN ↔ l.HasNaN ∨ r.HasNaN := by
  constructor
  · rintro ⟨_ | ⟨s, p⟩, v, hat, hv⟩
    · cases hat
    · cases s with
      | operand => cases hat
      | left => exact .inl ⟨p, v, hat, hv⟩
      | right => exact .inr ⟨p, v, hat, hv⟩
  · rintro (⟨p, v, hat, hv⟩ | ⟨p, v, hat, hv⟩)
    exacts [⟨.left :: p, v, hat, hv⟩, ⟨.right :: p, v, hat, hv⟩]

theorem not_hasNaN_leaf (he : e = hole ∨ ∃ x, e = var x) : ¬e.HasNaN := by
  rintro ⟨_ | ⟨s, p⟩, v, hat, -⟩ <;> rcases he with rfl | ⟨x, rfl⟩ <;> cases hat

end

/-! ### Hashes -/

@[simp] theorem skeleton_unary (op : UnaryOp) (x : Expr α) :
    (unary op x).skeleton = unary op x.skeleton := rfl

@[simp] theorem skeleton_binary (op : BinaryOp) (l r : Expr α) :
    (binary op l r).skeleton = binary op l.skeleton r.skeleton := rfl

/-- Expressions that are equal up to a tolerance have one form. -/
theorem skeleton_eq_of_equals [Arithmetic α] {ε : α} {e f : Expr α} (h : e.equals ε f = true) :
    e.skeleton = f.skeleton := by
  induction e generalizing f with
  | hole | const => cases f <;> first | rfl | cases h
  | var x =>
      cases f <;> simp only [equals, beq_iff_eq, Bool.false_eq_true] at h
      rw [h]
  | unary op x ih =>
      cases f <;> simp only [equals, Bool.and_eq_true, beq_iff_eq, Bool.false_eq_true] at h
      obtain ⟨rfl, hx⟩ := h
      rw [skeleton_unary, skeleton_unary, ih hx]
  | binary op l r ihl ihr =>
      cases f <;> simp only [equals, Bool.and_eq_true, beq_iff_eq, Bool.false_eq_true] at h
      obtain ⟨⟨rfl, hl⟩, hr⟩ := h
      rw [skeleton_binary, skeleton_binary, ihl hl, ihr hr]

/-- An expression is equal to itself unless a constant is NaN. -/
theorem equals_self {ε : Float} {e : Expr Float} : e.equals ε e = true ↔ ¬e.HasNaN := by
  induction e with
  | hole => exact iff_of_true rfl (not_hasNaN_leaf (.inl rfl))
  | var x => exact iff_of_true (beq_self_eq_true x) (not_hasNaN_leaf (.inr ⟨x, rfl⟩))
  | const v =>
      rw [equals, Binary64.alike_iff_close, Binary64.close_self, hasNaN_const, Bool.not_eq_true]
  | unary op x ih => rw [equals, beq_self_eq_true, Bool.true_and, ih, hasNaN_unary]
  | binary op l r ihl ihr =>
      rw [equals, beq_self_eq_true, Bool.true_and, Bool.and_eq_true, ihl, ihr, hasNaN_binary, not_or]

theorem equals_comm (ε : Float) (a b : Expr Float) : a.equals ε b = b.equals ε a := by
  have hswap : ∀ {a b : Expr Float}, Agree (Binary64.Close ε) a b → Agree (Binary64.Close ε) b a :=
    fun h => h.symm fun v w hclose => (Binary64.close_comm ε v w).mp hclose
  rw [Bool.eq_iff_iff, equals_iff_agree, equals_iff_agree]
  exact ⟨hswap, hswap⟩

end Expr

namespace Interpretation

/-- A way to hash expressions, from a hash of empty slots, one of constants, which does
not look at their values, one of each name, and for each operator one from the hashes of
the operands. -/
def Hashes (R : Interpretation Float V) : Prop := ∀ v w, R.const v = R.const w

/-- The hash of an expression is one of its skeleton. -/
def ofSkeleton (R : Interpretation Float V) : Interpretation Unit V where
  hole := R.hole
  const _ := R.const 0
  var := R.var
  unary := R.unary
  binary := R.binary

/-- The skeleton is a hash itself. -/
def skeletons : Interpretation Float (Expr Unit) where
  hole := .hole
  const _ := .const ()
  var := .var
  unary := .unary
  binary := .binary

variable {R : Interpretation Float V}

theorem Hashes.value_skeleton (hR : R.Hashes) (e : Expr Float) : R.ofSkeleton.value e.skeleton = R.value e := by
  induction e with
  | hole | var => rfl
  | const v => exact hR 0 v
  | unary op x ih => exact congrArg (R.unary op) ih
  | binary op l r ihl ihr => exact congrArg₂ (R.binary op) ihl ihr

theorem value_skeletons (e : Expr Float) : skeletons.value e = e.skeleton := by
  induction e with
  | hole | var | const => rfl
  | unary op x ih => exact congrArg (Expr.unary op) ih
  | binary op l r ihl ihr => exact congrArg₂ (Expr.binary op) ihl ihr

/-- Expressions have one hash, however they are hashed, exactly if they have one skeleton. -/
theorem skeleton_eq_iff {a b : Expr Float} :
    a.skeleton = b.skeleton ↔
      ∀ (V : Type) (R : Interpretation Float V), R.Hashes → R.value a = R.value b := by
  constructor
  · intro h V R hR
    rw [← hR.value_skeleton a, ← hR.value_skeleton b, h]
  · intro h
    have hskeletons := h (Expr Unit) skeletons fun _ _ => rfl
    rwa [value_skeletons, value_skeletons] at hskeletons

end Interpretation

namespace Expr

/-- **Equal up to a tolerance is: part by part the same, with close constants.**  Two
expressions are equal exactly if the same paths lead to parts of both, and there they
have the same operator, the same name, both an empty slot, or constants that are equal
or less than the tolerance apart.  Either may be the first of the two.  An expression
is equal to itself exactly if none of its constants is NaN.  And what is equal has one
skeleton, so it has one hash, however it is hashed. -/
theorem equals_partwise (ε : Float) (a b : Expr Float) :
    (a.equals ε b = true ↔
        ∀ p, Option.Rel (Matches fun v w => (v == w) = true ∨ (v - w).abs < ε) (a.at? p) (b.at? p)) ∧
      a.equals ε b = b.equals ε a ∧
      (a.equals ε a = true ↔ ¬∃ p v, a.at? p = some (.const v) ∧ v.isNaN = true) ∧
      (a.equals ε b = true → a.skeleton = b.skeleton ∧
        ∀ (V : Type) (R : Interpretation Float V), R.Hashes → R.value a = R.value b) := by
  refine ⟨equals_iff_agree, equals_comm ε a b, equals_self, fun h => ?_⟩
  have hskeleton := skeleton_eq_of_equals h
  exact ⟨hskeleton, Interpretation.skeleton_eq_iff.mp hskeleton⟩

/-- A difference that the tolerance allows, beside an empty slot and an infinity. -/
theorem equals_partwise_besideInfinity :
    (binary .sub (binary .mul (const 1) (const (1 / 0))) hole).equals defaultEpsilon
        (binary .sub (binary .mul (const 1.00005) (const (1 / 0))) hole) = true ∧
      (binary .sub (binary .mul (const 1.00005) (const (1 / 0))) hole).equals defaultEpsilon
        (binary .sub (binary .mul (const 1) (const (1 / 0))) hole) = true ∧
      ∀ (V : Type) (R : Interpretation Float V), R.Hashes →
        R.value (binary .sub (binary .mul (const 1) (const (1 / 0))) hole)
          = R.value (binary .sub (binary .mul (const 1.00005) (const (1 / 0))) hole) := by
  obtain ⟨-, hsymm, -, hhash⟩ := equals_partwise defaultEpsilon
    (binary .sub (binary .mul (const 1) (const (1 / 0))) hole)
    (binary .sub (binary .mul (const 1.00005) (const (1 / 0))) hole)
  have hequals : (binary .sub (binary .mul (const 1) (const (1 / 0))) hole).equals defaultEpsilon
      (binary .sub (binary .mul (const 1.00005) (const (1 / 0))) hole) = true := by decide +kernel
  exact ⟨hequals, hsymm ▸ hequals, (hhash hequals).2⟩

end Expr

end Formula
