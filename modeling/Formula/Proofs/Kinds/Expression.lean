/-
Formula/Proofs/Kinds/Expression.lean

The kinds of an expression: what is known of its value if only the kinds of the
constants and of the variables are known, and of the functions only which kinds their
values may be of for each kind of operand (`Knowledge`).  Of powers, roots and
logarithms nothing is known, except that NaN has no logarithm.

If no kind is left, the value is NaN (`Expr.ofFloat_subset_kinds`), provided that what
is taken for known of the functions is true (`Knowledge.fragment`).
-/
import Formula.Proofs.Kinds.Binary64
import Formula.Proofs.Simplify.Folding
import Formula.Proofs.Simplify.Fragment

namespace Formula

/-- What is known when an expression is looked at. -/
structure Knowledge where
  /-- The values of the variables. -/
  values : Environment Float
  /-- The kinds of the value of a function for a kind of operand.  Negations are known
  anyhow, and natural logarithms are not. -/
  functions : UnaryOp → Kind → Kinds

variable {known : Knowledge} {S S' T T' : Kinds} {v w : Float}

/-! ### Operators -/

namespace UnaryOp

/-- What is known of the value of a function. -/
def kinds (known : Knowledge) : UnaryOp → Kinds → Kinds
  | neg, S => Kinds.neg S
  | ln, S => S.biUnion fun _ => Finset.univ
  | op, S => S.biUnion (known.functions op)

theorem kinds_mono (known : Knowledge) (op : UnaryOp) (h : S ⊆ T) :
    op.kinds known S ⊆ op.kinds known T := by
  cases op with
  | neg => exact Kinds.neg_mono h
  | _ => exact Finset.biUnion_subset_biUnion_of_subset_left _ h

theorem kinds_ln (known : Knowledge) (S : Kinds) :
    ln.kinds known S = if S = ∅ then ∅ else Finset.univ := by
  split
  · next h =>
    subst h
    rfl
  · next h =>
    obtain ⟨a, ha⟩ := Finset.nonempty_iff_ne_empty.mpr h
    exact Finset.eq_univ_of_forall fun b => Finset.mem_biUnion.mpr ⟨a, ha, Finset.mem_univ b⟩

/-- What is taken for known of a function is true. -/
def Respects (op : UnaryOp) (known : Knowledge) : Prop :=
  ∀ v : Float, Kinds.ofFloat (Arithmetic.unary op v) ⊆ op.kinds known (Kinds.ofFloat v)

end UnaryOp

namespace BinaryOp

/-- What is known of the value of an operator. -/
def kinds (known : Knowledge) : BinaryOp → Kinds → Kinds → Kinds
  | add, S, T => Kinds.add S T
  | sub, S, T => Kinds.add S (Kinds.neg T)
  | mul, S, T => Kinds.mul S T
  | div, S, T => Kinds.mul S (Kinds.inv T)
  | max, S, T => Kinds.lift Kind.max S T
  | min, S, T => Kinds.lift Kind.min S T
  | log, _, T => UnaryOp.ln.kinds known T
  | pow, _, _ | root, _, _ => Finset.univ

theorem kinds_mono (known : Knowledge) (op : BinaryOp) (hS : S ⊆ S') (hT : T ⊆ T') :
    op.kinds known S T ⊆ op.kinds known S' T' := by
  cases op with
  | add | mul | max | min => exact Kinds.lift_mono hS hT
  | sub => exact Kinds.lift_mono hS (Kinds.neg_mono hT)
  | div => exact Kinds.lift_mono hS (Kinds.inv_mono hT)
  | log => exact UnaryOp.kinds_mono known .ln hT
  | pow | root => exact subset_rfl

theorem ofFloat_subset_kinds {op : BinaryOp} (h : op = log → UnaryOp.ln.Respects known) :
    Kinds.ofFloat (Arithmetic.binary op v w)
      ⊆ op.kinds known (Kinds.ofFloat v) (Kinds.ofFloat w) := by
  cases op with
  | add => exact Kinds.ofFloat_add v w
  | sub => exact Kinds.ofFloat_sub v w
  | mul => exact Kinds.ofFloat_mul v w
  | div => exact Kinds.ofFloat_div v w
  | max => exact Kinds.ofFloat_maximum v w
  | min => exact Kinds.ofFloat_minimum v w
  | pow | root => exact Finset.subset_univ _
  | log =>
      have hlog : Kinds.ofFloat w.log ⊆ UnaryOp.ln.kinds known (Kinds.ofFloat w) := h rfl w
      rw [kinds]
      rw [UnaryOp.kinds_ln] at hlog ⊢
      split_ifs at hlog ⊢
      · have hdiv : Kinds.ofFloat (w.log / v.log) ⊆ _ := Kinds.ofFloat_div w.log v.log
        rw [Finset.subset_empty.mp hlog] at hdiv
        exact hdiv
      · exact Finset.subset_univ _

end BinaryOp

/-- The functions of which what is taken for known is true. -/
def Knowledge.fragment (known : Knowledge) : Fragment where
  unary op := op.Respects known
  binary op := op = .log → UnaryOp.ln.Respects known
  neg v := (Kinds.ofFloat_neg v).subset
  add := nofun
  sub := nofun
  mul := nofun
  div := nofun
  pow_of_root _ := nofun

/-! ### Expressions -/

namespace Expr

/-- What is known of the value of an expression. -/
def kinds (known : Knowledge) : Expr Float → Kinds
  | hole => Finset.univ
  | const v => Kinds.ofFloat v
  | var x => match known.values x with
    | some v => Kinds.ofFloat v
    | none => Finset.univ
  | unary op x => op.kinds known (x.kinds known)
  | binary op l r => op.kinds known (l.kinds known) (r.kinds known)

variable {ctx : Environment Float} {e : Expr Float}

/-- The value of an expression is of one of its kinds. -/
theorem ofFloat_subset_kinds (he : e.In known.fragment)
    (hle : ∀ x c, ctx x = some c → known.values x = some c) (h : e.eval ctx = .ok v) :
    Kinds.ofFloat v ⊆ e.kinds known := by
  induction e generalizing v with
  | hole => cases h
  | const c =>
      obtain rfl := Except.ok.inj h
      exact subset_rfl
  | var x =>
      cases hx : ctx x with
      | none => simp [eval, hx] at h
      | some c =>
          obtain rfl : c = v := by simpa [eval, hx] using h
          rw [kinds, hle x c hx]
  | unary op x ih =>
      obtain ⟨a, ha, rfl⟩ := eval_unary_eq_ok.mp h
      exact (he.1 a).trans (op.kinds_mono known (ih he.2 ha))
  | binary op l r ihl ihr =>
      obtain ⟨a, b, ha, hb, rfl⟩ := eval_binary_eq_ok.mp h
      exact (BinaryOp.ofFloat_subset_kinds he.1).trans
        (op.kinds_mono known (ihl he.2.1 ha) (ihr he.2.2 hb))

end Expr

end Formula
