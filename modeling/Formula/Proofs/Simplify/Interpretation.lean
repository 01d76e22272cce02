/-
Formula/Proofs/Simplify/Interpretation.lean

Chains in any structure.  An interpretation gives every constant, variable and
operator a meaning in a type of its own.  Nothing is asked of it but that the
values of a chain form a commutative group (`ReadsChain`): sums, differences and
negations of members are members, as the group has them, and so are products and
quotients, where a negation is a factor of its own.  Other values, such as those
of undefined terms, may be anything.

The value of a chain then depends on a term by what this contributes
(`exists_put`), and a splice takes this out, and nothing else (`exists_splice`).
So the value stays when one term goes and another one takes up what it
contributed (`value_merge`).
-/
import Formula.Proofs.Simplify.Places
import Mathlib.Algebra.Group.TypeTags.Basic

namespace Formula

universe u v w

/-- A meaning for everything that expressions are made of. -/
structure Interpretation (α : Type u) (V : Type v) where
  hole : V
  const : α → V
  var : String → V
  unary : UnaryOp → V → V
  binary : BinaryOp → V → V → V

variable {α : Type u} {V : Type v} {G : Type w}

/-- What a member of the group contributes to a chain. -/
def inverted [Group G] (flip : Bool) (a : G) : G := if flip then a⁻¹ else a

section

variable [CommGroup G] {a b : G} {flip flip' : Bool}

@[simp] theorem inverted_false : inverted false a = a := rfl

theorem inverted_mul : inverted flip (a * b) = inverted flip a * inverted flip b := by
  cases flip <;> simp [inverted, mul_comm]

/-- What is flipped twice is not flipped. -/
theorem inverted_bne : inverted (flip != flip') a = inverted flip' (inverted flip a) := by
  cases flip <;> cases flip' <;> simp [inverted]

/-- Two terms contribute together what one of them does that takes up the other one,
which is inverted if only one of them is flipped. -/
theorem inverted_merge :
    inverted flip (a * inverted (flip != flip') b) = inverted flip a * inverted flip' b := by
  cases flip <;> cases flip' <;> simp [inverted, mul_comm]

end

namespace Interpretation

/-- The value of an expression. -/
def value (R : Interpretation α V) : Expr α → V
  | .hole => R.hole
  | .const v => R.const v
  | .var x => R.var x
  | .unary op x => R.unary op (R.value x)
  | .binary op l r => R.binary op (R.value l) (R.value r)

/-- Constants that are alike without a tolerance have the same meaning. -/
def Respects [Arithmetic α] (R : Interpretation α V) : Prop :=
  ∀ a b, Arithmetic.alike Arithmetic.zero a b = true → R.const a = R.const b

/-- Expressions that are equal without a tolerance have the same value. -/
theorem Respects.value_eq [Arithmetic α] {R : Interpretation α V} (hR : R.Respects) {e f : Expr α}
    (h : e.equals Arithmetic.zero f = true) : R.value e = R.value f := by
  induction e generalizing f with
  | hole => cases f <;> simp_all [Expr.equals]
  | const a =>
      cases f with
      | const b => exact (hR b a h).symm
      | _ => cases h
  | var x => cases f <;> simp_all [Expr.equals]
  | unary op x ih =>
      cases f with
      | unary op' y =>
          simp only [Expr.equals, Bool.and_eq_true, beq_iff_eq] at h
          rw [value, value, h.1, ih h.2]
      | _ => cases h
  | binary op l r ihl ihr =>
      cases f with
      | binary op' l' r' =>
          simp only [Expr.equals, Bool.and_eq_true, beq_iff_eq] at h
          rw [value, value, h.1.1, ihl h.1.2, ihr h.2]
      | _ => cases h

/-! ### Chains in a group -/

/-- The members of a group are read as values of a chain, and the operators of the
chain as its operations.  A negation is the factor `m` in a product, and inverts
in a sum. -/
structure ReadsChain [Arithmetic α] [CommGroup G] (R : Interpretation α V) (kind : ChainKind)
    (ι : G → V) (m : G) : Prop where
  injective : Function.Injective ι
  binary : ∀ op flip a b, kind.flips? op = some flip →
    R.binary op (ι a) (ι b) = ι (a * inverted flip b)
  neg : ∀ a, R.unary .neg (ι a) = ι (m * inverted (kind == .additive) a)
  sum : kind = .additive → m = 1
  negOne : kind = .multiplicative → R.const Arithmetic.negOne = ι m

/-- The terms of the chain are read in the group. -/
def HasTerms (R : Interpretation α V) (kind : ChainKind) (ι : G → V) (e : Expr α) : Prop :=
  ∀ t ∈ e.terms kind, ∃ a, R.value t.expr = ι a

variable {R : Interpretation α V} {kind : ChainKind} {ι : G → V} {a e f l r x t : Expr α}
  {p q : Path} {op : BinaryOp} {flip : Bool} {sp : Splice α}

/-- How the chain itself enters does not matter for what its terms are. -/
theorem map_expr_termsFrom (e : Expr α) (flipped pinned flipped' pinned' : Bool) :
    (e.termsFrom kind flipped pinned).map ChainTerm.expr
      = (e.termsFrom kind flipped' pinned').map ChainTerm.expr := by
  have hbelow : ∀ (s : Slot) (ts : List (ChainTerm α)),
      (ts.map (ChainTerm.below s)).map ChainTerm.expr = ts.map ChainTerm.expr := by
    intro s ts
    rw [List.map_map]
    rfl
  induction e using Expr.chain_induction kind generalizing flipped pinned flipped' pinned' with
  | term e he =>
      rw [he.termsFrom, he.termsFrom]
      rfl
  | neg x ih =>
      rw [Expr.termsFrom_neg, Expr.termsFrom_neg, hbelow, hbelow]
      exact ih _ _ _ _
  | operator op l r flip hop ihl ihr =>
      rw [Expr.termsFrom_binary hop, Expr.termsFrom_binary hop, List.map_append, List.map_append, hbelow,
        hbelow, hbelow, hbelow]
      exact congrArg₂ _ (ihl _ _ _ _) (ihr _ _ _ _)

theorem hasTerms_iff (flipped pinned : Bool) :
    R.HasTerms kind ι e ↔
      ∀ f ∈ (e.termsFrom kind flipped pinned).map ChainTerm.expr, ∃ a, R.value f = ι a := by
  rw [map_expr_termsFrom e flipped pinned false false]
  simp [HasTerms, Expr.terms]

theorem hasTerms_neg : R.HasTerms kind ι (.unary .neg x) ↔ R.HasTerms kind ι x := by
  rw [hasTerms_iff false false, hasTerms_iff (e := x) (false != (kind == .additive)) false,
    Expr.termsFrom_neg, List.map_map]
  rfl

theorem hasTerms_binary (hop : kind.flips? op = some flip) :
    R.HasTerms kind ι (.binary op l r) ↔ R.HasTerms kind ι l ∧ R.HasTerms kind ι r := by
  rw [hasTerms_iff false false, hasTerms_iff (e := l) false (op == .div),
    hasTerms_iff (e := r) (false != flip) false]
  simp only [Expr.termsFrom_binary hop, List.map_append, List.map_map, List.forall_mem_append]
  rfl

theorem hasTerms_of_isTerm (he : e.IsTerm kind) : R.HasTerms kind ι e ↔ ∃ a, R.value e = ι a := by
  simp [HasTerms, Expr.terms, he.termsFrom]

/-- Another term may take the place of a term. -/
theorem HasTerms.put (hp : ChainPath kind e p) (h : R.HasTerms kind ι e) (hf : R.HasTerms kind ι f) :
    R.HasTerms kind ι (e.put p f) := by
  induction hp with
  | here => rwa [Expr.put_nil]
  | operand _ ih => exact hasTerms_neg.mpr (ih (hasTerms_neg.mp h))
  | left hop _ ih =>
      obtain ⟨flip, hop⟩ := Option.isSome_iff_exists.mp hop
      obtain ⟨hl, hr⟩ := (hasTerms_binary hop).mp h
      exact (hasTerms_binary hop).mpr ⟨ih hl, hr⟩
  | right hop _ ih =>
      obtain ⟨flip, hop⟩ := Option.isSome_iff_exists.mp hop
      obtain ⟨hl, hr⟩ := (hasTerms_binary hop).mp h
      exact (hasTerms_binary hop).mpr ⟨hl, ih hr⟩

namespace ReadsChain

variable [Arithmetic α] [CommGroup G] {m u w w' : G}

/-- The value of a chain is read in the group if its terms are. -/
theorem exists_value (hR : R.ReadsChain kind ι m) (h : R.HasTerms kind ι e) :
    ∃ a, R.value e = ι a := by
  induction e with
  | hole | const | var => exact (hasTerms_of_isTerm (by exact trivial)).mp h
  | unary op x ih =>
      by_cases hop : op = .neg
      · subst hop
        obtain ⟨a, ha⟩ := ih (hasTerms_neg.mp h)
        exact ⟨_, by rw [value, ha, hR.neg]⟩
      · exact (hasTerms_of_isTerm (by exact hop)).mp h
  | binary op l r ihl ihr =>
      cases hop : kind.flips? op with
      | none => exact (hasTerms_of_isTerm (by exact hop)).mp h
      | some flip =>
          obtain ⟨hl, hr⟩ := (hasTerms_binary hop).mp h
          obtain ⟨a, ha⟩ := ihl hl
          obtain ⟨b, hb⟩ := ihr hr
          exact ⟨_, by rw [value, ha, hb, hR.binary _ _ _ _ hop]⟩

/-- The value of a chain depends on a term by what the term contributes. -/
theorem exists_put (hR : R.ReadsChain kind ι m) (hp : ChainPath kind e p) (h : R.HasTerms kind ι e) :
    ∃ k, ∀ f u, R.value f = ι u →
      R.value (e.put p f) = ι (k * inverted (e.isFlipped kind p) u) := by
  induction hp with
  | here => exact ⟨1, fun f u hf => by rw [Expr.put_nil, hf, Expr.isFlipped_nil, one_mul, inverted_false]⟩
  | @operand x p hp ih =>
      -- what the rest contributes passes through the operator as the term does
      obtain ⟨k, hput⟩ := ih (hasTerms_neg.mp h)
      refine ⟨m * inverted (kind == .additive) k, fun f u hf => ?_⟩
      rw [Expr.put, value, hput f u hf, hR.neg, Expr.isFlipped, inverted_bne, inverted_mul, mul_assoc]
  | @left op l r p hop hp ih =>
      obtain ⟨flip, hop⟩ := Option.isSome_iff_exists.mp hop
      obtain ⟨hl, hr⟩ := (hasTerms_binary hop).mp h
      obtain ⟨k, hput⟩ := ih hl
      obtain ⟨b, hb⟩ := hR.exists_value hr
      refine ⟨k * inverted flip b, fun f u hf => ?_⟩
      rw [Expr.put, value, hput f u hf, hb, hR.binary _ _ _ _ hop, Expr.isFlipped, mul_right_comm]
  | @right op l r p hop hp ih =>
      obtain ⟨flip, hop⟩ := Option.isSome_iff_exists.mp hop
      obtain ⟨hl, hr⟩ := (hasTerms_binary hop).mp h
      obtain ⟨k, hput⟩ := ih hr
      obtain ⟨b, hb⟩ := hR.exists_value hl
      refine ⟨b * inverted flip k, fun f u hf => ?_⟩
      rw [Expr.put, value, hput f u hf, hb, hR.binary _ _ _ _ hop, Expr.isFlipped_right hop,
        inverted_bne, inverted_mul, mul_assoc]

/-- If nothing of the chain would be left, the term is all of it. -/
theorem value_of_splice?_eq_none (hR : R.ReadsChain kind ι m) (hp : ChainPath kind e p)
    (ht : e.at? p = some t) (hu : R.value t = ι u) (hsp : e.splice? kind p = none) :
    R.value e = ι (inverted (e.isFlipped kind p) u) := by
  induction hp with
  | here =>
      obtain rfl := Option.some.inj ht
      rw [hu, Expr.isFlipped_nil, inverted_false]
  | @operand x p hp ih =>
      obtain ⟨hbelow, hhere⟩ := Expr.splice?_eq_none_below hsp rfl
      cases kind with
      | additive => rw [value, ih ht hbelow, hR.neg, hR.sum rfl, one_mul, Expr.isFlipped, inverted_bne]
      | multiplicative => cases hhere
  | left | right =>
      have hhere := (Expr.splice?_eq_none_below hsp rfl).2
      exact absurd (Expr.eq_operand_of_spliceHere? hhere rfl) (by decide)

/-- What is left of an operator of a chain without its left operand, unless that
is a numerator. -/
theorem value_splice_left (hR : R.ReadsChain kind ι m) (hop : kind.flips? op = some flip)
    (hsp : (Expr.binary op l r).spliceHere? kind .left = some sp) (hw : R.value r = ι w)
    (hplace : kind = .multiplicative → sp.place ≠ [.left]) :
    R.value ((Expr.binary op l r).splice sp) = ι (inverted flip w) := by
  cases kind <;> cases op <;> simp only [ChainKind.flips?, Option.some.injEq, reduceCtorEq] at hop <;>
    subst hop <;> cases hsp
  case additive.add | multiplicative.mul => exact hw
  case additive.sub =>
    change R.unary .neg (R.value r) = _
    rw [hw, hR.neg, hR.sum rfl, one_mul]
    rfl
  case multiplicative.div => exact absurd rfl (hplace rfl)

/-- A term is taken out of a chain together with what it contributes. -/
theorem exists_splice (hR : R.ReadsChain kind ι m) (hp : ChainPath kind e p)
    (h : R.HasTerms kind ι e) (ht : e.at? p = some t) (hu : R.value t = ι u)
    (hsp : e.splice? kind p = some sp) (hplace : sp.place ≠ p) :
    ∃ k, R.value e = ι (k * inverted (e.isFlipped kind p) u) ∧ R.value (e.splice sp) = ι k := by
  induction hp generalizing sp with
  | here => cases hsp
  | @operand x p hp ih =>
      rcases Expr.splice?_below_or_here hsp rfl with ⟨sp', hsp', rfl⟩ | ⟨hnone, hhere⟩
      · obtain ⟨k, hx, hk⟩ := ih (hasTerms_neg.mp h) ht hsp' (Splice.place_below_ne_iff.mp hplace)
        refine ⟨m * inverted (kind == .additive) k, ?_, ?_⟩
        · rw [value, hx, hR.neg, Expr.isFlipped, inverted_bne, inverted_mul, mul_assoc]
        · rw [Expr.splice_below rfl (Expr.isSome_place hsp' (Option.isSome_of_eq_some ht)), Expr.put,
            Expr.put_nil, value, hk, hR.neg]
      · cases kind <;> cases hhere
        -- the factor minus one is what the negation contributes
        refine ⟨m, ?_, hR.negOne rfl⟩
        rw [value, hR.value_of_splice?_eq_none hp ht hu hnone, hR.neg, Expr.isFlipped, inverted_bne]
  | @left op l r p hop hp ih =>
      obtain ⟨flip, hop⟩ := Option.isSome_iff_exists.mp hop
      obtain ⟨hl, hr⟩ := (hasTerms_binary hop).mp h
      obtain ⟨b, hb⟩ := hR.exists_value hr
      rcases Expr.splice?_below_or_here hsp rfl with ⟨sp', hsp', rfl⟩ | ⟨hnone, hhere⟩
      · obtain ⟨k, hx, hk⟩ := ih hl ht hsp' (Splice.place_below_ne_iff.mp hplace)
        refine ⟨k * inverted flip b, ?_, ?_⟩
        · rw [value, hx, hb, hR.binary _ _ _ _ hop, Expr.isFlipped, mul_right_comm]
        · rw [Expr.splice_below rfl (Expr.isSome_place hsp' (Option.isSome_of_eq_some ht)), Expr.put,
            Expr.put_nil, value, hk, hb, hR.binary _ _ _ _ hop]
      · have hvalue : R.value (.binary op l r)
            = ι (inverted flip b * inverted (l.isFlipped kind p) u) := by
          rw [value, hR.value_of_splice?_eq_none hp ht hu hnone, hb, hR.binary _ _ _ _ hop, mul_comm]
        refine ⟨inverted flip b, hvalue, hR.value_splice_left hop hhere hb ?_⟩
        rintro rfl hone
        obtain rfl := Expr.eq_nil_of_splice? hnone (Option.isSome_of_eq_some ht)
        exact hplace hone
  | @right op l r p hop hp ih =>
      obtain ⟨flip, hop⟩ := Option.isSome_iff_exists.mp hop
      obtain ⟨hl, hr⟩ := (hasTerms_binary hop).mp h
      obtain ⟨b, hb⟩ := hR.exists_value hl
      rcases Expr.splice?_below_or_here hsp rfl with ⟨sp', hsp', rfl⟩ | ⟨hnone, hhere⟩
      · obtain ⟨k, hx, hk⟩ := ih hr ht hsp' (Splice.place_below_ne_iff.mp hplace)
        refine ⟨b * inverted flip k, ?_, ?_⟩
        · rw [value, hx, hb, hR.binary _ _ _ _ hop, Expr.isFlipped_right hop, inverted_bne,
            inverted_mul, mul_assoc]
        · rw [Expr.splice_below rfl (Expr.isSome_place hsp' (Option.isSome_of_eq_some ht)), Expr.put,
            Expr.put_nil, value, hk, hb, hR.binary _ _ _ _ hop]
      · cases hhere
        refine ⟨b, ?_, hb⟩
        rw [value, hR.value_of_splice?_eq_none hp ht hu hnone, hb, hR.binary _ _ _ _ hop,
          Expr.isFlipped_right hop, inverted_bne]

/-- **The value of a chain stays when two terms are merged.**  One term goes, and
another one changes to be joined with it by the operator of the chain that their
flags ask for. -/
theorem value_merge {kept t : ChainTerm α} (hR : R.ReadsChain kind ι m) (h : R.HasTerms kind ι e)
    (hk : kept ∈ e.terms kind) (ht : t ∈ e.terms kind) (hapart : Path.Apart t.path kept.path)
    (hsp : e.splice? kind t.path = some sp) (hplace : sp.place ≠ t.path) (hterm : f.IsTerm kind)
    (hop : kind.flips? op = some (kept.flipped != t.flipped))
    (hf : R.value f = R.binary op (R.value kept.expr) (R.value t.expr)) :
    R.value ((e.put kept.path f).splice sp) = R.value e := by
  obtain ⟨hkept, hkeptPath⟩ := Expr.at?_of_mem_termsFrom hk
  obtain ⟨hremoved, hpath⟩ := Expr.at?_of_mem_termsFrom ht
  obtain ⟨a, ha⟩ := h kept hk
  obtain ⟨u, hu⟩ := h t ht
  rw [ha, hu, hR.binary _ _ _ _ hop] at hf
  obtain ⟨k, hput⟩ := hR.exists_put hkeptPath h
  have hvalue := hput kept.expr a ha
  rw [Expr.put_at? hkept] at hvalue
  -- the term that goes is as it was when the other one has changed
  obtain ⟨k', hchanged, hspliced⟩ := hR.exists_splice (Expr.chainPath_put hpath hapart.symm)
    (h.put hkeptPath ((hasTerms_of_isTerm hterm).mpr ⟨_, hf⟩))
    ((Expr.at?_put_of_apart hapart.symm).trans hremoved) hu
    ((Expr.splice?_put hapart.symm).trans hsp) hplace
  rw [hput f _ hf, Expr.isFlipped_put hapart.symm, ← Expr.flipped_of_mem_terms hk,
    ← Expr.flipped_of_mem_terms ht, inverted_merge, ← mul_assoc] at hchanged
  rw [hspliced, hvalue, ← Expr.flipped_of_mem_terms hk, mul_right_cancel (hR.injective hchanged)]

end ReadsChain

/-! ### Sums and products -/

/-- The members of a group are read as values, with its addition, subtraction and
negation. -/
structure ReadsSums [AddCommGroup G] (R : Interpretation α V) (ι : G → V) : Prop where
  injective : Function.Injective ι
  add : ∀ a b, R.binary .add (ι a) (ι b) = ι (a + b)
  sub : ∀ a b, R.binary .sub (ι a) (ι b) = ι (a - b)
  neg : ∀ a, R.unary .neg (ι a) = ι (-a)

/-- The members of a group are read as values, with its multiplication and
division.  A negation multiplies by `m`, which is the value of minus one. -/
structure ReadsProducts [Arithmetic α] [CommGroup G] (R : Interpretation α V) (ι : G → V) (m : G) :
    Prop where
  injective : Function.Injective ι
  mul : ∀ a b, R.binary .mul (ι a) (ι b) = ι (a * b)
  div : ∀ a b, R.binary .div (ι a) (ι b) = ι (a / b)
  neg : ∀ a, R.unary .neg (ι a) = ι (m * a)
  negOne : R.const Arithmetic.negOne = ι m

theorem ReadsSums.readsChain [Arithmetic α] [AddCommGroup G] {ι : G → V} (hR : R.ReadsSums ι) :
    R.ReadsChain .additive (fun a : Multiplicative G => ι a.toAdd) 1 where
  injective a b h := Multiplicative.toAdd.injective (hR.injective h)
  binary op flip a b hop := by
    cases op <;> simp only [ChainKind.flips?, Option.some.injEq, reduceCtorEq] at hop <;> subst hop
    · exact hR.add _ _
    · rw [hR.sub, sub_eq_add_neg]
      rfl
  neg a := by
    rw [hR.neg, one_mul]
    rfl
  sum _ := rfl
  negOne := nofun

theorem ReadsProducts.readsChain [Arithmetic α] [CommGroup G] {ι : G → V} {m : G}
    (hR : R.ReadsProducts ι m) : R.ReadsChain .multiplicative ι m where
  injective := hR.injective
  binary op flip a b hop := by
    cases op <;> simp only [ChainKind.flips?, Option.some.injEq, reduceCtorEq] at hop <;> subst hop
    · exact hR.mul a b
    · rw [hR.div, div_eq_mul_inv]
      rfl
  neg := hR.neg
  sum := nofun
  negOne _ := hR.negOne

end Interpretation

end Formula
