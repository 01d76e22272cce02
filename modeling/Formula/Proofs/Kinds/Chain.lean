/-
Formula/Proofs/Kinds/Chain.lean

The kinds of a chain.  What a term contributes to a sum is of its own kinds or of the
opposite ones, what it contributes to a product is of its own kinds or of the
reciprocal ones (`ChainKind.turn`), and the chain puts together what the terms
contribute (`ChainKind.combine`).  The rest of a chain acts on one of its terms as a
function that commutes with putting together (`ChainKind.Context`), so two terms can
be brought next to each other (`Expr.exists_kinds_merge`).

Where a term is taken out of a product a factor one or minus one may stay.  It does
not change the value, but of the kinds of a product with an ordinary factor only
overflow and underflow are known (`ChainKind.blur`).
-/
import Formula.Proofs.Kinds.Expression
import Formula.Proofs.Simplify.Merging

namespace Formula

open Formula.Path (Apart)

variable {S T U : Kinds} {f g : Kinds → Kinds} {kind : ChainKind} {flip flip' : Bool}

namespace ChainKind

/-- The kinds of two terms together. -/
def combine : ChainKind → Kinds → Kinds → Kinds
  | additive => Kinds.add
  | multiplicative => Kinds.mul

/-- The kinds of what a term contributes. -/
def turn : ChainKind → Bool → Kinds → Kinds
  | _, false => id
  | additive, true => Kinds.neg
  | multiplicative, true => Kinds.inv

/-- The kinds of a term beside a factor one. -/
def blur : ChainKind → Kinds → Kinds
  | additive => id
  | multiplicative => Kinds.mul Kinds.one

theorem combine_comm : kind.combine S T = kind.combine T S := by
  cases kind
  exacts [Kinds.add_comm, Kinds.mul_comm]

theorem combine_assoc : kind.combine (kind.combine S T) U = kind.combine S (kind.combine T U) := by
  cases kind
  exacts [Kinds.add_assoc, Kinds.mul_assoc]

theorem combine_mono (kind : ChainKind) {S' T' : Kinds} (hS : S ⊆ S') (hT : T ⊆ T') :
    kind.combine S T ⊆ kind.combine S' T' := by
  cases kind <;> exact Kinds.lift_mono hS hT

@[simp] theorem turn_false : kind.turn false S = S := by
  cases kind <;> rfl

@[simp] theorem turn_turn : kind.turn flip (kind.turn flip S) = S := by
  cases kind <;> cases flip <;> simp [turn]

theorem turn_mono (kind : ChainKind) (flip : Bool) (h : S ⊆ T) :
    kind.turn flip S ⊆ kind.turn flip T := by
  cases kind <;> cases flip
  exacts [h, Kinds.neg_mono h, h, Kinds.inv_mono h]

theorem turn_combine :
    kind.turn flip (kind.combine S T) = kind.combine (kind.turn flip S) (kind.turn flip T) := by
  cases kind <;> cases flip <;> simp [turn, combine, Kinds.neg_add, Kinds.inv_mul]

/-- What is turned twice is not turned. -/
theorem turn_bne : kind.turn (flip != flip') S = kind.turn flip' (kind.turn flip S) := by
  cases kind <;> cases flip <;> cases flip' <;> simp [turn]

theorem turn_neg : kind.turn flip (Kinds.neg S) = Kinds.neg (kind.turn flip S) := by
  cases kind <;> cases flip <;> simp [turn, Kinds.inv_neg]

theorem turn_blur : kind.turn flip (kind.blur S) = kind.blur (kind.turn flip S) := by
  have hone : Kinds.inv Kinds.one = Kinds.one := rfl
  cases kind <;> cases flip <;> simp [turn, blur, Kinds.inv_mul, hone]

/-- A negation turns both terms of a sum, but one factor of a product. -/
theorem neg_combine :
    Kinds.neg (kind.combine S T) = kind.combine (Kinds.neg S) (kind.turn (kind == additive) T) := by
  cases kind
  exacts [Kinds.neg_add, Kinds.neg_mul]

theorem blur_mono (kind : ChainKind) (h : S ⊆ T) : kind.blur S ⊆ kind.blur T := by
  cases kind
  exacts [h, Kinds.lift_mono subset_rfl h]

theorem subset_blur : S ⊆ kind.blur S := by
  cases kind
  · exact subset_rfl
  · exact Kinds.subset_mul_one.trans Kinds.mul_comm.subset

theorem blur_combine : kind.blur (kind.combine S T) = kind.combine (kind.blur S) T := by
  cases kind <;> simp [blur, combine, Kinds.mul_assoc]

/-- Beside another term a factor one makes no difference. -/
theorem blur_combine_eq (kind : ChainKind) (S T : Kinds) :
    kind.blur (kind.combine S T) = kind.combine S T := by
  cases kind
  · rfl
  · exact Kinds.mul_comm.trans Kinds.mul_one_mul

theorem combine_blur_blur : kind.combine (kind.blur S) (kind.blur T) = kind.combine S T := by
  rw [← blur_combine, combine_comm, ← blur_combine, blur_combine_eq, blur_combine_eq, combine_comm]

/-! ### The rest of a chain -/

/-- How the rest of a chain acts on the kinds of what one term contributes. -/
structure Context (kind : ChainKind) (g : Kinds → Kinds) : Prop where
  mono : ∀ {S T}, S ⊆ T → g S ⊆ g T
  combine : ∀ S T, g (kind.combine S T) = kind.combine (g S) T
  /-- A product has the sign of its factors. -/
  neg : kind = multiplicative → ∀ S, g (Kinds.neg S) = Kinds.neg (g S)

namespace Context

theorem id (kind : ChainKind) : kind.Context id := ⟨fun h => h, fun _ _ => rfl, fun _ _ => rfl⟩

theorem comp (hf : kind.Context f) (hg : kind.Context g) : kind.Context (f ∘ g) where
  mono h := hf.mono (hg.mono h)
  combine S T := by simp [hf.combine, hg.combine]
  neg h S := by simp [hf.neg h, hg.neg h]

/-- A term beside. -/
theorem term (S : Kinds) : kind.Context (kind.combine S) where
  mono h := kind.combine_mono subset_rfl h
  combine T U := combine_assoc.symm
  neg := by
    rintro rfl T
    rw [combine_comm, combine_comm (T := T)]
    exact Kinds.neg_mul.symm

/-- A context below a difference or quotient. -/
theorem turned (hg : kind.Context g) (flip : Bool) :
    kind.Context fun S => kind.turn flip (g (kind.turn flip S)) where
  mono h := kind.turn_mono flip (hg.mono (kind.turn_mono flip h))
  combine S T := by rw [turn_combine, hg.combine, turn_combine, turn_turn]
  neg h S := by rw [turn_neg, hg.neg h, turn_neg]

theorem blur (hg : kind.Context g) : g (kind.blur S) = kind.blur (g S) := by
  cases kind
  · rfl
  · change g (multiplicative.combine _ S) = multiplicative.combine _ (g S)
    rw [combine_comm, hg.combine, combine_comm]

theorem combine_right (hg : kind.Context g) (S T : Kinds) :
    g (kind.combine S T) = kind.combine S (g T) := by
  rw [combine_comm, hg.combine, combine_comm]

/-- A factor one may stay on either side. -/
theorem combine_blur (hg : kind.Context g) :
    kind.combine (g (kind.blur S)) T = kind.combine S (g (kind.blur T)) := by
  rw [← hg.combine, ← blur_combine, combine_comm (S := S) (T := g _), ← hg.combine, ← blur_combine,
    combine_comm]

/-- A negation flips a term of a sum, and is a factor of a product. -/
theorem exists_neg (hg : kind.Context g) :
    ∃ G, kind.Context G ∧ ∀ S, Kinds.neg (g S) = G (kind.turn (kind == additive) S) := by
  cases kind with
  | additive =>
      refine ⟨_, hg.turned true, fun S => ?_⟩
      change _ = Kinds.neg (g (Kinds.neg (Kinds.neg S)))
      rw [Kinds.neg_neg]
  | multiplicative =>
      refine ⟨fun S => Kinds.neg (g S), ⟨fun h => Kinds.neg_mono (hg.mono h), fun S T => ?_,
        fun h S => by rw [hg.neg h]⟩, fun S => rfl⟩
      rw [hg.combine]
      exact Kinds.neg_mul

end Context

end ChainKind

open ChainKind (Context)

namespace Expr

variable {known : Knowledge} {e a t l r x : Expr Float} {p q : Path} {sp : Splice Float}
  {op : BinaryOp}

/-- The kinds of an operator of a chain. -/
theorem kinds_flips (hop : kind.flips? op = some flip) :
    (binary op l r).kinds known = kind.combine (l.kinds known) (kind.turn flip (r.kinds known)) := by
  cases kind <;> cases op <;> simp only [ChainKind.flips?, Option.some.injEq, reduceCtorEq] at hop <;>
    subst hop <;> rfl

theorem kinds_neg : (unary .neg x).kinds known = Kinds.neg (x.kinds known) := rfl

/-- The rest of the chain is a context of a term. -/
theorem exists_context (known : Knowledge) (hp : ChainPath kind e p) :
    ∃ g, kind.Context g ∧
      ∀ f, (e.put p f).kinds known = g (kind.turn (e.isFlipped kind p) (f.kinds known)) := by
  induction hp with
  | here => exact ⟨_, .id kind, fun f => by simp [isFlipped]⟩
  | @operand x p hp ih =>
      obtain ⟨g, hg, hput⟩ := ih
      obtain ⟨G, hG, hneg⟩ := hg.exists_neg
      refine ⟨G, hG, fun f => ?_⟩
      rw [put, kinds_neg, hput, hneg, isFlipped, ChainKind.turn_bne]
  | @left op l r p hop hp ih =>
      obtain ⟨flip, hop⟩ := Option.isSome_iff_exists.mp hop
      obtain ⟨g, hg, hput⟩ := ih
      refine ⟨_, (Context.term (kind.turn flip (r.kinds known))).comp hg, fun f => ?_⟩
      rw [put, kinds_flips hop, hput, isFlipped, ChainKind.combine_comm]
      rfl
  | @right op l r p hop hp ih =>
      obtain ⟨flip, hop⟩ := Option.isSome_iff_exists.mp hop
      obtain ⟨g, hg, hput⟩ := ih
      refine ⟨_, (Context.term (l.kinds known)).comp (hg.turned flip), fun f => ?_⟩
      rw [put, kinds_flips hop, hput, isFlipped_right hop, ChainKind.turn_bne, Function.comp_apply,
        ChainKind.turn_turn]

/-- The same for the term that is there. -/
theorem exists_context_at? (known : Knowledge) (hp : ChainPath kind e p) (ha : e.at? p = some a) :
    ∃ g, kind.Context g ∧ e.kinds known = g (kind.turn (e.isFlipped kind p) (a.kinds known)) ∧
      ∀ f, (e.put p f).kinds known = g (kind.turn (e.isFlipped kind p) (f.kinds known)) := by
  obtain ⟨g, hg, hput⟩ := exists_context known hp
  exact ⟨g, hg, by rw [← hput, put_at? ha], hput⟩

/-! ### Taking out -/

/-- If nothing of the chain would be left, the term is all of it. -/
theorem kinds_of_splice?_eq_none (known : Knowledge) (ha : e.at? p = some a)
    (hp : ChainPath kind e p) (hsp : e.splice? kind p = none) :
    e.kinds known = kind.turn (e.isFlipped kind p) (a.kinds known) := by
  induction hp with
  | here =>
      obtain rfl := Option.some.inj ha
      simp [isFlipped]
  | @operand x p hp ih =>
      obtain ⟨hbelow, hhere⟩ := splice?_eq_none_below hsp rfl
      rw [kinds_neg, ih ha hbelow, isFlipped, ChainKind.turn_bne]
      cases kind
      · rfl
      · cases hhere
  | left | right =>
      have hhere := (splice?_eq_none_below hsp rfl).2
      exact absurd (eq_operand_of_spliceHere? hhere rfl) (by decide)

/-- What is left of an operator of a chain without its left operand. -/
theorem kinds_splice_left (hop : kind.flips? op = some flip)
    (hsp : (binary op l r).spliceHere? kind .left = some sp) :
    ((binary op l x).splice sp).kinds known ⊆ kind.blur (kind.turn flip (x.kinds known)) := by
  cases kind <;> cases op <;> simp only [ChainKind.flips?, Option.some.injEq, reduceCtorEq] at hop <;>
    subst hop <;> cases hsp
  case additive.add | additive.sub => exact subset_rfl
  case multiplicative.mul => exact ChainKind.subset_blur
  case multiplicative.div =>
    have hsplice : (binary .div l x).splice (.fill [.left] Arithmetic.one)
        = .binary .div (.const Arithmetic.one) x := by
      change binary .div (l.put [] _) x = _
      rw [put_nil]
      rfl
    rw [hsplice, ChainKind.blur, ← Kinds.ofFloat_one]
    exact subset_rfl

/-- The term that goes is in the left operand. -/
theorem exists_kinds_splice_left (known : Knowledge) (hop : kind.flips? op = some flip)
    (hp : ChainPath kind l p) (ht : l.at? p = some t)
    (hsp : (binary op l r).splice? kind (.left :: p) = some sp)
    (ih : ∀ sp', l.splice? kind p = some sp' → ∃ g, kind.Context g ∧
      l.kinds known = g (kind.turn (l.isFlipped kind p) (t.kinds known)) ∧
      ∀ S, kind.combine ((l.splice sp').kinds known) S ⊆ g (kind.blur S)) :
    ∃ g, kind.Context g ∧ l.kinds known = g (kind.turn (l.isFlipped kind p) (t.kinds known)) ∧
      ∀ r', ((binary op l r').splice sp).kinds known
        ⊆ g (kind.blur (kind.turn flip (r'.kinds known))) := by
  rcases splice?_below_or_here hsp rfl with ⟨sp', hsp', rfl⟩ | ⟨hnone, hhere⟩
  · obtain ⟨g, hg, heq, hsub⟩ := ih sp' hsp'
    refine ⟨g, hg, heq, fun r' => ?_⟩
    rw [splice_below rfl (isSome_place hsp' (Option.isSome_of_eq_some ht)), put, put_nil,
      kinds_flips hop]
    exact hsub _
  · exact ⟨id, .id kind, kinds_of_splice?_eq_none known ht hp hnone,
      fun r' => kinds_splice_left hop hhere⟩

/-- The term that goes is in the right operand. -/
theorem exists_kinds_splice_right (known : Knowledge) (hop : kind.flips? op = some flip)
    (hp : ChainPath kind r p) (ht : r.at? p = some t)
    (hsp : (binary op l r).splice? kind (.right :: p) = some sp)
    (ih : ∀ sp', r.splice? kind p = some sp' → ∃ g, kind.Context g ∧
      r.kinds known = g (kind.turn (r.isFlipped kind p) (t.kinds known)) ∧
      ∀ S, kind.combine ((r.splice sp').kinds known) S ⊆ g (kind.blur S)) :
    ∃ g, kind.Context g ∧ r.kinds known = g (kind.turn (r.isFlipped kind p) (t.kinds known)) ∧
      ∀ l', ((binary op l' r).splice sp).kinds known
        ⊆ kind.turn flip (g (kind.turn flip (kind.blur (l'.kinds known)))) := by
  rcases splice?_below_or_here hsp rfl with ⟨sp', hsp', rfl⟩ | ⟨hnone, hhere⟩
  · obtain ⟨g, hg, heq, hsub⟩ := ih sp' hsp'
    refine ⟨g, hg, heq, fun l' => ?_⟩
    rw [splice_below rfl (isSome_place hsp' (Option.isSome_of_eq_some ht)), put, put_nil,
      kinds_flips hop]
    have hturn := kind.turn_mono flip (hsub (kind.turn flip (l'.kinds known)))
    rwa [ChainKind.turn_combine, ChainKind.turn_turn, ChainKind.combine_comm, ← ChainKind.turn_blur]
      at hturn
  · cases hhere
    refine ⟨id, .id kind, kinds_of_splice?_eq_none known ht hp hnone, fun l' => ?_⟩
    simp only [id_eq, ChainKind.turn_turn]
    exact ChainKind.subset_blur

/-- A term is taken out of a chain: with another term, what is left acts like the
context of the one that has gone. -/
theorem exists_kinds_splice (known : Knowledge) (hp : ChainPath kind e p) (ht : e.at? p = some t)
    (hsp : e.splice? kind p = some sp) :
    ∃ g, kind.Context g ∧ e.kinds known = g (kind.turn (e.isFlipped kind p) (t.kinds known)) ∧
      ∀ S, kind.combine ((e.splice sp).kinds known) S ⊆ g (kind.blur S) := by
  induction hp generalizing sp with
  | here => cases hsp
  | @operand x p hp ih =>
      simp only [kinds_neg, isFlipped, ChainKind.turn_bne]
      rcases splice?_below_or_here hsp rfl with ⟨sp', hsp', rfl⟩ | ⟨hnone, hhere⟩
      · obtain ⟨g, hg, heq, hsub⟩ := ih ht hsp'
        obtain ⟨G, hG, hneg⟩ := hg.exists_neg
        refine ⟨G, hG, by rw [heq, hneg], fun S => ?_⟩
        rw [splice_below rfl (isSome_place hsp' (Option.isSome_of_eq_some ht)), put, put_nil,
          kinds_neg]
        have hturn := Kinds.neg_mono (hsub (kind.turn (kind == .additive) S))
        rwa [ChainKind.neg_combine, ChainKind.turn_turn, hneg, ← ChainKind.turn_blur,
          ChainKind.turn_turn] at hturn
      · obtain ⟨G, hG, hneg⟩ := (Context.id kind).exists_neg
        refine ⟨G, hG, by rw [← hneg, kinds_of_splice?_eq_none (e := x) known ht hp hnone, id],
          fun S => ?_⟩
        cases kind
        · cases hhere
        · cases hhere
          -- only the sign is left of the product
          have hone : (const Arithmetic.negOne).kinds known = Kinds.neg Kinds.one :=
            (Kinds.ofFloat_neg 1.0).trans (congrArg Kinds.neg Kinds.ofFloat_one)
          rw [show (unary .neg x).splice (.fill [] Arithmetic.negOne) = .const Arithmetic.negOne from
            put_nil _ _, hone]
          exact (Kinds.neg_mul.symm.trans (hneg _)).subset
  | @left op l r p hop hp ih =>
      obtain ⟨flip, hop⟩ := Option.isSome_iff_exists.mp hop
      obtain ⟨g, hg, heq, hsub⟩ := exists_kinds_splice_left known hop hp ht hsp fun _ => ih ht
      refine ⟨_, (Context.term (kind.turn flip (r.kinds known))).comp hg, ?_, fun S => ?_⟩
      · rw [kinds_flips hop, heq, isFlipped, ChainKind.combine_comm]
        rfl
      · refine (kind.combine_mono (hsub r) subset_rfl).trans ?_
        rw [hg.combine_blur]
        exact subset_rfl
  | @right op l r p hop hp ih =>
      obtain ⟨flip, hop⟩ := Option.isSome_iff_exists.mp hop
      obtain ⟨g, hg, heq, hsub⟩ := exists_kinds_splice_right known hop hp ht hsp fun _ => ih ht
      refine ⟨_, (Context.term (l.kinds known)).comp (hg.turned flip), ?_, fun S => ?_⟩
      · rw [kinds_flips hop, heq, isFlipped_right hop, ChainKind.turn_bne, Function.comp_apply,
          ChainKind.turn_turn]
      · refine (kind.combine_mono (hsub l) subset_rfl).trans ?_
        rw [(hg.turned flip).combine_blur]
        exact subset_rfl

/-! ### Merging -/

/-- The term that goes is in the left operand, and the one that is changed in the right
one. -/
theorem exists_kinds_merge_left_right (known : Knowledge) (hop : kind.flips? op = some flip)
    (hp : ChainPath kind l p) (hq : ChainPath kind r q) (ht : l.at? p = some t)
    (ha : r.at? q = some a) (hsp : (binary op l r).splice? kind (.left :: p) = some sp) :
    ∃ g, kind.Context g ∧
      (binary op l r).kinds known = g (kind.combine (kind.turn (l.isFlipped kind p) (t.kinds known))
        (kind.turn (r.isFlipped kind q != flip) (a.kinds known))) ∧
      ∀ f, ((binary op l (r.put q f)).splice sp).kinds known
        ⊆ g (kind.blur (kind.turn (r.isFlipped kind q != flip) (f.kinds known))) := by
  obtain ⟨g, hg, heq, hsub⟩ := exists_kinds_splice_left known hop hp ht hsp fun _ =>
    exists_kinds_splice known hp ht
  obtain ⟨h, hh, heq', hput⟩ := exists_context_at? known hq ha
  simp only [ChainKind.turn_bne]
  refine ⟨_, hg.comp (hh.turned flip), ?_, fun f => ?_⟩
  · rw [kinds_flips hop, heq, heq', ← hg.combine, Function.comp_apply,
      (hh.turned flip).combine_right, ChainKind.turn_turn]
  · refine (hsub (r.put q f)).trans ?_
    rw [hput, Function.comp_apply, (hh.turned flip).blur, ChainKind.turn_turn]

/-- The term that goes is in the right operand, and the one that is changed in the left
one. -/
theorem exists_kinds_merge_right_left (known : Knowledge) (hop : kind.flips? op = some flip)
    (hp : ChainPath kind r p) (hq : ChainPath kind l q) (ht : r.at? p = some t)
    (ha : l.at? q = some a) (hsp : (binary op l r).splice? kind (.right :: p) = some sp) :
    ∃ g, kind.Context g ∧
      (binary op l r).kinds known
        = g (kind.combine (kind.turn (r.isFlipped kind p != flip) (t.kinds known))
          (kind.turn (l.isFlipped kind q) (a.kinds known))) ∧
      ∀ f, ((binary op (l.put q f) r).splice sp).kinds known
        ⊆ g (kind.blur (kind.turn (l.isFlipped kind q) (f.kinds known))) := by
  obtain ⟨g, hg, heq, hsub⟩ := exists_kinds_splice_right known hop hp ht hsp fun _ =>
    exists_kinds_splice known hp ht
  obtain ⟨h, hh, heq', hput⟩ := exists_context_at? known hq ha
  simp only [ChainKind.turn_bne]
  refine ⟨_, (hg.turned flip).comp hh, ?_, fun f => ?_⟩
  · rw [kinds_flips hop, heq, heq', Function.comp_apply, hh.combine_right,
      (hg.turned flip).combine, ChainKind.turn_turn, ChainKind.combine_comm]
  · refine (hsub (l.put q f)).trans ?_
    rw [hput, Function.comp_apply, hh.blur]

/-- One term is taken out and another one changed. -/
theorem exists_kinds_merge (known : Knowledge) (hp : ChainPath kind e p) (hq : ChainPath kind e q)
    (hpq : Apart p q) (ht : e.at? p = some t) (ha : e.at? q = some a)
    (hsp : e.splice? kind p = some sp) :
    ∃ g, kind.Context g ∧
      e.kinds known = g (kind.combine (kind.turn (e.isFlipped kind p) (t.kinds known))
        (kind.turn (e.isFlipped kind q) (a.kinds known))) ∧
      ∀ f, ((e.put q f).splice sp).kinds known
        ⊆ g (kind.blur (kind.turn (e.isFlipped kind q) (f.kinds known))) := by
  -- down the chain as long as both terms are in one operand
  induction hp generalizing q sp with
  | here => exact absurd rfl hpq.ne_nil
  | @operand x p hp ih =>
      cases hq with
      | here => exact absurd rfl hpq.symm.ne_nil
      | @operand _ q hq =>
          obtain ⟨sp', hsp', hpq', hbelow⟩ := exists_below rfl hpq ht ha hsp
          obtain ⟨g, hg, heq, hput⟩ := ih hq hpq' ht ha hsp'
          obtain ⟨G, hG, hneg⟩ := hg.exists_neg
          simp only [isFlipped, ChainKind.turn_bne]
          refine ⟨G, hG, ?_, fun f => ?_⟩
          · rw [kinds_neg, heq, hneg, ChainKind.turn_combine]
          · rw [put, hbelow _ f rfl, put, put_nil, kinds_neg, ← ChainKind.turn_blur, ← hneg]
            exact Kinds.neg_mono (hput f)
  | @left op l r p hop hp ih =>
      obtain ⟨flip, hop⟩ := Option.isSome_iff_exists.mp hop
      cases hq with
      | here => exact absurd rfl hpq.symm.ne_nil
      | @left _ _ _ q _ hq =>
          obtain ⟨sp', hsp', hpq', hbelow⟩ := exists_below rfl hpq ht ha hsp
          obtain ⟨g, hg, heq, hput⟩ := ih hq hpq' ht ha hsp'
          simp only [isFlipped]
          refine ⟨_, (Context.term (kind.turn flip (r.kinds known))).comp hg, ?_, fun f => ?_⟩
          · rw [kinds_flips hop, heq, ChainKind.combine_comm]
            rfl
          · rw [put, hbelow _ f rfl, put, put_nil, kinds_flips hop, ChainKind.combine_comm]
            exact kind.combine_mono subset_rfl (hput f)
      | @right _ _ _ q _ hq =>
          simp only [isFlipped_right hop, isFlipped_left]
          exact exists_kinds_merge_left_right known hop hp hq ht ha hsp
  | @right op l r p hop hp ih =>
      obtain ⟨flip, hop⟩ := Option.isSome_iff_exists.mp hop
      cases hq with
      | here => exact absurd rfl hpq.symm.ne_nil
      | @right _ _ _ q _ hq =>
          obtain ⟨sp', hsp', hpq', hbelow⟩ := exists_below rfl hpq ht ha hsp
          obtain ⟨g, hg, heq, hput⟩ := ih hq hpq' ht ha hsp'
          simp only [isFlipped_right hop, ChainKind.turn_bne]
          refine ⟨_, (Context.term (l.kinds known)).comp (hg.turned flip), ?_, fun f => ?_⟩
          · rw [kinds_flips hop, heq, Function.comp_apply, ← ChainKind.turn_combine,
              ChainKind.turn_turn]
          · rw [put, hbelow _ f rfl, put, put_nil, kinds_flips hop, Function.comp_apply,
              ChainKind.turn_blur, ChainKind.turn_turn]
            exact kind.combine_mono subset_rfl (kind.turn_mono flip (hput f))
      | @left _ _ _ q _ hq =>
          simp only [isFlipped_right hop, isFlipped_left]
          exact exists_kinds_merge_right_left known hop hp hq ht ha hsp

end Expr

end Formula
