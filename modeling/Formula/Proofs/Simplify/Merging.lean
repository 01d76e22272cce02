/-
Formula/Proofs/Simplify/Merging.lean

The value of a chain in exact arithmetic.  A term contributes its value to a sum,
or the opposite if it is flipped; to a product it contributes its value or the
reciprocal (`ChainKind.contribution`).  The value of the chain joins what the
terms contribute.  So it depends on a term only by what this contributes, when
another expression is put in its place (`exists_put`) and when it is taken out
(`exists_splice`).

Two terms are merged when one is taken out and the other changed
(`exists_merge`).  The value stays if the other one then contributes what both
did before.
-/
import Formula.Proofs.Simplify.Exact
import Formula.Proofs.Simplify.Putting

namespace Formula

universe u

open Path (Apart)

namespace Expr

variable {α : Type u}

/-- Whether the part at a path enters the chain flipped. -/
def isFlipped (kind : ChainKind) : Expr α → Path → Bool
  | unary _ x, .operand :: p => x.isFlipped kind p != (kind == .additive)
  | binary _ l _, .left :: p => l.isFlipped kind p
  | binary op _ r, .right :: p => r.isFlipped kind p != (kind.flips? op == some true)
  | _, _ => false

theorem flipped_of_mem_termsFrom {kind : ChainKind} {e : Expr α} {flipped pinned : Bool}
    {t : ChainTerm α} (h : t ∈ e.termsFrom kind flipped pinned) :
    t.flipped = (e.isFlipped kind t.path != flipped) := by
  replace h := meets_of_mem_termsFrom h
  induction h with
  | @here e => cases e <;> simp [isFlipped]
  | @operand x flipped _ t _ ih =>
      rw [ChainTerm.below, ih, isFlipped]
      cases x.isFlipped kind t.path <;> cases flipped <;> cases kind <;> rfl
  | left _ _ ih => exact ih
  | @right op _ r flip flipped _ t hop _ ih =>
      rw [ChainTerm.below, ih, isFlipped, hop]
      cases r.isFlipped kind t.path <;> cases flipped <;> cases flip <;> rfl

theorem flipped_of_mem_terms {kind : ChainKind} {e : Expr α} {t : ChainTerm α}
    (h : t ∈ e.terms kind) : t.flipped = e.isFlipped kind t.path := by
  rw [flipped_of_mem_termsFrom h]
  cases e.isFlipped kind t.path <;> rfl

end Expr

variable {K : Type u} [Field K]

/-! ### Contributions -/

namespace ChainKind

/-- What a term contributes to a chain. -/
def contribution : ChainKind → Bool → K → K
  | additive, flipped, a => if flipped then -a else a
  | multiplicative, flipped, a => if flipped then a⁻¹ else a

/-- How contributions are put together. -/
def join : ChainKind → K → K → K
  | additive, a, b => a + b
  | multiplicative, a, b => a * b

/-- Contributes nothing. -/
def unit : ChainKind → K
  | additive => 0
  | multiplicative => 1

/-- What a negation contributes of itself. -/
def sign : ChainKind → K
  | additive => 0
  | multiplicative => -1

/-- A part of the chain with the value `a` may have the value `b` as well:
nothing is divided by it if it has become zero. -/
def Allows (kind : ChainKind) (a b : K) : Prop := kind = multiplicative → a ≠ 0 → b ≠ 0

variable {kind : ChainKind} {a b c : K} {flip flip' : Bool}

instance : Std.Associative (join (K := K) kind) where
  assoc a b c := by cases kind <;> simp [join, add_assoc, mul_assoc]

instance : Std.Commutative (join (K := K) kind) where
  comm a b := by cases kind <;> simp [join, add_comm, mul_comm]

@[simp] theorem contribution_false : kind.contribution false a = a := by
  cases kind <;> rfl

/-- A term contributes what its parts contribute. -/
theorem contribution_join :
    kind.contribution flip (kind.join a b)
      = kind.join (kind.contribution flip a) (kind.contribution flip b) := by
  cases kind <;> cases flip <;> simp [contribution, join, mul_comm, add_comm]

/-- What is flipped twice is not flipped. -/
theorem contribution_bne :
    kind.contribution (flip != flip') a = kind.contribution flip' (kind.contribution flip a) := by
  cases kind <;> cases flip <;> cases flip' <;> simp [contribution]

@[simp] theorem join_unit : kind.join a kind.unit = a := by
  cases kind <;> simp [join, unit]

@[simp] theorem unit_join : kind.join kind.unit a = a := by
  cases kind <;> simp [join, unit]

/-- A negation flips a term of a sum, and is a factor of a product. -/
theorem neg_eq (kind : ChainKind) (a : K) :
    -a = kind.join kind.sign (kind.contribution (kind == additive) a) := by
  cases kind
  · exact (zero_add _).symm
  · exact neg_eq_neg_one_mul a

@[simp] theorem contribution_unit : kind.contribution flip (kind.unit : K) = kind.unit := by
  cases kind <;> cases flip <;> simp [contribution, unit]

theorem Allows.contribution (h : kind.Allows a b) :
    kind.Allows (kind.contribution flip a) (kind.contribution flip b) := by
  rintro rfl
  cases flip <;> simpa [ChainKind.contribution] using h rfl

theorem Allows.join (h : kind.Allows a b) : kind.Allows (kind.join c a) (kind.join c b) := by
  rintro rfl hne
  have hca := mul_ne_zero_iff.mp hne
  exact mul_ne_zero hca.1 (h rfl hca.2)

end ChainKind

open ChainKind (contribution join)

namespace Expr

variable [Arithmetic K] {D : Domain K} {env : Environment K} {e f a t l r x : Expr K} {p q : Path}
  {b c u v w w' : K} {sp : Splice K} {op : BinaryOp} {kind : ChainKind} {flip : Bool}

/-- The value of an operator of a chain. -/
theorem evaluates_flips (hD : FieldDomain D) (hop : kind.flips? op = some flip) :
    Evaluates D env (binary op l r) v ↔ ∃ b c, Evaluates D env l b ∧ Evaluates D env r c ∧
      (kind = .multiplicative → flip = true → c ≠ 0) ∧ v = kind.join b (kind.contribution flip c) := by
  cases kind <;> cases op <;> simp only [ChainKind.flips?, Option.some.injEq, reduceCtorEq] at hop <;>
    subst hop
  case additive.add => simp [hD.evaluates_add, join, contribution]
  case additive.sub => simp [hD.evaluates_sub, join, contribution, sub_eq_add_neg]
  case multiplicative.mul => simp [hD.evaluates_mul, join, contribution]
  case multiplicative.div => simp [hD.evaluates_div, join, contribution, div_eq_mul_inv]

omit [Field K] [Arithmetic K] in
theorem isFlipped_left : (binary op l r).isFlipped kind (.left :: p) = l.isFlipped kind p := rfl

omit [Field K] [Arithmetic K] in
/-- A right operand is flipped as the operator says. -/
theorem isFlipped_right (hop : kind.flips? op = some flip) :
    (binary op l r).isFlipped kind (.right :: p) = (r.isFlipped kind p != flip) := by
  cases flip <;> simp [isFlipped, hop]

/-! ### Putting -/

/-- The value of a chain depends on a term by what the term contributes. -/
theorem exists_put (hD : FieldDomain D) (hp : ChainPath kind e p) (h : Evaluates D env e v)
    (ha : e.at? p = some a) (hu : Evaluates D env a u) :
    ∃ k, ∀ f w, Evaluates D env f w → kind.Allows u w →
      Evaluates D env (e.put p f) (kind.join k (kind.contribution (e.isFlipped kind p) w)) := by
  induction hp generalizing v with
  | here =>
      refine ⟨kind.unit, fun f w hf _ => ?_⟩
      simpa [isFlipped] using hf
  | @operand x p hp ih =>
      obtain ⟨b, hx, rfl⟩ := hD.evaluates_neg.mp h
      obtain ⟨k, hput⟩ := ih hx ha
      refine ⟨kind.join kind.sign (kind.contribution (kind == .additive) k), fun f w hf hw => ?_⟩
      refine hD.evaluates_neg.mpr ⟨_, hput f w hf hw, ?_⟩
      rw [ChainKind.neg_eq kind, isFlipped, ChainKind.contribution_bne, ChainKind.contribution_join]
      ac_rfl
  | @left op l r p hop hp ih =>
      obtain ⟨flip, hop⟩ := Option.isSome_iff_exists.mp hop
      obtain ⟨b, c, hl, hr, hc, rfl⟩ := (evaluates_flips hD hop).mp h
      obtain ⟨k, hput⟩ := ih hl ha
      refine ⟨kind.join k (kind.contribution flip c), fun f w hf hw => ?_⟩
      refine (evaluates_flips hD hop).mpr ⟨_, c, hput f w hf hw, hr, hc, ?_⟩
      rw [isFlipped]
      ac_rfl
  | @right op l r p hop hp ih =>
      obtain ⟨flip, hop⟩ := Option.isSome_iff_exists.mp hop
      obtain ⟨b, c, hl, hr, hc, rfl⟩ := (evaluates_flips hD hop).mp h
      obtain ⟨k, hput⟩ := ih hr ha
      -- the divisor itself is what its rest joins with what the term contributes
      have hself : c = kind.join k (kind.contribution (r.isFlipped kind p) u) := by
        have hput' := hput a u hu fun _ h => h
        rw [put_at? (e := r) ha] at hput'
        exact hr.unique hput'
      refine ⟨kind.join b (kind.contribution flip k), fun f w hf hw => ?_⟩
      refine (evaluates_flips hD hop).mpr ⟨b, _, hl, hput f w hf hw, ?_, ?_⟩
      · intro hkind hflip
        exact hw.contribution.join hkind (hself ▸ hc hkind hflip)
      · rw [isFlipped_right hop, ChainKind.contribution_join, ChainKind.contribution_bne]
        ac_rfl

/-- What the term contributes itself is part of the value. -/
theorem exists_value (hD : FieldDomain D) (hp : ChainPath kind e p) (h : Evaluates D env e v)
    (ha : e.at? p = some a) (hu : Evaluates D env a u) :
    ∃ k, v = kind.join k (kind.contribution (e.isFlipped kind p) u) ∧
      ∀ f w, Evaluates D env f w → kind.Allows u w →
        Evaluates D env (e.put p f) (kind.join k (kind.contribution (e.isFlipped kind p) w)) := by
  obtain ⟨k, hput⟩ := exists_put hD hp h ha hu
  have hself := hput a u hu fun _ h => h
  rw [put_at? ha] at hself
  exact ⟨k, h.unique hself, hput⟩

/-! ### Taking out -/

/-- If nothing of the chain would be left, the term is all of it. -/
theorem eq_contribution (hD : Exact D) (h : Evaluates D env e v) (ha : e.at? p = some a)
    (hu : Evaluates D env a u) (hp : ChainPath kind e p) (hsp : e.splice? kind p = none) :
    v = kind.contribution (e.isFlipped kind p) u := by
  induction hp generalizing v with
  | here =>
      obtain rfl := Option.some.inj ha
      simpa [isFlipped] using h.unique hu
  | @operand x p hp ih =>
      obtain ⟨hbelow, hhere⟩ := splice?_eq_none_below hsp rfl
      obtain ⟨b, hx, rfl⟩ := hD.evaluates_neg.mp h
      rw [ih hx ha hbelow, isFlipped, ChainKind.contribution_bne]
      cases kind
      · rfl
      · cases hhere
  | left | right =>
      have hhere := (splice?_eq_none_below hsp rfl).2
      exact absurd (eq_operand_of_spliceHere? hhere rfl) (by decide)

/-- What is left of an operator of a chain without its left operand. -/
theorem evaluates_splice_left (hD : Exact D) (hop : kind.flips? op = some flip)
    (hsp : (binary op l r).spliceHere? kind .left = some sp) (hr : Evaluates D env x c)
    (hc : kind = .multiplicative → flip = true → c ≠ 0) :
    Evaluates D env ((binary op l x).splice sp) (kind.contribution flip c) := by
  cases kind <;> cases op <;> simp only [ChainKind.flips?, Option.some.injEq, reduceCtorEq] at hop <;>
    subst hop <;> cases hsp
  case additive.add => exact hr
  case additive.sub => exact hD.evaluates_neg.mpr ⟨c, hr, rfl⟩
  case multiplicative.mul => exact hr
  case multiplicative.div =>
    refine hD.evaluates_div.mpr ⟨1, c, ?_, hr, hc rfl rfl, by simp [contribution]⟩
    rw [put_nil]
    exact hD.evaluates_one

/-- The term that goes is in the left operand. -/
theorem exists_splice_left (hD : Exact D) (hop : kind.flips? op = some flip)
    (hp : ChainPath kind l p) (hl : Evaluates D env l b) (ht : l.at? p = some t)
    (hu : Evaluates D env t u) (hsp : (binary op l r).splice? kind (.left :: p) = some sp)
    (ih : ∀ sp', l.splice? kind p = some sp' →
      ∃ k, b = kind.join k (kind.contribution (l.isFlipped kind p) u) ∧
        Evaluates D env (l.splice sp') k) :
    ∃ k, b = kind.join k (kind.contribution (l.isFlipped kind p) u) ∧
      ∀ r' c, Evaluates D env r' c → (kind = .multiplicative → flip = true → c ≠ 0) →
        Evaluates D env ((binary op l r').splice sp) (kind.join k (kind.contribution flip c)) := by
  rcases splice?_below_or_here hsp rfl with ⟨sp', hsp', rfl⟩ | ⟨hnone, hhere⟩
  · obtain ⟨k, rfl, hk⟩ := ih sp' hsp'
    refine ⟨k, rfl, fun r' c hr hc => ?_⟩
    rw [splice_below rfl (isSome_place hsp' (Option.isSome_of_eq_some ht)), put, put_nil]
    exact (evaluates_flips hD.fieldDomain hop).mpr ⟨k, c, hk, hr, hc, rfl⟩
  · refine ⟨kind.unit, ?_, fun r' c hr hc => ?_⟩
    · rw [eq_contribution hD hl ht hu hp hnone, ChainKind.unit_join]
    · rw [ChainKind.unit_join]
      exact evaluates_splice_left hD hop hhere hr hc

/-- The term that goes is in the right operand. -/
theorem exists_splice_right (hD : Exact D) (hop : kind.flips? op = some flip)
    (hp : ChainPath kind r p) (hr : Evaluates D env r c)
    (hc : kind = .multiplicative → flip = true → c ≠ 0) (ht : r.at? p = some t)
    (hu : Evaluates D env t u) (hsp : (binary op l r).splice? kind (.right :: p) = some sp)
    (ih : ∀ sp', r.splice? kind p = some sp' →
      ∃ k, c = kind.join k (kind.contribution (r.isFlipped kind p) u) ∧
        Evaluates D env (r.splice sp') k) :
    ∃ k, c = kind.join k (kind.contribution (r.isFlipped kind p) u) ∧
      ∀ l' b, Evaluates D env l' b →
        Evaluates D env ((binary op l' r).splice sp) (kind.join b (kind.contribution flip k)) := by
  rcases splice?_below_or_here hsp rfl with ⟨sp', hsp', rfl⟩ | ⟨hnone, hhere⟩
  · obtain ⟨k, rfl, hk⟩ := ih sp' hsp'
    refine ⟨k, rfl, fun l' b hl => ?_⟩
    rw [splice_below rfl (isSome_place hsp' (Option.isSome_of_eq_some ht)), put, put_nil]
    refine (evaluates_flips hD.fieldDomain hop).mpr ⟨b, k, hl, hk, ?_, rfl⟩
    rintro rfl hflip
    exact (mul_ne_zero_iff.mp (hc rfl hflip)).1
  · cases hhere
    refine ⟨kind.unit, ?_, fun l' b hl => ?_⟩
    · rw [eq_contribution hD hr ht hu hp hnone, ChainKind.unit_join]
    · rw [ChainKind.contribution_unit, ChainKind.join_unit]
      exact hl

/-- A term is taken out of a chain together with what it contributes. -/
theorem exists_splice (hD : Exact D) (hp : ChainPath kind e p) (h : Evaluates D env e v)
    (ht : e.at? p = some t) (hu : Evaluates D env t u) (hsp : e.splice? kind p = some sp) :
    ∃ k, v = kind.join k (kind.contribution (e.isFlipped kind p) u) ∧
      Evaluates D env (e.splice sp) k := by
  induction hp generalizing v sp with
  | here => cases hsp
  | @operand x p hp ih =>
      obtain ⟨b, hx, rfl⟩ := hD.evaluates_neg.mp h
      rw [ChainKind.neg_eq kind, isFlipped, ChainKind.contribution_bne]
      rcases splice?_below_or_here hsp rfl with ⟨sp', hsp', rfl⟩ | ⟨hnone, hhere⟩
      · obtain ⟨k, rfl, hk⟩ := ih hx ht hsp'
        refine ⟨-k, ?_, ?_⟩
        · rw [ChainKind.neg_eq kind, ChainKind.contribution_join]
          ac_rfl
        · rw [splice_below rfl (isSome_place hsp' (Option.isSome_of_eq_some ht)), put, put_nil]
          exact hD.evaluates_neg.mpr ⟨k, hk, rfl⟩
      · cases kind
        · cases hhere
        · cases hhere
          rw [eq_contribution hD hx ht hu hp hnone]
          exact ⟨-1, rfl, hD.negOne ▸ .const _⟩
  | @left op l r p hop hp ih =>
      obtain ⟨flip, hop⟩ := Option.isSome_iff_exists.mp hop
      obtain ⟨b, c, hl, hr, hc, rfl⟩ := (evaluates_flips hD.fieldDomain hop).mp h
      obtain ⟨k, rfl, hk⟩ := exists_splice_left hD hop hp hl ht hu hsp fun _ => ih hl ht
      exact ⟨_, by rw [isFlipped]; ac_rfl, hk r c hr hc⟩
  | @right op l r p hop hp ih =>
      obtain ⟨flip, hop⟩ := Option.isSome_iff_exists.mp hop
      obtain ⟨b, c, hl, hr, hc, rfl⟩ := (evaluates_flips hD.fieldDomain hop).mp h
      obtain ⟨k, rfl, hk⟩ := exists_splice_right hD hop hp hr hc ht hu hsp fun _ => ih hr ht
      refine ⟨_, ?_, hk l b hl⟩
      rw [isFlipped_right hop, ChainKind.contribution_join, ChainKind.contribution_bne]
      ac_rfl

/-! ### Merging -/

omit [Field K] in
/-- Both terms are in one operand, so the operand answers. -/
theorem exists_below {s : Slot} (hx : e.operand? s = some x) (hpq : Apart (s :: p) (s :: q))
    (ht : x.at? p = some t) (ha : x.at? q = some a) (hsp : e.splice? kind (s :: p) = some sp) :
    ∃ sp', x.splice? kind p = some sp' ∧ Apart p q ∧
      ∀ (e' f : Expr K), e'.operand? s = some (x.put q f) →
        e'.splice sp = e'.put [s] ((x.put q f).splice sp') := by
  have hpq' := Path.Apart.cons_iff.mp hpq
  have hsome : (x.splice? kind p).isSome :=
    isSome_splice? (Option.isSome_of_eq_some ht) (Option.isSome_of_eq_some ha) hpq'
  obtain ⟨sp', hsp'⟩ := Option.isSome_iff_exists.mp hsome
  obtain rfl : sp'.below [s] = sp := by simpa [splice?, hx, hsp'] using hsp
  refine ⟨sp', hsp', hpq', fun e' f he' => splice_below he' ?_⟩
  exact isSome_place ((splice?_put hpq'.symm).trans hsp')
    (by rw [at?_put_of_apart hpq'.symm, ht]; rfl)

/-- The term that goes is in the left operand, and the one that is changed in the right
one. -/
theorem exists_merge_left_right (hD : Exact D) (hop : kind.flips? op = some flip)
    (hp : ChainPath kind l p) (hq : ChainPath kind r q) (h : Evaluates D env (binary op l r) v)
    (ht : l.at? p = some t) (hu : Evaluates D env t u) (ha : r.at? q = some a)
    (hw : Evaluates D env a w) (hsp : (binary op l r).splice? kind (.left :: p) = some sp) :
    ∃ k, v = kind.join k (kind.join (kind.contribution (l.isFlipped kind p) u)
        (kind.contribution (r.isFlipped kind q != flip) w)) ∧
      ∀ f w', Evaluates D env f w' → kind.Allows w w' →
        Evaluates D env ((binary op l (r.put q f)).splice sp)
          (kind.join k (kind.contribution (r.isFlipped kind q != flip) w')) := by
  obtain ⟨b, c, hl, hr, hc, rfl⟩ := (evaluates_flips hD.fieldDomain hop).mp h
  obtain ⟨k, rfl, hk⟩ := exists_splice_left hD hop hp hl ht hu hsp fun _ => exists_splice hD hp hl ht hu
  obtain ⟨k', rfl, hput⟩ := exists_value hD.fieldDomain hq hr ha hw
  simp only [ChainKind.contribution_bne]
  refine ⟨kind.join k (kind.contribution flip k'), ?_, fun f w' hf hw' => ?_⟩
  · rw [ChainKind.contribution_join]
    ac_rfl
  · have hrest := hk _ _ (hput f w' hf hw') fun hkind hflip =>
      hw'.contribution.join hkind (hc hkind hflip)
    refine hrest.of_eq ?_
    rw [ChainKind.contribution_join]
    ac_rfl

/-- The term that goes is in the right operand, and the one that is changed in the left
one. -/
theorem exists_merge_right_left (hD : Exact D) (hop : kind.flips? op = some flip)
    (hp : ChainPath kind r p) (hq : ChainPath kind l q) (h : Evaluates D env (binary op l r) v)
    (ht : r.at? p = some t) (hu : Evaluates D env t u) (ha : l.at? q = some a)
    (hw : Evaluates D env a w) (hsp : (binary op l r).splice? kind (.right :: p) = some sp) :
    ∃ k, v = kind.join k (kind.join (kind.contribution (r.isFlipped kind p != flip) u)
        (kind.contribution (l.isFlipped kind q) w)) ∧
      ∀ f w', Evaluates D env f w' → kind.Allows w w' →
        Evaluates D env ((binary op (l.put q f) r).splice sp)
          (kind.join k (kind.contribution (l.isFlipped kind q) w')) := by
  obtain ⟨b, c, hl, hr, hc, rfl⟩ := (evaluates_flips hD.fieldDomain hop).mp h
  obtain ⟨k, rfl, hk⟩ := exists_splice_right hD hop hp hr hc ht hu hsp fun _ => exists_splice hD hp hr ht hu
  obtain ⟨k', rfl, hput⟩ := exists_value hD.fieldDomain hq hl ha hw
  simp only [ChainKind.contribution_bne]
  refine ⟨kind.join k' (kind.contribution flip k), ?_, fun f w' hf hw' => ?_⟩
  · rw [ChainKind.contribution_join]
    ac_rfl
  · refine (hk _ _ (hput f w' hf hw')).of_eq ?_
    ac_rfl

/-- One term is taken out and another one changed. -/
theorem exists_merge (hD : Exact D) (hp : ChainPath kind e p) (hq : ChainPath kind e q)
    (hpq : Apart p q) (h : Evaluates D env e v) (ht : e.at? p = some t) (hu : Evaluates D env t u)
    (ha : e.at? q = some a) (hw : Evaluates D env a w) (hsp : e.splice? kind p = some sp) :
    ∃ k, v = kind.join k (kind.join (kind.contribution (e.isFlipped kind p) u)
        (kind.contribution (e.isFlipped kind q) w)) ∧
      ∀ f w', Evaluates D env f w' → kind.Allows w w' →
        Evaluates D env ((e.put q f).splice sp)
          (kind.join k (kind.contribution (e.isFlipped kind q) w')) := by
  -- down the chain as long as both terms are in one operand
  induction hp generalizing q v sp with
  | here => exact absurd rfl hpq.ne_nil
  | @operand x p hp ih =>
      cases hq with
      | here => exact absurd rfl hpq.symm.ne_nil
      | @operand _ q hq =>
          obtain ⟨b, hx, rfl⟩ := hD.evaluates_neg.mp h
          obtain ⟨sp', hsp', hpq', hbelow⟩ := exists_below rfl hpq ht ha hsp
          obtain ⟨k, rfl, hput⟩ := ih hq hpq' hx ht ha hsp'
          simp only [isFlipped, ChainKind.contribution_bne]
          refine ⟨kind.join kind.sign (kind.contribution (kind == .additive) k), ?_,
            fun f w' hf hw' => ?_⟩
          · rw [ChainKind.neg_eq kind, ChainKind.contribution_join, ChainKind.contribution_join]
            ac_rfl
          · rw [put, hbelow _ f rfl, put, put_nil]
            refine hD.evaluates_neg.mpr ⟨_, hput f w' hf hw', ?_⟩
            rw [ChainKind.neg_eq kind, ChainKind.contribution_join]
            ac_rfl
  | @left op l r p hop hp ih =>
      obtain ⟨flip, hop⟩ := Option.isSome_iff_exists.mp hop
      cases hq with
      | here => exact absurd rfl hpq.symm.ne_nil
      | @left _ _ _ q _ hq =>
          obtain ⟨b, c, hl, hr, hc, rfl⟩ := (evaluates_flips hD.fieldDomain hop).mp h
          obtain ⟨sp', hsp', hpq', hbelow⟩ := exists_below rfl hpq ht ha hsp
          obtain ⟨k, rfl, hput⟩ := ih hq hpq' hl ht ha hsp'
          simp only [isFlipped]
          refine ⟨kind.join k (kind.contribution flip c), by ac_rfl, fun f w' hf hw' => ?_⟩
          rw [put, hbelow _ f rfl, put, put_nil]
          exact (evaluates_flips hD.fieldDomain hop).mpr ⟨_, c, hput f w' hf hw', hr, hc, by ac_rfl⟩
      | @right _ _ _ q _ hq =>
          simp only [isFlipped_right hop, isFlipped_left]
          exact exists_merge_left_right hD hop hp hq h ht hu ha hw hsp
  | @right op l r p hop hp ih =>
      obtain ⟨flip, hop⟩ := Option.isSome_iff_exists.mp hop
      cases hq with
      | here => exact absurd rfl hpq.symm.ne_nil
      | @right _ _ _ q _ hq =>
          obtain ⟨b, c, hl, hr, hc, rfl⟩ := (evaluates_flips hD.fieldDomain hop).mp h
          obtain ⟨sp', hsp', hpq', hbelow⟩ := exists_below rfl hpq ht ha hsp
          obtain ⟨k, rfl, hput⟩ := ih hq hpq' hr ht ha hsp'
          simp only [isFlipped_right hop, ChainKind.contribution_bne]
          refine ⟨kind.join b (kind.contribution flip k), ?_, fun f w' hf hw' => ?_⟩
          · rw [ChainKind.contribution_join, ChainKind.contribution_join]
            ac_rfl
          · rw [put, hbelow _ f rfl, put, put_nil]
            refine (evaluates_flips hD.fieldDomain hop).mpr ⟨b, _, hl, hput f w' hf hw', ?_, ?_⟩
            · rintro rfl hflip
              obtain ⟨hk, hrest⟩ := mul_ne_zero_iff.mp (hc rfl hflip)
              exact mul_ne_zero hk (hw'.contribution rfl (mul_ne_zero_iff.mp hrest).2)
            · rw [ChainKind.contribution_join]
              ac_rfl
      | @left _ _ _ q _ hq =>
          simp only [isFlipped_right hop, isFlipped_left]
          exact exists_merge_right_left hD hop hp hq h ht hu ha hw hsp

/-! ### Factors that are not zero -/

/-- A product that is not zero has no factor that is zero. -/
theorem ne_zero_of_ne_zero (hD : FieldDomain D) (hp : ChainPath .multiplicative e p)
    (h : Evaluates D env e v) (ha : e.at? p = some a) (hu : Evaluates D env a u) (hv : v ≠ 0) :
    u ≠ 0 := by
  obtain ⟨k, rfl, -⟩ := exists_value hD hp h ha hu
  rintro rfl
  refine hv ?_
  cases e.isFlipped .multiplicative p <;> simp [join, contribution]

/-- What is divided by is not zero. -/
theorem ne_zero_of_isFlipped (hD : FieldDomain D) (hp : ChainPath .multiplicative e p)
    (h : Evaluates D env e v) (ha : e.at? p = some a) (hu : Evaluates D env a u)
    (hflip : e.isFlipped .multiplicative p = true) : u ≠ 0 := by
  induction hp generalizing v with
  | here => simp [isFlipped] at hflip
  | @operand x p hp ih =>
      obtain ⟨b, hx, -⟩ := hD.evaluates_neg.mp h
      change (x.isFlipped .multiplicative p != false) = true at hflip
      exact ih hx ha (by simpa using hflip)
  | @left op l r p hop hp ih =>
      obtain ⟨flip, hop⟩ := Option.isSome_iff_exists.mp hop
      obtain ⟨b, c, hl, -⟩ := (evaluates_flips hD hop).mp h
      exact ih hl ha hflip
  | @right op l r p hop hp ih =>
      obtain ⟨flip, hop⟩ := Option.isSome_iff_exists.mp hop
      obtain ⟨b, c, -, hr, hc, -⟩ := (evaluates_flips hD hop).mp h
      rw [isFlipped_right hop] at hflip
      cases flip with
      | true => exact ne_zero_of_ne_zero hD hp hr ha hu (hc rfl rfl)
      | false => exact ih hr ha (by simpa using hflip)

end Expr

end Formula
