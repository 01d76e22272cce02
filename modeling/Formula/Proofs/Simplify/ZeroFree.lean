/-
Formula/Proofs/Simplify/ZeroFree.lean

Products without the factor zero.  When a constant of a product is multiplied into
another one that is divided by, it must not be zero.  The optimizer does not check
that, and does not need to: a product with the factor zero has been simplified to
zero before its constants are merged, if operands are taken to be finite.

`ZeroFree ctx e` says that no constant factor of `e` that can be taken out is zero.
A whole numerator may be zero as long as there is a variable without a value below
it (`HasFree`).  What has been optimized is `Tidy`: a constant, or else an
expression without a value that is free of zeros.
-/
import Formula.Proofs.Simplify.Meaning

namespace Formula

universe u

open Path (Apart)

namespace Expr

section Free

variable {α : Type u} [Arithmetic α] {ctx : Environment α} {e f a l r x : Expr α} {p q : Path}
  {op : BinaryOp} {c w : α}

/-- There is a variable without a value in the expression. -/
def HasFree (ctx : Environment α) (e : Expr α) : Prop :=
  ∃ p y, e.at? p = some (var y) ∧ ctx y = none

omit [Arithmetic α] in
theorem HasFree.of_part (h : a.HasFree ctx) (ha : e.at? p = some a) : e.HasFree ctx := by
  obtain ⟨q, y, hq, hy⟩ := h
  exact ⟨p ++ q, y, by rw [at?_append, ha, Option.bind_some, hq], hy⟩

/-- An expression has a value, or else a variable in it has none. -/
theorem hasFree_of_valueless (hfilled : e.isFilled) (h : ∀ v, e.eval ctx ≠ .ok v) :
    e.HasFree ctx := by
  induction e with
  | hole => cases hfilled
  | const v => exact absurd rfl (h v)
  | var x =>
      refine ⟨[], x, rfl, ?_⟩
      cases hx : ctx x with
      | none => rfl
      | some v => exact absurd (by simp [eval, hx]) (h v)
  | unary op x ih =>
      refine (ih hfilled fun v hv => ?_).of_part (p := [.operand]) rfl
      exact h (Arithmetic.unary op v) (by rw [eval, hv]; rfl)
  | binary op l r ihl ihr =>
      obtain ⟨hl, hr⟩ := Bool.and_eq_true_iff.mp hfilled
      by_cases hlv : ∃ a, l.eval ctx = .ok a
      · obtain ⟨a, ha⟩ := hlv
        refine (ihr hr fun b hb => ?_).of_part (p := [.right]) rfl
        exact h (Arithmetic.binary op a b) (by rw [eval, ha, hb]; rfl)
      · exact (ihl hl fun a ha => hlv ⟨a, ha⟩).of_part (p := [.left]) rfl

/-- Where there is a value, every operand has one. -/
theorem exists_eval_operand {s : Slot} {v : α} (h : e.eval ctx = .ok v) (hx : e.operand? s = some x) :
    ∃ a, x.eval ctx = .ok a := by
  cases e with
  | hole | const | var => cases s <;> cases hx
  | unary op y =>
      cases s <;> cases hx
      rw [eval] at h
      cases hy : x.eval ctx with
      | error err => rw [hy] at h; cases h
      | ok a => exact ⟨a, rfl⟩
  | binary op l r =>
      rw [eval] at h
      cases hl : l.eval ctx with
      | error err => rw [hl] at h; cases h
      | ok a =>
          cases hr : r.eval ctx with
          | error err => rw [hl, hr] at h; cases h
          | ok b => cases s <;> cases hx <;> exact ⟨_, by assumption⟩

/-- An expression with a variable that has no value has none. -/
theorem HasFree.valueless (h : e.HasFree ctx) (v : α) : e.eval ctx ≠ .ok v := by
  obtain ⟨p, y, hp, hy⟩ := h
  intro hv
  induction p generalizing e v with
  | nil =>
      obtain rfl := Option.some.inj hp
      simp [eval, hy] at hv
  | cons s p ih =>
      obtain ⟨x, hx, hp⟩ := Option.bind_eq_some_iff.mp hp
      obtain ⟨a, ha⟩ := exists_eval_operand hv hx
      exact ih a hp ha

omit [Arithmetic α] in
theorem not_hasFree_const : ¬(const c).HasFree ctx := by
  rintro ⟨_ | ⟨s, p⟩, y, hp, -⟩
  · cases hp
  · cases s <;> cases hp

omit [Arithmetic α] in
/-- A leaf is not on the way to another part. -/
theorem eq_of_prefix_of_leaf (ha : e.at? p = some a) (hleaf : ∀ s, a.operand? s = none)
    (hq : (e.at? q).isSome) (hpq : p <+: q) : p = q := by
  obtain ⟨_ | ⟨s, t⟩, rfl⟩ := hpq
  · rw [List.append_nil]
  · rw [at?_append, ha, Option.bind_some, at?_cons, hleaf] at hq
    cases hq

omit [Arithmetic α] in
/-- Different leaves are apart. -/
theorem apart_of_leaves {b : Expr α} (ha : e.at? p = some a) (hb : e.at? q = some b)
    (hleaf : ∀ s, a.operand? s = none) (hleaf' : ∀ s, b.operand? s = none) (hne : p ≠ q) :
    Apart p q :=
  ⟨fun h => hne (eq_of_prefix_of_leaf ha hleaf (Option.isSome_of_eq_some hb) h),
    fun h => hne (eq_of_prefix_of_leaf hb hleaf' (Option.isSome_of_eq_some ha) h).symm⟩

omit [Arithmetic α] in
/-- Putting keeps a variable without a value, if this is so in the part. -/
theorem HasFree.put (h : e.HasFree ctx) (ha : e.at? p = some a) (hf : a.HasFree ctx → f.HasFree ctx) :
    (e.put p f).HasFree ctx := by
  obtain ⟨q, y, hq, hy⟩ := h
  have hself := at?_put_self ha f
  by_cases hpq : p <+: q
  · obtain ⟨t, rfl⟩ := hpq
    rw [at?_append, ha, Option.bind_some] at hq
    exact (hf ⟨t, y, hq, hy⟩).of_part hself
  · have hqp : ¬q <+: p := fun h => hpq
      (eq_of_prefix_of_leaf hq (fun s => by cases s <;> rfl) (Option.isSome_of_eq_some ha) h ▸ List.prefix_rfl)
    exact ⟨q, y, by rw [at?_put_of_apart ⟨hpq, hqp⟩, hq], hy⟩

/-- Taking out a constant keeps a variable without a value. -/
theorem HasFree.splice {kind : ChainKind} {sp : Splice α} (h : e.HasFree ctx)
    (hc : e.at? p = some (.const c)) (hsp : e.splice? kind p = some sp) :
    (e.splice sp).HasFree ctx := by
  obtain ⟨q, y, hq, hy⟩ := h
  have hsome := Option.isSome_of_eq_some hc
  have hne : p ≠ q := by
    rintro rfl
    cases hc.symm.trans hq
  exact ⟨_, y, at?_splice (splices_of_splice? hsp hsome) hsome hq (apart_of_leaves hc hq
    (fun s => by cases s <;> rfl) (fun s => by cases s <;> rfl) hne),
    hy⟩

end Free

/-! ### No factor zero -/

variable {K : Type u} [Field K] [Arithmetic K] {D : Domain K} {env ctx : Environment K}
  {e f a l r x : Expr K} {op : BinaryOp} {p : Path} {c v w : K} {sp : Splice K}

/-- No constant factor that can be taken out is zero. -/
def ZeroFree (ctx : Environment K) : Expr K → Prop
  | const c => c ≠ 0
  | unary op x => op = .neg → x.ZeroFree ctx
  | binary op l r =>
    (op = .mul → l.ZeroFree ctx ∧ r.ZeroFree ctx) ∧
      (op = .div → l.ZeroFree ctx ∨ (∃ w, l = const w) ∧ r.HasFree ctx)
  | _ => True

omit [Field K] [Arithmetic K] in
theorem eq_mul_or_div (h : (ChainKind.multiplicative.flips? op).isSome) : op = .mul ∨ op = .div := by
  cases op <;> simp_all [ChainKind.flips?]

omit [Arithmetic K] in
theorem zeroFree_mul : (binary .mul l r).ZeroFree ctx ↔ l.ZeroFree ctx ∧ r.ZeroFree ctx := by
  simp [ZeroFree]

omit [Arithmetic K] in
theorem zeroFree_div : (binary .div l r).ZeroFree ctx ↔
    l.ZeroFree ctx ∨ (∃ w, l = const w) ∧ r.HasFree ctx := by
  simp [ZeroFree]

omit [Arithmetic K] in
theorem zeroFree_neg : (unary .neg x).ZeroFree ctx ↔ x.ZeroFree ctx := by
  simp [ZeroFree]

omit [Arithmetic K] in
/-- An expression that is no product has no factors. -/
theorem zeroFree_binary (hmul : op ≠ .mul) (hdiv : op ≠ .div) : (binary op l r).ZeroFree ctx := by
  simp [ZeroFree, hmul, hdiv]

/-- An expression that is not zero has no factor zero. -/
theorem zeroFree_of_ne_zero (hD : Exact D) (h : Evaluates D env e v) (hv : v ≠ 0) :
    e.ZeroFree ctx := by
  induction e generalizing v with
  | hole => trivial
  | const c =>
      obtain rfl := evaluates_const.mp h
      exact hv
  | var => trivial
  | unary op x ih =>
      rintro rfl
      obtain ⟨a, hx, rfl⟩ := hD.evaluates_neg.mp h
      exact ih hx (neg_ne_zero.mp hv)
  | binary op l r ihl ihr =>
      constructor
      · rintro rfl
        obtain ⟨a, b, hl, hr, rfl⟩ := hD.evaluates_mul.mp h
        obtain ⟨ha, hb⟩ := mul_ne_zero_iff.mp hv
        exact ⟨ihl hl ha, ihr hr hb⟩
      · rintro rfl
        obtain ⟨a, b, hl, -, -, rfl⟩ := hD.evaluates_div.mp h
        exact .inl (ihl hl (div_ne_zero_iff.mp hv).1)

/-- A constant that can be taken out of a product without zeros is not zero. -/
theorem ne_zero_of_zeroFree (hD : Exact D) (hz : e.ZeroFree ctx) (h : Evaluates D env e v)
    {flipped pinned : Bool} {t : ChainTerm K} (ht : t ∈ e.termsFrom .multiplicative flipped pinned)
    (htc : t.expr = const c) (hpin : t.pinned = false) : c ≠ 0 := by
  -- a pinned constant is a whole numerator, which may be zero; no other one may
  replace ht := meets_of_mem_termsFrom ht
  induction ht generalizing v with
  | here =>
      cases htc
      exact hz
  | operand _ ih =>
      obtain ⟨a, hx, -⟩ := hD.evaluates_neg.mp h
      exact ih (zeroFree_neg.mp hz) hx htc hpin
  | left hop ht ih =>
      rcases eq_mul_or_div (Option.isSome_of_eq_some hop) with rfl | rfl
      · obtain ⟨a, b, hl, -⟩ := hD.evaluates_mul.mp h
        exact ih (zeroFree_mul.mp hz).1 hl htc hpin
      · obtain ⟨a, b, hl, -⟩ := hD.evaluates_div.mp h
        rcases zeroFree_div.mp hz with hzl | ⟨⟨w, rfl⟩, -⟩
        · exact ih hzl hl htc hpin
        · -- the whole numerator is pinned
          cases ht with | here =>
          cases hpin
  | right hop _ ih =>
      rcases eq_mul_or_div (Option.isSome_of_eq_some hop) with rfl | rfl
      · obtain ⟨a, b, -, hr, -⟩ := hD.evaluates_mul.mp h
        exact ih (zeroFree_mul.mp hz).2 hr htc hpin
      · obtain ⟨a, b, -, hr, hb, -⟩ := hD.evaluates_div.mp h
        exact ih (zeroFree_of_ne_zero hD hr hb) hr htc hpin

omit [Arithmetic K] in
/-- Putting keeps a product free of zeros, if this is so in the part. -/
theorem ZeroFree.put (h : e.ZeroFree ctx) (hp : ChainPath .multiplicative e p) (ha : e.at? p = some a)
    (hzero : a.ZeroFree ctx → f.ZeroFree ctx) (hconst : (∃ c, a = const c) → ∃ c, f = const c)
    (hfree : a.HasFree ctx → f.HasFree ctx) : (e.put p f).ZeroFree ctx := by
  induction hp with
  | here =>
      obtain rfl := Option.some.inj ha
      rw [put_nil]
      exact hzero h
  | operand hp ih => exact zeroFree_neg.mpr (ih (zeroFree_neg.mp h) ha)
  | @left op l r p hop hp ih =>
      rcases eq_mul_or_div hop with rfl | rfl
      · obtain ⟨hl, hr⟩ := zeroFree_mul.mp h
        exact zeroFree_mul.mpr ⟨ih hl ha, hr⟩
      · rcases zeroFree_div.mp h with hl | ⟨⟨w, rfl⟩, hr⟩
        · exact zeroFree_div.mpr (.inl (ih hl ha))
        · cases hp
          obtain rfl : const w = a := Option.some.inj ha
          refine zeroFree_div.mpr (.inr ⟨?_, hr⟩)
          rw [put_nil]
          exact hconst ⟨w, rfl⟩
  | @right op l r p hop hp ih =>
      rcases eq_mul_or_div hop with rfl | rfl
      · obtain ⟨hl, hr⟩ := zeroFree_mul.mp h
        exact zeroFree_mul.mpr ⟨hl, ih hr ha⟩
      · rcases zeroFree_div.mp h with hl | ⟨hl, hr⟩
        · exact zeroFree_div.mpr (.inl hl)
        · exact zeroFree_div.mpr (.inr ⟨hl, hr.put ha hfree⟩)

/-- Taking out a constant keeps a product free of zeros. -/
theorem ZeroFree.splice (hD : Exact D) (h : e.ZeroFree ctx) (hp : ChainPath .multiplicative e p)
    (hc : e.at? p = some (const c)) (hsp : e.splice? .multiplicative p = some sp) :
    (e.splice sp).ZeroFree ctx := by
  -- a one is left where a whole numerator is taken out
  have hone : (const Arithmetic.one : Expr K).ZeroFree ctx := hD.one ▸ one_ne_zero
  induction hp generalizing sp with
  | here => cases hsp
  | @operand x p hp ih =>
      rcases splice?_below_or_here hsp rfl with ⟨sp', hsp', rfl⟩ | ⟨-, hhere⟩
      · rw [splice_below rfl (isSome_place hsp' (Option.isSome_of_eq_some hc)), Expr.put, put_nil]
        exact zeroFree_neg.mpr (ih (zeroFree_neg.mp h) hc hsp')
      · cases hhere
        exact hD.negOne ▸ neg_ne_zero.mpr one_ne_zero
  | @left op l r p hop hp ih =>
      rcases splice?_below_or_here hsp rfl with ⟨sp', hsp', rfl⟩ | ⟨-, hhere⟩
      · rw [splice_below rfl (isSome_place hsp' (Option.isSome_of_eq_some hc)), Expr.put, put_nil]
        rcases eq_mul_or_div hop with rfl | rfl
        · obtain ⟨hl, hr⟩ := zeroFree_mul.mp h
          exact zeroFree_mul.mpr ⟨ih hl hc hsp', hr⟩
        · rcases zeroFree_div.mp h with hl | ⟨⟨w, rfl⟩, -⟩
          · exact zeroFree_div.mpr (.inl (ih hl hc hsp'))
          · cases hp
            cases hsp'
      · rcases eq_mul_or_div hop with rfl | rfl <;> cases hhere
        · exact (zeroFree_mul.mp h).2
        · refine zeroFree_div.mpr (.inl ?_)
          rw [put_nil]
          exact hone
  | @right op l r p hop hp ih =>
      rcases splice?_below_or_here hsp rfl with ⟨sp', hsp', rfl⟩ | ⟨hnone, hhere⟩
      · rw [splice_below rfl (isSome_place hsp' (Option.isSome_of_eq_some hc)), Expr.put, put_nil]
        rcases eq_mul_or_div hop with rfl | rfl
        · obtain ⟨hl, hr⟩ := zeroFree_mul.mp h
          exact zeroFree_mul.mpr ⟨hl, ih hr hc hsp'⟩
        · rcases zeroFree_div.mp h with hl | ⟨hl, hr⟩
          · exact zeroFree_div.mpr (.inl hl)
          · exact zeroFree_div.mpr (.inr ⟨hl, hr.splice hc hsp'⟩)
      · cases hhere
        rcases eq_mul_or_div hop with rfl | rfl
        · exact (zeroFree_mul.mp h).1
        · rcases zeroFree_div.mp h with hl | ⟨-, hr⟩
          · exact hl
          · obtain rfl := eq_nil_of_splice? hnone (Option.isSome_of_eq_some hc)
            obtain rfl : r = const c := Option.some.inj hc
            exact absurd hr not_hasFree_const

end Expr

end Formula
