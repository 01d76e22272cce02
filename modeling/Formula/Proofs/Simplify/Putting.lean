/-
Formula/Proofs/Simplify/Putting.lean

Putting more than once.  Changes at places that are apart can be made in either
order, and a change inside of a part is a change of the part.  So a part that
stays may be changed before the splice instead of after it, at the place where it
is then (`splice_put`).  What becomes of a logarithm or power that another one
joins is thus seen in the tree as it was (`perform_joinLogarithms`,
`perform_joinPowers`).
-/
import Formula.Proofs.Simplify.Fits

namespace Formula

universe u

open Path (Apart)

namespace Expr

variable {α : Type u} {e f g a x : Expr α} {p q : Path}

/-- Putting back what is there changes nothing. -/
theorem put_at? (h : e.at? p = some a) : e.put p a = e := by
  induction p generalizing e with
  | nil =>
      obtain rfl := Option.some.inj h
      exact put_nil _ _
  | cons s p ih =>
      obtain ⟨x, hx, hat⟩ := Option.bind_eq_some_iff.mp h
      cases e <;> cases s <;> simp only [operand?, Option.some.injEq, reduceCtorEq] at hx <;>
        subst hx <;> simp [put, ih hat]

/-- A change inside of a part. -/
theorem put_append (h : e.at? p = some a) (q : Path) (f : Expr α) :
    e.put (p ++ q) f = e.put p (a.put q f) := by
  induction p generalizing e with
  | nil =>
      obtain rfl := Option.some.inj h
      rw [put_nil, List.nil_append]
  | cons s p ih =>
      obtain ⟨x, hx, hat⟩ := Option.bind_eq_some_iff.mp h
      cases e <;> cases s <;> simp only [operand?, Option.some.injEq, reduceCtorEq] at hx <;>
        subst hx <;> simp [put, ih hat]

/-- The second of two changes at one place counts. -/
theorem put_put : (e.put p f).put p g = e.put p g := by
  induction p generalizing e with
  | nil => rw [put_nil, put_nil]
  | cons s p ih => cases e <;> cases s <;> simp [put, ih]

/-- Changes that are apart can be made in either order. -/
theorem put_comm (h : Apart p q) : (e.put p f).put q g = (e.put q g).put p f := by
  induction p generalizing e q with
  | nil => exact absurd rfl h.ne_nil
  | cons s p ih =>
      cases q with
      | nil => exact absurd rfl h.symm.ne_nil
      | cons t q =>
          by_cases hst : s = t
          · subst hst
            have hih := fun x : Expr α => ih (e := x) (Path.Apart.cons_iff.mp h)
            cases e <;> cases s <;> simp [put, hih]
          · cases e <;> cases s <;> cases t <;> first | rfl | exact absurd rfl hst

/-! ### Splices and changes -/

variable {sp : Splice α}

/-- What a splice puts back of the place takes its changes along. -/
theorem build_put {r r' t : Path} (h : sp.sketch.Puts r r') (hx : e.at? r = some x) :
    (e.put (r ++ t) f).build sp.sketch = (e.build sp.sketch).put (r' ++ t) f := by
  cases sp with
  | promote owner survivor =>
      cases h
      simp only [Splice.sketch, build, part_of_at? hx, List.nil_append]
      rw [put_append hx, part_of_at? (at?_put_self hx _)]
  | negate owner =>
      cases h with | operand h =>
      cases h
      simp only [Splice.sketch, build, part_of_at? hx, List.singleton_append, put]
      rw [← List.singleton_append, put_append hx, part_of_at? (at?_put_self hx _)]
  | fill place v => cases h

/-- A part that stays can be changed before the splice or after it. -/
theorem splice_put (h : Splices e p sp) (hp : (e.at? p).isSome) (hq : e.at? q = some a)
    (hpq : Apart p q) (f : Expr α) : (e.put q f).splice sp = (e.splice sp).put (sp.shift q) f := by
  obtain ⟨o, ho⟩ := Option.isSome_iff_exists.mp h.isSome_place
  rcases h.located hp (Option.isSome_of_eq_some hq) hpq with
    ⟨hapart, hshift⟩ | ⟨r, r', t, hputs, rfl, hshift⟩
  · rw [hshift, splice, splice, rebuildAt, rebuildAt, put_comm hapart, part_of_at? ho,
      part_of_at? (by rwa [at?_put_of_apart hapart.symm])]
  · rw [at?_append, ho, Option.bind_some, at?_append] at hq
    obtain ⟨x, hx, -⟩ := Option.bind_eq_some_iff.mp hq
    rw [hshift, splice, splice, rebuildAt, rebuildAt, put_append ho,
      part_of_at? (at?_put_self ho _), put_put, build_put hputs hx, part_of_at? ho,
      put_append (at?_put_self ho _), put_put]

theorem at?_build {sk : Sketch α} (h : sk.Puts p q) : (e.build sk).at? q = some (e.part p) := by
  induction h with
  | part => rfl
  | operand _ ih => exact ih
  | left _ ih => exact ih
  | right _ ih => exact ih

/-- The part that stays is found at its new place. -/
theorem at?_splice (h : Splices e p sp) (hp : (e.at? p).isSome) (hq : e.at? q = some a)
    (hpq : Apart p q) : (e.splice sp).at? (sp.shift q) = some a := by
  obtain ⟨o, ho⟩ := Option.isSome_iff_exists.mp h.isSome_place
  rcases h.located hp (Option.isSome_of_eq_some hq) hpq with
    ⟨hapart, hshift⟩ | ⟨r, r', t, hputs, rfl, hshift⟩
  · rw [hshift, splice, rebuildAt, at?_put_of_apart hapart, hq]
  · rw [at?_append, ho, Option.bind_some, at?_append] at hq
    obtain ⟨x, hx, hat⟩ := Option.bind_eq_some_iff.mp hq
    rw [hshift, splice, rebuildAt, at?_append, at?_put_self ho, Option.bind_some, at?_append,
      at?_build hputs, part_of_at? ho, part_of_at? hx, Option.bind_some, hat]

/-- Where a part is found after another one has gone, with what has become of one
of them. -/
theorem at?_splice_put [Arithmetic α] {kind : ChainKind} {r : Path} (hp : (e.at? p).isSome)
    (hr : e.at? r = some a) (hpr : Apart p r) (hsp : e.splice? kind p = some sp) (f : Expr α) :
    ((e.put r f).splice sp).at? (sp.shift r) = some f ∧
      ∀ q x, Apart p q → Apart r q → e.at? q = some x →
        ((e.put r f).splice sp).at? (sp.shift q) = some x := by
  have hsome : ((e.put r f).at? p).isSome := by rwa [at?_put_of_apart hpr.symm]
  have hsplices := splices_of_splice? ((splice?_put hpr.symm).trans hsp) hsome
  exact ⟨at?_splice hsplices hsome (at?_put_self hr f) hpr, fun q x hpq hrq hx =>
    at?_splice hsplices hsome ((at?_put_of_apart hrq).trans hx) hpq⟩

/-- A negation goes, and the factor changes. -/
theorem perform_pushSign [Arithmetic α] {change : SignChange α} (h : e.at? p = some f) :
    (unary .neg e).perform (.pushSign (.operand :: p) change) = e.put p (f.build change.sketch) := by
  rw [perform, rebuildAt, part_of_at? (show (unary .neg e).at? (.operand :: p) = some f from h)]
  rfl

/-- A logarithm joins another one: that one gets another argument, and it goes. -/
theorem perform_joinLogarithms [Arithmetic α] {op : BinaryOp} {kept removed argument : Path}
    {slot : Slot} {k y : Expr α} (hkept : e.at? kept = some k) (hy : k.operand? slot = some y)
    (hrem : Removable .additive e kept removed) (hsp : e.splice? .additive removed = some sp) :
    e.perform (.joinLogarithms op kept slot argument removed)
      = (e.put kept (k.put [slot] (.binary op y (e.part argument)))).splice sp := by
  have hsplices := splices_of_splice? hsp hrem.isSome
  have hat := at?_splice hsplices hrem.isSome hkept hrem.apart
  have hpart : (e.splice sp).at? (sp.shift kept ++ [slot]) = some y := by
    rw [at?_append, hat, Option.bind_some, at?_cons, hy]
    rfl
  simp only [perform, hsp, graft, part_of_at? hpart]
  rw [put_append hat, splice_put hsplices hrem.isSome hkept hrem.apart]

theorem powerBase?_eq_some {b : Expr α} (h : e.powerBase? = some b) :
    (∃ y, e = .binary .pow b y) ∨ ∃ d, e = .binary .root d b := by
  cases e with
  | binary op l r =>
      simp only [powerBase?] at h
      split at h
      · next hop =>
        cases h
        exact .inl ⟨r, by rw [hop]⟩
      · split at h
        · next hop =>
          cases h
          exact .inr ⟨l, by rw [hop]⟩
        · cases h
  | _ => cases h

/-- A power stays as it is, and a root becomes the power with the reciprocal
exponent. -/
theorem exists_normalized [Arithmetic α] {t b : Expr α} (hbase : t.powerBase? = some b)
    (hat : e.at? p = some t) :
    ∃ y, (if t.hasOp .root then e.rebuildAt p rootAsPower else e).at? p = some (.binary .pow b y) ∧
      (t = .binary .pow b y ∨
        ∃ d, t = .binary .root d b ∧ y = .binary .div (.const Arithmetic.one) d) := by
  rcases powerBase?_eq_some hbase with ⟨y, rfl⟩ | ⟨d, rfl⟩
  · exact ⟨y, hat, .inl rfl⟩
  · refine ⟨_, ?_, .inr ⟨d, rfl, rfl⟩⟩
    rw [if_pos (by rfl), rebuildAt, at?_put_self hat, part_of_at? hat]
    rfl

/-- A factor joins a power: the power gets another exponent, and the factor goes. -/
theorem perform_joinPowers [Arithmetic α] {op : BinaryOp} {kept removed : Path} {fromRoot : Bool}
    {exponent : Sketch α} {b y t : Expr α}
    (hkept : (if fromRoot then e.rebuildAt kept rootAsPower else e).at? kept
      = some (.binary .pow b y))
    (hrem : Removable .multiplicative e kept removed) (ht : e.at? removed = some t)
    (hsp : e.splice? .multiplicative removed = some sp) :
    e.perform (.joinPowers op kept fromRoot exponent removed)
      = (e.put kept (.binary .pow b (.binary op y (t.build exponent)))).splice sp := by
  have hapart := hrem.apart
  generalize hn : (if fromRoot then e.rebuildAt kept rootAsPower else e) = n at hkept
  -- as far as the factor is concerned, nothing has changed
  have hput : ∀ f, n.put kept f = e.put kept f := by
    intro f
    rw [← hn]
    split
    · rw [rebuildAt, put_put]
    · rfl
  have hremoved : n.at? removed = e.at? removed := by
    rw [← hn]
    split
    · rw [rebuildAt, at?_put_of_apart hapart.symm]
    · rfl
  have hsplice : n.splice? .multiplicative removed = some sp := by
    rw [← hsp, ← hn]
    split
    · exact splice?_put hapart.symm
    · rfl
  have hsome : (n.at? removed).isSome := by rw [hremoved, ht]; rfl
  have hsplices := splices_of_splice? hsplice hsome
  have hat := at?_splice hsplices hsome hkept hapart
  simp only [perform, hsp, hn, part_of_at? ht, graft]
  rw [put_append hat, ← splice_put hsplices hsome hkept hapart, ← hput]
  rw [part_of_at? (show (n.splice sp).at? (sp.shift kept ++ [.right]) = some y from by
    rw [at?_append, hat]; rfl)]
  simp only [put, put_nil]

end Expr

end Formula
