/-
Formula/Proofs/Simplify/Lowering.lean

Every rule lowers the expression it is applied to (`lower_perform`), and so do
combining fractions and folding (`lower_fractions`, `lower_const`).

The identities and the rules of chains lower the potential, whatever the
result may become by the place it stands in: what is put in is compared with what
is taken out, and sums of potentials are left to `omega`.  Only a sign that is
moved down a product may leave the potential as it is.
-/
import Formula.Proofs.Simplify.Potential
import Formula.Proofs.Simplify.Performing

namespace Formula

universe u

open Path (Apart)

namespace Expr

variable {α : Type u} [Arithmetic α] {s : Settings α} {e l r x : Expr α} {sk : Sketch α} {m : Move α}

/-! ### Identities -/

/-- An identity lowers the potential. -/
theorem lower_of_rebuilds (he : e.isFilled) {rule : Rule} (h : rule.Rebuilds s e sk) :
    Lower (e.build sk) e := by
  have hpart : ∀ {p : Path} {a : Expr α}, e.at? p = some a → 2 ≤ a.potential ∧ a.surplus ≤ 2 :=
    fun ha => ⟨two_le_potential (isFilled_part he ha), surplus_le _⟩
  refine lower_of_lt (by cases h <;> rfl) ?_
  cases h
  case sub_self l r _ _ =>
    -- a constant counts for as much on the left as the zero does, and all else for more
    have hl : l.isFilled := (Bool.and_eq_true_iff.mp he).1
    have hr := hpart (p := [.right]) rfl
    by_cases hconst : ∃ v, l = const v
    · obtain ⟨v, rfl⟩ := hconst
      simp [build]
      omega
    · have := five_le_potential hl fun v hv => hconst ⟨v, hv⟩
      simp [build]
      omega
  case zero_sub hzero =>
    obtain ⟨w, rfl, -⟩ := isValue_iff.mp hzero
    simp [build, part, at?_cons, operand?]
  case neg_neg =>
    have hx := hpart (p := [.operand, .operand]) rfl
    simp [build, part, at?_cons, operand?]
    omega
  case neg_sub =>
    have hy := hpart (p := [.operand, .right]) rfl
    simp [build, part, at?_cons, operand?]
    omega
  case ln_pow | ln_root =>
    simp [build, part, at?_cons, operand?]
    omega
  all_goals
    have hl := hpart (p := [.left]) rfl
    have hr := hpart (p := [.right]) rfl
    simp [build, part, at?_cons, operand?]
    omega

/-! ### Splices -/

variable {kind : ChainKind} {a f t : Expr α} {p q kept removed : Path} {sp : Splice α} {v : α}

omit [Arithmetic α] in
/-- A splice in an operand changes the potential by as much as in the operand. -/
theorem potential_splice_below {slot : Slot} (hx : e.operand? slot = some x)
    (hplace : (x.at? sp.place).isSome) :
    (e.splice (sp.below [slot])).fullPotential + x.potential
      ≤ e.potential + (x.splice sp).fullPotential := by
  have hput := potential_put (show e.at? [slot] = some x by rw [at?_cons, hx]; rfl) (x.splice sp)
  have hsurplus : (e.put [slot] (x.splice sp)).surplus = 0 := by
    cases e <;> cases slot <;> first | rfl | cases hx
  rw [splice_below hx hplace]
  unfold fullPotential at *
  omega

omit [Arithmetic α] in
theorem potential_part (h : e.at? p = some a) : a.potential ≤ e.potential := by
  induction p generalizing e with
  | nil => rw [Option.some.inj h]
  | cons s p ih =>
      obtain ⟨x, hx, hat⟩ := Option.bind_eq_some_iff.mp h
      have hx' := ih hat
      cases e <;> cases s <;> simp only [operand?, Option.some.injEq, reduceCtorEq] at hx <;>
        subst hx <;> rw [potential] <;> omega

/-- A term that is below nothing but negations. -/
theorem fullPotential_tower (hpath : ChainPath kind e p) (h : e.splice? kind p = none)
    (ht : e.at? p = some t) : t.fullPotential ≤ e.fullPotential := by
  have hst := t.surplus_le
  cases hpath with
  | here => rw [Option.some.inj ht]
  | @operand x p hpath =>
      have hx := potential_part (e := x) ht
      simp only [fullPotential, potential, UnaryOp.potential]
      omega
  | left | right =>
      have hhere := (splice?_eq_none_below h rfl).2
      cases eq_operand_of_spliceHere? hhere rfl

/-- What a sum loses when one of its terms is taken out. -/
theorem potential_splice_sum (hpath : ChainPath .additive e p)
    (h : e.splice? .additive p = some sp) (ht : e.at? p = some t) :
    (e.splice sp).fullPotential + t.fullPotential ≤ e.potential + 3 := by
  induction hpath generalizing sp with
  | here => cases h
  | @operand x p hpath ih =>
      rcases splice?_below_or_here h rfl with ⟨sp', hsp', rfl⟩ | ⟨-, hhere⟩
      · have hx := ih hsp' ht
        have hbelow := potential_splice_below (show (unary .neg x).operand? .operand = some x from rfl)
          (isSome_place hsp' (Option.isSome_of_eq_some ht))
        omega
      · cases hhere
  | @left op l r p hop hpath ih =>
      rcases splice?_below_or_here h rfl with ⟨sp', hsp', rfl⟩ | ⟨hnone, hhere⟩
      · have hx := ih hsp' ht
        have hbelow := potential_splice_below (show (binary op l r).operand? .left = some l from rfl)
          (isSome_place hsp' (Option.isSome_of_eq_some ht))
        omega
      · -- only signs stand between the operator and the term
        have htower := fullPotential_tower hpath hnone ht
        have hsl := l.surplus_le
        have hsr := r.surplus_le
        unfold fullPotential at htower
        cases op <;> simp [ChainKind.flips?] at hop <;> cases hhere <;>
          simp [splice, rebuildAt, Splice.place, Splice.sketch, build, part, at?_cons, operand?] <;> omega
  | @right op l r p hop hpath ih =>
      rcases splice?_below_or_here h rfl with ⟨sp', hsp', rfl⟩ | ⟨hnone, hhere⟩
      · have hx := ih hsp' ht
        have hbelow := potential_splice_below (show (binary op l r).operand? .right = some r from rfl)
          (isSome_place hsp' (Option.isSome_of_eq_some ht))
        omega
      · have htower := fullPotential_tower hpath hnone ht
        have hsl := l.surplus_le
        have hsr := r.surplus_le
        unfold fullPotential at htower
        cases hhere
        cases op <;> simp [ChainKind.flips?] at hop <;>
          simp [splice, rebuildAt, Splice.place, Splice.sketch, build, part, at?_cons, operand?] <;> omega

/-- What a product loses when one of its factors is taken out. -/
theorem potential_splice_product (hpath : ChainPath .multiplicative e p)
    (h : e.splice? .multiplicative p = some sp) (ht : e.at? p = some t) (hplace : sp.place ≠ p) :
    (e.splice sp).potential + t.potential + 2 ≤ e.potential := by
  induction hpath generalizing sp with
  | here => cases h
  | @operand x p hpath ih =>
      rcases splice?_below_or_here h rfl with ⟨sp', hsp', rfl⟩ | ⟨-, hhere⟩
      · have hx := ih hsp' ht (Splice.place_below_ne_iff.mp hplace)
        rw [splice_below rfl (isSome_place hsp' (Option.isSome_of_eq_some ht))]
        simp [put]
        omega
      · have hx := potential_part (e := x) ht
        cases hhere
        simp [splice, rebuildAt, Splice.place, Splice.sketch, build]
        omega
  | @left op l r p hop hpath ih =>
      rcases splice?_below_or_here h rfl with ⟨sp', hsp', rfl⟩ | ⟨hnone, hhere⟩
      · have hx := ih hsp' ht (Splice.place_below_ne_iff.mp hplace)
        rw [splice_below rfl (isSome_place hsp' (Option.isSome_of_eq_some ht))]
        cases op <;> simp [ChainKind.flips?] at hop <;> simp [put] <;> omega
      · have hx := potential_part (e := l) ht
        cases op <;> simp [ChainKind.flips?] at hop <;> cases hhere
        · simp [splice, rebuildAt, Splice.place, Splice.sketch, build, part, at?_cons, operand?]
          omega
        · -- a quotient whose whole numerator goes
          exact absurd (by rw [eq_nil_of_splice? hnone (Option.isSome_of_eq_some ht)]; rfl) hplace
  | @right op l r p hop hpath ih =>
      rcases splice?_below_or_here h rfl with ⟨sp', hsp', rfl⟩ | ⟨hnone, hhere⟩
      · have hx := ih hsp' ht (Splice.place_below_ne_iff.mp hplace)
        rw [splice_below rfl (isSome_place hsp' (Option.isSome_of_eq_some ht))]
        cases op <;> simp [ChainKind.flips?] at hop <;> simp [put] <;> omega
      · have hx := potential_part (e := r) ht
        cases hhere
        cases op <;> simp [ChainKind.flips?] at hop <;>
          simp [splice, rebuildAt, Splice.place, Splice.sketch, build, part, at?_cons, operand?] <;> omega

/-! ### Chains -/

/-- Of two constants of a chain one goes. -/
theorem lower_collapse {first last : ConstantTerm α} (w : α) (hfirst : first ∈ e.constantTerms kind)
    (hlast : last ∈ e.constantTerms kind) (hne : first.path ≠ last.path)
    (hpin : kind = .multiplicative → first.pinned = false) :
    Lower (e.perform (.collapse kind last.path w first.path)) e := by
  have hfirst := mem_constantTerms.mp hfirst
  have hlast := mem_constantTerms.mp hlast
  obtain ⟨sp, hrem, hat', -, hat, hsp⟩ := exists_joinable hlast hfirst hne
  have hapart := hrem.apart.symm
  have hput := potential_put hat' (const w)
  have hpath' := chainPath_put (f := const w) hrem.chain hapart
  have hsp' := splice?_put (f := const w) hapart ▸ hsp
  have ht := at?_put_of_apart (f := const w) hapart ▸ hat
  refine lower_of_lt (surplus_eq_zero (Option.isSome_of_eq_some hat) hrem.apart.ne_nil) ?_
  rw [perform, hsp]
  simp only [fullPotential, potential, surplus_const] at hput
  cases kind with
  | additive =>
      have hsplice := potential_splice_sum hpath' hsp' ht
      simp only [fullPotential, potential, surplus_const] at hsplice ⊢
      omega
  | multiplicative =>
      -- the constant that goes is no whole numerator, which would leave a one behind
      have hsplice := potential_splice_product hpath' hsp' ht
        (place_ne_of_not_pinned hfirst (hpin rfl) hsp)
      have hsurplus := surplus_le ((e.put last.path (const w)).splice sp)
      simp only [potential] at hsplice
      simp only [fullPotential]
      omega

theorem potential_argument {b : Expr α} (h : t.logBase?.isSome)
    (hb : t.operand? t.argumentSlot = some b) : b.potential + 20 ≤ t.potential := by
  cases t with
  | unary op x =>
      cases op <;> simp [logBase?] at h
      cases hb
      simp
      omega
  | binary op l r =>
      cases op <;> simp [logBase?] at h
      cases hb
      simp
      omega
  | _ => cases h

theorem lower_collapseAdditive (h : e.collapseAdditive = some m) : Lower (e.perform m) e := by
  obtain ⟨first, hfirst, last, hlast, hne, rfl⟩ := collapseAdditive_spec h
  exact lower_collapse _ hfirst hlast hne nofun

theorem lower_collapseMultiplicative (h : e.collapseMultiplicative = some m) :
    Lower (e.perform m) e := by
  obtain ⟨first, hfirst, last, hlast, hne, hpin, rfl⟩ := collapseMultiplicative_spec h
  exact lower_collapse _ hfirst hlast hne fun _ => hpin

/-- The logarithm that goes takes more with it than its argument adds to the other
one. -/
theorem lower_combineLogarithms (he : e.isFilled) (h : e.combineLogarithms s = some m) :
    Lower (e.perform m) e := by
  obtain ⟨kept, hk, t, ht, hne, hklog, htlog, rfl⟩ := combineLogarithms_spec h
  obtain ⟨sp, hrem, hat', -, hat, hsp⟩ := exists_joinable hk ht hne
  have hapart := hrem.apart.symm
  obtain ⟨a, ha, -⟩ := exists_argument (isFilled_part he hat') hklog
  obtain ⟨b, hb, -⟩ := exists_argument (isFilled_part he hat) htlog
  have hpart : e.part (t.path ++ [t.expr.argumentSlot]) = b := part_of_at? (by
    rw [at?_append, hat, Option.bind_some, at?_cons, hb]
    rfl)
  rw [perform_joinLogarithms hat' ha hrem hsp, hpart]
  generalize hop : (if kept.flipped = t.flipped then BinaryOp.mul else BinaryOp.div) = op
  have hjoined : (binary op a b).potential ≤ 5 + (a.potential + b.potential) := by
    rw [← hop]
    split <;> simp <;> omega
  have hslot : kept.expr.at? [kept.expr.argumentSlot] = some a := by
    rw [at?_cons, ha]
    rfl
  -- the kept logarithm grows by the other argument, which goes with its own logarithm
  have hbelow := potential_put hslot (binary op a b)
  have hput := potential_put hat' (kept.expr.put [kept.expr.argumentSlot] (binary op a b))
  have hkept := surplus_eq_zero (Option.isSome_of_eq_some hslot) (by simp)
  have hkept' := surplus_eq_zero (Option.isSome_of_eq_some (at?_put_self hslot (binary op a b))) (by simp)
  have hsplice := potential_splice_sum (chainPath_put hrem.chain hapart)
    (splice?_put (f := kept.expr.put [kept.expr.argumentSlot] (binary op a b)) hapart ▸ hsp)
    (by rw [at?_put_of_apart hapart, hat])
  have hargument := potential_argument htlog hb
  refine lower_of_lt (surplus_eq_zero_of_part hat' hkept) ?_
  simp only [fullPotential, surplus_binary] at hbelow hput hsplice ⊢
  omega

/-! ### Powers -/

omit [Arithmetic α] in
/-- A power or root that becomes a power of an operation on the exponent. -/
theorem potential_joined {b y c : Expr α} {op : BinaryOp} (hop : op = .add ∨ op = .sub) :
    (binary .pow b (binary op y c)).potential
      ≤ (binary .pow b y).potential + 1 + c.potential := by
  have hsy := y.surplus_le
  rcases hop with rfl | rfl <;> simp <;> omega

/-- The exponent of a factor has less potential than the factor. -/
theorem potential_exponent (ht : t.isFilled) : (t.build t.exponent).potential ≤ t.potential := by
  unfold exponent
  split
  · next h =>
    obtain ⟨l, r, rfl⟩ := hasOp_iff.mp h
    simp [build, part, at?_cons, operand?]
    omega
  split
  · next h =>
    obtain ⟨l, r, rfl⟩ := hasOp_iff.mp h
    simp [build, part, at?_cons, operand?]
    omega
  · exact two_le_potential ht

/-- The factor that goes takes more with it than its exponent adds to the power. -/
theorem lower_combineExponents (he : e.isFilled) (h : e.combineExponents s = some m) :
    Lower (e.perform m) e := by
  obtain ⟨entry, hentry, hbase, t, ht, hne, hpin, -, rfl⟩ := combineExponents_spec h
  obtain ⟨sp, hrem, hat', -, hat, hsp⟩ := exists_joinable hentry ht hne
  have hapart := hrem.apart.symm
  obtain ⟨y, hkept, hy⟩ := exists_normalized hbase hat'
  rw [perform_joinPowers hkept hrem hat hsp]
  generalize hop : (if entry.term.flipped = t.flipped then BinaryOp.add else BinaryOp.sub) = op
  have hsum : op = .add ∨ op = .sub := by rw [← hop]; split <;> simp
  have hjoined := potential_joined (b := entry.base) (y := y) (c := t.expr.build t.expr.exponent) hsum
  have hpower : (binary .pow entry.base y).potential ≤ entry.term.expr.potential := by
    rcases hy with hpow | ⟨d, hroot, rfl⟩
    · rw [hpow]
    · rw [hroot]
      simp
      omega
  have hexponent := potential_exponent (isFilled_part he hat)
  generalize hk : binary .pow entry.base (binary op y (t.expr.build t.expr.exponent)) = k at *
  have hput := potential_put hat' k
  have hat'' := at?_put_of_apart (f := k) hapart ▸ hat
  have hsp' := splice?_put (f := k) hapart ▸ hsp
  have hsplice := potential_splice_product (chainPath_put hrem.chain hapart) hsp' hat''
    (place_ne_of_not_pinned ht hpin hsp)
  have hresult := at?_splice (splices_of_splice? hsp' (Option.isSome_of_eq_some hat''))
    (Option.isSome_of_eq_some hat'') (at?_put_self hat' k) hrem.apart
  have hbefore : entry.term.expr.surplus = 0 := by
    rcases hy with hpow | ⟨d, hroot, -⟩
    · rw [hpow, surplus_binary]
    · rw [hroot, surplus_binary]
  refine lower_of_lt (surplus_eq_zero_of_part hat' hbefore) ?_
  have hafter := surplus_eq_zero_of_part hresult (by rw [← hk, surplus_binary])
  have hkept : k.surplus = 0 := by rw [← hk, surplus_binary]
  simp only [fullPotential] at hput ⊢
  omega

/-! ### Signs -/

omit [Arithmetic α] in
/-- There are no negations on the way to the leftmost factor. -/
theorem signHeight_put_leftmostFactor (hf : x.at? x.leftmostFactor = some f) (g : Expr α) :
    (x.put x.leftmostFactor g).signHeight + f.signHeight = x.signHeight + g.signHeight := by
  induction x with
  | binary op l r ihl =>
      rw [leftmostFactor] at hf ⊢
      split
      · next hop =>
        rw [if_pos hop] at hf
        have hl := ihl hf
        simp only [put, signHeight]
        omega
      · next hop =>
        rw [if_neg hop] at hf
        obtain rfl := Option.some.inj hf
        rw [put_nil, Nat.add_comm]
  | _ =>
      obtain rfl := Option.some.inj hf
      simp only [leftmostFactor, put_nil, Nat.add_comm]

omit [Arithmetic α] in
theorem weight_lt_of_part {slot : Slot} (h : e.at? (slot :: p) = some a) : a.weight < e.weight := by
  obtain ⟨x, hx, hat⟩ := Option.bind_eq_some_iff.mp h
  exact (weight_part hat).trans_lt (weight_operand hx)

/-- A negation above a factor goes, or it moves down to it. -/
theorem lower_put_of_absorbs {change : SignChange α} (h : x.Absorbs p f change) (hp : p ≠ []) :
    Lower (x.put p (f.build change.sketch)) (unary .neg x) := by
  have hput := potential_put h.at? (f.build change.sketch)
  have hweight := weight_put h.at? (f.build change.sketch)
  have hsurplus := surplus_eq_zero
    (Option.isSome_of_eq_some (at?_put_self h.at? (f.build change.sketch))) hp
  have hlower : ∀ {k : Expr α}, k.surplus = 0 → k.potential < 4 + x.potential → Lower k (unary .neg x) :=
    fun hk hlt => lower_of_lt rfl (by simpa [hk] using hlt)
  cases h with
  | flip =>
      simp only [SignChange.sketch, build, fullPotential, potential, surplus_const] at hput hsurplus ⊢
      exact hlower hsurplus (by omega)
  | @unwrap _ y =>
      have hsy := y.surplus_le
      simp only [SignChange.sketch, build, part, at?_cons, operand?, Option.bind_some, at?_nil,
        Option.getD_some, fullPotential, potential, UnaryOp.potential, surplus_unary] at hput hsurplus ⊢
      exact hlower hsurplus (by omega)
  | wrap _ hf =>
      simp only [SignChange.sketch, build, part, at?_nil, Option.getD_some, fullPotential, potential,
        UnaryOp.potential, surplus_unary, weight] at hput hweight hsurplus ⊢
      by_cases hlt : (x.put x.leftmostFactor (unary .neg f)).potential < 4 + x.potential
      · exact hlower hsurplus hlt
      -- the negation is further down
      have hheight := signHeight_put_leftmostFactor hf (unary .neg f)
      have hlight : f.weight < x.weight := by
        obtain ⟨slot, q, hq⟩ := List.exists_cons_of_ne_nil hp
        exact weight_lt_of_part (hq ▸ hf)
      refine .inr ⟨?_, hsurplus, ?_, ?_⟩
      · simp only [potential, UnaryOp.potential]
        omega
      · simp [weight] at hweight ⊢
        omega
      · simp [signHeight] at hheight ⊢
        omega

theorem lower_pushSign (hx : x.isFactored = true) :
    Lower ((unary .neg x).perform (.pushSign (.operand :: x.signChange.1) x.signChange.2))
      (unary .neg x) := by
  obtain ⟨f, habsorbs⟩ := exists_absorbs x
  rw [perform_pushSign habsorbs.at?]
  exact lower_put_of_absorbs habsorbs (signChange_ne_nil hx)

/-! ### All rules -/

end Expr

open Expr (Lower)

variable {α : Type u} [Arithmetic α] {s : Settings α} {e : Expr α} {m : Move α} {v : α}

/-- **Every rule lowers the expression.** -/
theorem lower_perform {rule : Rule} (he : e.isFilled) (hrule : rule ∈ e.rules)
    (h : rule.move? s e = some m) : Lower (e.perform m) e := by
  cases decides_of_move? hrule h with
  | rebuild hsk => exact Expr.lower_of_rebuilds he hsk
  | pushSign heq hx =>
      subst heq
      exact Expr.lower_pushSign hx
  | collapseAdditive h => exact Expr.lower_collapseAdditive h
  | collapseMultiplicative h => exact Expr.lower_collapseMultiplicative h
  | combineLogarithms h => exact Expr.lower_combineLogarithms he h
  | combineExponents h => exact Expr.lower_combineExponents he h

namespace Expr

omit [Arithmetic α] in
/-- Folding lowers the expression. -/
theorem lower_const (he : e.isFilled) (hconst : ∀ w, e ≠ const w) : Lower (const v) e := by
  have hfive := five_le_potential he hconst
  refine .inl ⟨?_, ?_⟩ <;> simp <;> omega

omit [Arithmetic α] in
/-- Combining fractions lowers their product. -/
theorem lower_fractions {a b c d : Expr α} :
    Lower (binary .div (binary .mul a c) (binary .mul b d))
      (binary .mul (binary .div a b) (binary .div c d)) := by
  refine lower_of_lt rfl ?_
  simp
  omega

end Expr

end Formula
