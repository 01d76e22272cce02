/-
Formula/Proofs/Kinds/Rules.lean

The rules and what is known of the value.  Without the rules that are right for finite
numbers only, a rule leaves no kinds that there were not before: what was NaN for sure
still is (`kinds_perform`).  The merging of powers is the exception, since a power may
be a number though its base is NaN.
-/
import Formula.Proofs.Kinds.Chain
import Formula.Proofs.Simplify.Meaning
import Formula.Proofs.Simplify.Respecting

namespace Formula

variable {s : Settings Float} {known : Knowledge} {e f k l r x : Expr Float} {sk : Sketch Float}
  {m : Move Float} {kind : ChainKind} {rule : Rule}

namespace Expr

/-! ### Sums, differences, negations -/

theorem exists_kinds_of_isValue_zero (known : Knowledge) (h : r.isValue Arithmetic.zero = true) :
    ∃ negative, r.kinds known = {⟨negative, .zero⟩} := by
  obtain ⟨w, rfl, hw⟩ := isValue_iff.mp h
  exact Kinds.ofFloat_of_eq_zero hw

theorem kinds_of_isValue_one (h : r.isValue Arithmetic.one = true) : r.kinds known = Kinds.one := by
  obtain ⟨w, rfl, hw⟩ := isValue_iff.mp h
  exact Kinds.ofFloat_of_eq_one hw

theorem kinds_addition (h : rule.Rebuilds s (.binary .add l r) sk) :
    ((binary .add l r).build sk).kinds known ⊆ (binary .add l r).kinds known := by
  cases h with
  | add_zero hzero =>
      obtain ⟨negative, hr⟩ := exists_kinds_of_isValue_zero known hzero
      change l.kinds known ⊆ Kinds.add (l.kinds known) (r.kinds known)
      rw [hr]
      exact Kinds.subset_add_zero negative
  | zero_add hzero =>
      obtain ⟨negative, hl⟩ := exists_kinds_of_isValue_zero known hzero
      change r.kinds known ⊆ Kinds.add (l.kinds known) (r.kinds known)
      rw [hl, Kinds.add_comm]
      exact Kinds.subset_add_zero negative
  | @add_neg _ x => exact Finset.Subset.refl (Kinds.add (l.kinds known) (Kinds.neg (x.kinds known)))
  | neg_add => exact (Kinds.add_comm (S := r.kinds known)).subset

theorem kinds_subtraction (hs : s.rational = false) (h : rule.Rebuilds s (.binary .sub l r) sk) :
    ((binary .sub l r).build sk).kinds known ⊆ (binary .sub l r).kinds known := by
  cases h with
  | sub_zero hzero =>
      obtain ⟨negative, hr⟩ := exists_kinds_of_isValue_zero known hzero
      change l.kinds known ⊆ Kinds.add (l.kinds known) (Kinds.neg (r.kinds known))
      rw [hr]
      exact Kinds.subset_add_zero (!negative)
  | zero_sub hzero =>
      obtain ⟨negative, hl⟩ := exists_kinds_of_isValue_zero known hzero
      change Kinds.neg (r.kinds known) ⊆ Kinds.add (l.kinds known) (Kinds.neg (r.kinds known))
      rw [hl, Kinds.add_comm]
      exact Kinds.subset_add_zero negative
  | sub_self hrational => cases hs.symm.trans hrational
  | @sub_neg _ x =>
      change Kinds.add (l.kinds known) (x.kinds known)
        ⊆ Kinds.add (l.kinds known) (Kinds.neg (Kinds.neg (x.kinds known)))
      rw [Kinds.neg_neg]

theorem kinds_negation (h : rule.Rebuilds s (.unary .neg x) sk) :
    ((unary .neg x).build sk).kinds known ⊆ (unary .neg x).kinds known := by
  cases h with
  | neg_neg => exact Kinds.neg_neg.symm.subset
  | @neg_sub y z =>
      change Kinds.add (z.kinds known) (Kinds.neg (y.kinds known))
        ⊆ Kinds.neg (Kinds.add (y.kinds known) (Kinds.neg (z.kinds known)))
      rw [Kinds.neg_add, Kinds.neg_neg, Kinds.add_comm]

/-! ### Products and quotients -/

theorem kinds_multiplication (hs : s.rational = false) (h : rule.Rebuilds s (.binary .mul l r) sk) :
    ((binary .mul l r).build sk).kinds known ⊆ (binary .mul l r).kinds known := by
  cases h with
  | mul_one hone =>
      -- for all that kinds say a product may overflow or vanish, so this is no equality
      change l.kinds known ⊆ Kinds.mul (l.kinds known) (r.kinds known)
      rw [kinds_of_isValue_one hone]
      exact Kinds.subset_mul_one
  | one_mul hone =>
      change r.kinds known ⊆ Kinds.mul (l.kinds known) (r.kinds known)
      rw [kinds_of_isValue_one hone, Kinds.mul_comm]
      exact Kinds.subset_mul_one
  | zero_mul hrational | mul_zero hrational => cases hs.symm.trans hrational
  | neg_mul_neg => exact Kinds.mul_neg_neg.symm.subset
  | @mul_one_div _ y z hone =>
      change Kinds.mul (l.kinds known) (Kinds.inv (z.kinds known))
        ⊆ Kinds.mul (l.kinds known) (Kinds.mul (y.kinds known) (Kinds.inv (z.kinds known)))
      rw [kinds_of_isValue_one hone, Kinds.mul_comm (S := Kinds.one)]
      exact Kinds.lift_mono subset_rfl Kinds.subset_mul_one
  | @one_div_mul _ y z hone =>
      change Kinds.mul (r.kinds known) (Kinds.inv (z.kinds known))
        ⊆ Kinds.mul (Kinds.mul (y.kinds known) (Kinds.inv (z.kinds known))) (r.kinds known)
      rw [kinds_of_isValue_one hone, Kinds.mul_comm (S := Kinds.one), Kinds.mul_comm (T := r.kinds known)]
      exact Kinds.lift_mono subset_rfl Kinds.subset_mul_one

theorem kinds_division (hs : s.rational = false) (h : rule.Rebuilds s (.binary .div l r) sk) :
    ((binary .div l r).build sk).kinds known ⊆ (binary .div l r).kinds known := by
  cases h with
  | div_one hone =>
      change l.kinds known ⊆ Kinds.mul (l.kinds known) (Kinds.inv (r.kinds known))
      rw [kinds_of_isValue_one hone]
      exact Kinds.subset_mul_one
  | div_self hrational | zero_div hrational => cases hs.symm.trans hrational
  | @neg_div_neg y z =>
      change Kinds.mul (y.kinds known) (Kinds.inv (z.kinds known))
        ⊆ Kinds.mul (Kinds.neg (y.kinds known)) (Kinds.inv (Kinds.neg (z.kinds known)))
      rw [Kinds.inv_neg, Kinds.mul_neg_neg]
  | @div_div _ y z =>
      change Kinds.mul (y.kinds known) (Kinds.inv (Kinds.mul (z.kinds known) (r.kinds known)))
        ⊆ Kinds.mul (Kinds.mul (y.kinds known) (Kinds.inv (z.kinds known))) (Kinds.inv (r.kinds known))
      rw [Kinds.inv_mul, Kinds.mul_assoc]
  | @div_by_div _ y z =>
      change Kinds.mul (Kinds.mul (l.kinds known) (z.kinds known)) (Kinds.inv (y.kinds known))
        ⊆ Kinds.mul (l.kinds known) (Kinds.inv (Kinds.mul (y.kinds known) (Kinds.inv (z.kinds known))))
      rw [Kinds.inv_mul, Kinds.inv_inv, Kinds.mul_assoc, Kinds.mul_comm (S := z.kinds known)]

/-- An identity leaves no new kinds. -/
theorem kinds_of_rebuilds (hs : s.rational = false) (h : rule.Rebuilds s e sk) :
    (e.build sk).kinds known ⊆ e.kinds known := by
  cases e with
  | hole | const | var => cases h
  | unary op x =>
      cases op
      case neg => exact kinds_negation h
      -- of a logarithm of a power nothing is known
      case ln => cases h <;> exact Finset.subset_univ _
      all_goals cases h
  | binary op l r =>
      cases op
      case add => exact kinds_addition h
      case sub => exact kinds_subtraction hs h
      case mul => exact kinds_multiplication hs h
      case div => exact kinds_division hs h
      case pow | root => exact Finset.subset_univ _
      case log => cases h <;> exact Finset.subset_univ _
      all_goals cases h

/-! ### Signs -/

/-- The factor that takes up a minus sign gets the opposite kinds. -/
theorem kinds_of_absorbs {p : Path} {change : SignChange Float} (h : x.Absorbs p f change) :
    (f.build change.sketch).kinds known = Kinds.neg (f.kinds known) := by
  cases h with
  | flip => exact Kinds.ofFloat_neg _
  | unwrap => exact Kinds.neg_neg.symm
  | wrap => rfl

theorem kinds_pushSign : ((unary .neg x).perform
    (.pushSign (.operand :: x.signChange.1) x.signChange.2)).kinds known = (unary .neg x).kinds known := by
  obtain ⟨f, habsorbs⟩ := exists_absorbs x
  have hf := habsorbs.at?
  obtain ⟨g, hg, heq, hput⟩ := exists_context_at? known habsorbs.chainPath hf
  rw [perform_pushSign hf, hput, kinds_of_absorbs habsorbs, ChainKind.turn_neg, hg.neg rfl, ← heq]
  rfl

/-! ### Constants -/

/-- Two constants are merged if the one that stays contributes nothing that both did
not. -/
theorem kinds_collapse {first last : ConstantTerm Float} {w : Float}
    (hfirst : first ∈ e.constantTerms kind) (hlast : last ∈ e.constantTerms kind)
    (hne : first.path ≠ last.path)
    (hw : kind.blur (kind.turn last.flipped (Kinds.ofFloat w))
      ⊆ kind.combine (kind.turn first.flipped (Kinds.ofFloat first.value))
        (kind.turn last.flipped (Kinds.ofFloat last.value))) :
    (e.perform (.collapse kind last.path w first.path)).kinds known ⊆ e.kinds known := by
  have hfirst := mem_constantTerms.mp hfirst
  have hlast := mem_constantTerms.mp hlast
  obtain ⟨sp, hrem, hat', hpath', hat, hsp⟩ := exists_joinable hlast hfirst hne
  obtain ⟨g, hg, heq, hput⟩ := exists_kinds_merge known hrem.chain hpath' hrem.apart hat hat' hsp
  have hflip := flipped_of_mem_terms hfirst
  have hflip' := flipped_of_mem_terms hlast
  simp only at hflip hflip' hsp
  rw [← hflip, ← hflip'] at heq
  rw [heq, perform, hsp]
  refine (hput (.const w)).trans (hg.mono ?_)
  rw [← hflip']
  exact hw

theorem ofFloat_signed (c : ConstantTerm Float) :
    Kinds.ofFloat c.signed = ChainKind.additive.turn c.flipped (Kinds.ofFloat c.value) := by
  unfold ConstantTerm.signed
  cases c.flipped
  exacts [rfl, Kinds.ofFloat_neg c.value]

theorem kinds_collapseAdditive (h : e.collapseAdditive = some m) :
    (e.perform m).kinds known ⊆ e.kinds known := by
  obtain ⟨first, hfirst, last, hlast, hne, rfl⟩ := collapseAdditive_spec h
  refine kinds_collapse hfirst hlast hne ?_
  rw [← ofFloat_signed, ← ofFloat_signed]
  have hadd : Kinds.ofFloat (Arithmetic.binary .add first.signed last.signed) ⊆ _ :=
    Kinds.ofFloat_add first.signed last.signed
  cases last.flipped with
  | false => exact hadd
  | true =>
      refine Finset.Subset.trans ?_ hadd
      exact (congrArg Kinds.neg (Kinds.ofFloat_neg _)).trans Kinds.neg_neg |>.subset

/-- A reciprocal, rounded. -/
theorem ofFloat_reciprocal (v : Float) : Kinds.ofFloat (Arithmetic.binary .div Arithmetic.one v)
    ⊆ ChainKind.multiplicative.blur (Kinds.inv (Kinds.ofFloat v)) := by
  have hdiv := Kinds.ofFloat_div 1.0 v
  rwa [Kinds.ofFloat_one] at hdiv

theorem ofFloat_scaled (c : ConstantTerm Float) : Kinds.ofFloat c.scaled
    ⊆ ChainKind.multiplicative.blur (ChainKind.multiplicative.turn c.flipped (Kinds.ofFloat c.value)) := by
  unfold ConstantTerm.scaled
  cases c.flipped
  exacts [ChainKind.subset_blur, ofFloat_reciprocal c.value]

theorem kinds_collapseMultiplicative (h : e.collapseMultiplicative = some m) :
    (e.perform m).kinds known ⊆ e.kinds known := by
  obtain ⟨first, hfirst, last, hlast, hne, -, rfl⟩ := collapseMultiplicative_spec h
  refine kinds_collapse hfirst hlast hne ?_
  have hmul : Kinds.ofFloat (Arithmetic.binary .mul first.scaled last.scaled) ⊆ _ :=
    (Kinds.ofFloat_mul first.scaled last.scaled).trans
      (ChainKind.multiplicative.combine_mono (ofFloat_scaled first) (ofFloat_scaled last))
  rw [ChainKind.combine_blur_blur] at hmul
  have hsame := ChainKind.multiplicative.blur_combine_eq
    (ChainKind.multiplicative.turn first.flipped (Kinds.ofFloat first.value))
    (ChainKind.multiplicative.turn last.flipped (Kinds.ofFloat last.value))
  generalize ChainKind.multiplicative.combine _ _ = U at hmul hsame ⊢
  have hblur := (ChainKind.multiplicative.blur_mono hmul).trans hsame.subset
  cases last.flipped with
  | false => exact hblur
  | true =>
      have hturn := ChainKind.multiplicative.turn_mono true
        (ofFloat_reciprocal (Arithmetic.binary .mul first.scaled last.scaled))
      rw [ChainKind.turn_blur, show Kinds.inv = ChainKind.multiplicative.turn true from rfl,
        ChainKind.turn_turn] at hturn
      exact (ChainKind.multiplicative.blur_mono (hturn.trans hblur)).trans hsame.subset

/-! ### Powers and logarithms -/

/-- What is known of a logarithm depends on the argument. -/
theorem exists_argument_kinds (known : Knowledge) (h : k.logBase?.isSome) :
    ∃ y, k.operand? k.argumentSlot = some y ∧ k.kinds known = UnaryOp.ln.kinds known (y.kinds known) ∧
      ∀ z, (k.put [k.argumentSlot] z).kinds known = UnaryOp.ln.kinds known (z.kinds known) := by
  cases k with
  | unary op x =>
      have hop : op = .ln := by
        by_contra hne
        simp [logBase?, hne] at h
      subst hop
      exact ⟨x, rfl, rfl, fun z => by simp [argumentSlot, put, kinds]⟩
  | binary op l r =>
      have hop : op = .log := by
        by_contra hne
        simp [logBase?, hne] at h
      subst hop
      exact ⟨r, rfl, rfl, fun z => by simp [argumentSlot, put, kinds, BinaryOp.kinds]⟩
  | _ => simp [logBase?] at h

/-- The logarithm of a product or quotient has no value if one of the two logarithms
has none. -/
theorem kinds_ln_merge {op : BinaryOp} (hop : op = .mul ∨ op = .div) (S T : Kinds) (flip flip' : Bool) :
    ChainKind.additive.turn flip' (UnaryOp.ln.kinds known (op.kinds known T S))
      ⊆ ChainKind.additive.combine (ChainKind.additive.turn flip (UnaryOp.ln.kinds known S))
        (ChainKind.additive.turn flip' (UnaryOp.ln.kinds known T)) := by
  have hturn : ∀ flip, ChainKind.additive.turn flip ∅ = ∅ := by decide
  have hturn' : ∀ flip, ChainKind.additive.turn flip Finset.univ = Finset.univ := by decide
  have hadd : ChainKind.additive.combine Finset.univ Finset.univ = Finset.univ := by decide +kernel
  by_cases hempty : S = ∅ ∨ T = ∅
  · have hmerged : op.kinds known T S = ∅ := by
      rcases hop with rfl | rfl <;> rcases hempty with rfl | rfl <;> simp [BinaryOp.kinds, Kinds.mul]
    rw [hmerged, UnaryOp.kinds_ln, if_pos rfl, hturn]
    exact Finset.empty_subset _
  · obtain ⟨hS, hT⟩ := not_or.mp hempty
    rw [UnaryOp.kinds_ln known S, UnaryOp.kinds_ln known T, if_neg hS, if_neg hT, hturn', hturn', hadd]
    exact Finset.subset_univ _

theorem kinds_combineLogarithms (h : e.combineLogarithms s = some m) :
    (e.perform m).kinds known ⊆ e.kinds known := by
  obtain ⟨kept, hk, t, ht, hne, hklog, htlog, rfl⟩ := combineLogarithms_spec h
  obtain ⟨sp, hrem, hat', hpath', hat, hsp⟩ := exists_joinable hk ht hne
  obtain ⟨y, hy, hkinds, hput⟩ := exists_argument_kinds known hklog
  obtain ⟨z, hz, hkinds', -⟩ := exists_argument_kinds known htlog
  have hpart : e.part (t.path ++ [t.expr.argumentSlot]) = z := part_of_at? (by
    rw [at?_append, hat, Option.bind_some, at?_cons, hz]
    rfl)
  obtain ⟨g, hg, heq, hmerge⟩ := exists_kinds_merge known hrem.chain hpath' hrem.apart hat hat' hsp
  rw [perform_joinLogarithms hat' hy hrem hsp, hpart, heq]
  refine (hmerge _).trans (hg.mono ?_)
  rw [hput, hkinds, hkinds']
  exact kinds_ln_merge (by split <;> simp) _ _ _ _

/-! ### All rules -/

theorem kinds_combineFractions {a b c d : Expr Float} :
    (binary .div (.binary .mul a c) (.binary .mul b d)).kinds known
      = (binary .mul (.binary .div a b) (.binary .div c d)).kinds known := by
  change Kinds.mul (Kinds.mul (a.kinds known) (c.kinds known))
      (Kinds.inv (Kinds.mul (b.kinds known) (d.kinds known)))
    = Kinds.mul (Kinds.mul (a.kinds known) (Kinds.inv (b.kinds known)))
      (Kinds.mul (c.kinds known) (Kinds.inv (d.kinds known)))
  rw [Kinds.inv_mul]
  ac_rfl

/-- **A rule leaves no new kinds**, unless it merges powers. -/
theorem kinds_perform (hs : s.rational = false) (hrule : rule ∈ e.rules) (h : rule.move? s e = some m)
    (hne : rule ≠ .combineExponents) : (e.perform m).kinds known ⊆ e.kinds known := by
  cases decides_of_move? hrule h with
  | rebuild hsk => exact kinds_of_rebuilds hs hsk
  | pushSign heq =>
      subst heq
      exact kinds_pushSign.subset
  | collapseAdditive h => exact kinds_collapseAdditive h
  | collapseMultiplicative h => exact kinds_collapseMultiplicative h
  | combineLogarithms h => exact kinds_combineLogarithms h
  | combineExponents => exact absurd rfl hne

end Expr

/-- The event is not the merging of two powers. -/
def Event.MergesNoPowers : Event Float → Prop
  | .applied rule _ _ => rule ≠ .combineExponents
  | _ => True

instance : DecidablePred Event.MergesNoPowers
  | .applied _ _ _ => inferInstanceAs (Decidable (_ ≠ _))
  | .optimized _ _ | .passLimit _ => .isTrue trivial

/-- A step leaves no new kinds. -/
theorem stepRelation_kinds {ctx : Environment Float} (hs : s.rational = false)
    (hle : ∀ x c, ctx x = some c → known.values x = some c) :
    StepRelation s ctx Event.MergesNoPowers fun e f =>
      e.In known.fragment → f.In known.fragment ∧ f.kinds known ⊆ e.kinds known where
  refl _ he := ⟨he, subset_rfl⟩
  trans h h' he := ⟨(h' (h he).1).1, (h' (h he).1).2.trans (h he).2⟩
  unary op _ _ h he := ⟨⟨he.1, (h he.2).1⟩, op.kinds_mono known (h he.2).2⟩
  binary op _ _ _ _ hl hr he :=
    ⟨⟨he.1, (hl he.2.1).1, (hr he.2.2).1⟩, op.kinds_mono known (hl he.2.1).2 (hr he.2.2).2⟩
  rule hrule hm hclear he := ⟨he.perform hrule hm, Expr.kinds_perform hs hrule hm hclear⟩
  fractions _ h he := by
    have hle := h (Expr.in_iff_over.mpr (Expr.in_iff_over.mp he).fractions)
    exact ⟨hle.1, hle.2.trans Expr.kinds_combineFractions.subset⟩
  fold h he := ⟨trivial, Expr.ofFloat_subset_kinds he hle h⟩

end Formula
