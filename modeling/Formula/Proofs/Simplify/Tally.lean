/-
Formula/Proofs/Simplify/Tally.lean

Tallies.  A tally counts every operator the same, every variable the same, and
constants by their values: the number of nodes is a tally, and so is the number
of leaves that are variables.  If a tally is fair, that is, if the constants that
rules bring in count no more than an operator, then what the rules make counts no
more than what they are applied to (`tally_perform`).

There are two exceptions.  Where two constants become one, it depends on what
their sum or product counts.  Where exponents are merged there may be two more
operators and constants, for a root that becomes a power and for the sum of the
exponents; on the other hand one of the two bases is gone
(`tally_combineExponents`).
-/
import Formula.Proofs.Simplify.Putting

namespace Formula

universe u

open Path (Apart)

/-- What constants, variables and operators count. -/
structure Tally (α : Type u) where
  const : α → Nat
  var : Nat
  node : Nat

namespace Expr

variable {α : Type u}

/-- What an expression counts. -/
def tally (w : Tally α) : Expr α → Nat
  | hole => 0
  | const v => w.const v
  | var _ => w.var
  | unary _ x => w.node + x.tally w
  | binary _ l r => w.node + (l.tally w + r.tally w)

end Expr

namespace Tally

variable {α : Type u}

/-- The constants one and minus one, which rules bring in, count no more than an
operator; zero counts no more than what equals it, and a negation no more than what is
negated. -/
structure Fair [Arithmetic α] (w : Tally α) : Prop where
  zero : ∀ v, Arithmetic.same v Arithmetic.zero = true → w.const Arithmetic.zero ≤ w.const v
  one : w.const Arithmetic.one ≤ w.node
  negOne : w.const Arithmetic.negOne ≤ w.node
  neg : ∀ v, w.const (Arithmetic.unary .neg v) ≤ w.const v

/-- The number of nodes. -/
def nodes (α : Type u) : Tally α := ⟨fun _ => 1, 1, 1⟩

/-- The number of leaves that are variables. -/
def freeLeaves (α : Type u) : Tally α := ⟨fun _ => 0, 1, 0⟩

theorem fair_nodes [Arithmetic α] : (nodes α).Fair := by
  constructor <;> simp [nodes]

theorem fair_freeLeaves [Arithmetic α] : (freeLeaves α).Fair := by
  constructor <;> simp [freeLeaves]

end Tally

/-- The value that is left when one constant of a chain is merged into another. -/
def ConstantTerm.merged {α : Type u} [Arithmetic α] (first last : ConstantTerm α) : ChainKind → α
  | .additive =>
    let total := Arithmetic.binary .add first.signed last.signed
    if last.flipped then Arithmetic.unary .neg total else total
  | .multiplicative =>
    let product := Arithmetic.binary .mul first.scaled last.scaled
    if last.flipped then Arithmetic.binary .div Arithmetic.one product else product

namespace Expr

variable {α : Type u} {w : Tally α} {e f a t x l r : Expr α} {s : Slot} {p q : Path}

theorem tally_nodes (e : Expr α) : e.tally (.nodes α) = e.size := by
  induction e with
  | hole => rfl
  | const | var => rfl
  | unary op x ih => rw [tally, size, ih]; rfl
  | binary op l r ihl ihr => rw [tally, size, ihl, ihr]; rfl

/-! ### Parts -/

theorem additive_tally (w : Tally α) : Additive fun e : Expr α => e.tally w :=
  ⟨fun _ => ⟨w.node, fun _ => rfl⟩, fun _ => ⟨w.node, fun _ _ => rfl⟩⟩

theorem tally_part (h : e.at? p = some a) : a.tally w ≤ e.tally w := (additive_tally w).part_le h

/-- Putting changes a tally by the difference of the parts. -/
theorem tally_put (h : e.at? p = some a) (f : Expr α) :
    (e.put p f).tally w + a.tally w = e.tally w + f.tally w := (additive_tally w).put h f

/-- A splice in an operand changes a tally by as much as in the operand. -/
theorem tally_splice_below {sp : Splice α} (hx : e.operand? s = some x)
    (hplace : (x.at? sp.place).isSome) :
    (e.splice (sp.below [s])).tally w + x.tally w = e.tally w + (x.splice sp).tally w :=
  (additive_tally w).splice_below hx hplace

variable [Arithmetic α] {st : Settings α} {kind : ChainKind} {sp : Splice α} {sk : Sketch α} {m : Move α}

/-- What a splice takes out of a chain is gone, unless it is a whole numerator. -/
theorem tally_splice (hw : w.Fair) (hpath : ChainPath kind e p) (h : e.splice? kind p = some sp)
    (hp : e.at? p = some t) (hplace : sp.place ≠ p) :
    (e.splice sp).tally w + t.tally w ≤ e.tally w := by
  have hnegOne := hw.negOne
  induction hpath generalizing sp with
  | here => cases h
  | @operand x p hpath ih =>
      rcases splice?_below_or_here h rfl with ⟨sp', hsp', rfl⟩ | ⟨-, hhere⟩
      · have hx := ih hsp' hp (Splice.place_below_ne_iff.mp hplace)
        have hbelow := tally_splice_below (w := w) (show (unary .neg x).operand? .operand = some x from rfl)
          (isSome_place hsp' (Option.isSome_of_eq_some hp))
        omega
      · -- the negation becomes the factor minus one
        have hx := tally_part (w := w) (e := x) hp
        cases kind <;> cases hhere
        simp only [splice, rebuildAt, Splice.place, Splice.sketch, put_nil, build, tally]
        omega
  | @left op l r p hop hpath ih =>
      rcases splice?_below_or_here h rfl with ⟨sp', hsp', rfl⟩ | ⟨hnone, hhere⟩
      · have hx := ih hsp' hp (Splice.place_below_ne_iff.mp hplace)
        have hbelow := tally_splice_below (w := w) (show (binary op l r).operand? .left = some l from rfl)
          (isSome_place hsp' (Option.isSome_of_eq_some hp))
        omega
      · have hx := tally_part (w := w) (e := l) hp
        cases kind <;> cases op <;> simp [ChainKind.flips?] at hop <;> cases hhere
        case left.inr.multiplicative.div.refl =>
          -- a quotient whose whole numerator goes
          exact absurd (by rw [eq_nil_of_splice? hnone (Option.isSome_of_eq_some hp)]; rfl) hplace
        all_goals
          simp only [splice, rebuildAt, Splice.place, Splice.sketch, put_nil, build, part, at?_cons,
            operand?, at?_nil, Option.bind_some, Option.getD_some, tally]
          omega
  | @right op l r p hop hpath ih =>
      rcases splice?_below_or_here h rfl with ⟨sp', hsp', rfl⟩ | ⟨hnone, hhere⟩
      · have hx := ih hsp' hp (Splice.place_below_ne_iff.mp hplace)
        have hbelow := tally_splice_below (w := w) (show (binary op l r).operand? .right = some r from rfl)
          (isSome_place hsp' (Option.isSome_of_eq_some hp))
        omega
      · have hx := tally_part (w := w) (e := r) hp
        cases hhere
        simp only [splice, rebuildAt, Splice.place, Splice.sketch, put_nil, build, part, at?_cons,
          operand?, at?_nil, Option.bind_some, Option.getD_some, tally]
        omega

/-- In a sum every splice happens above what it takes out. -/
theorem place_ne_of_additive (hpath : ChainPath .additive e p) (h : e.splice? .additive p = some sp) :
    sp.place ≠ p := by
  induction hpath generalizing sp with
  | here => cases h
  | @operand x p hpath ih =>
      rcases splice?_below_or_here h rfl with ⟨sp', hsp', rfl⟩ | ⟨-, hhere⟩
      · exact Splice.place_below_ne_iff.mpr (ih hsp')
      · cases hhere
  | @left op l r p hop hpath ih | @right op l r p hop hpath ih =>
      rcases splice?_below_or_here h rfl with ⟨sp', hsp', rfl⟩ | ⟨-, hhere⟩
      · exact Splice.place_below_ne_iff.mpr (ih hsp')
      · cases op <;> simp [ChainKind.flips?] at hop <;> cases hhere <;> simp [Splice.place]

/-! ### Identities -/

/-- A constant that equals zero counts as much as zero. -/
theorem tally_zero_le (hw : w.Fair) (h : e.isValue Arithmetic.zero = true) :
    w.const Arithmetic.zero ≤ e.tally w := by
  obtain ⟨v, rfl, hv⟩ := isValue_iff.mp h
  exact hw.zero v hv

/-- An identity makes nothing that counts more, if this is so where equal operands
cancel and a zero takes the place of their difference. -/
theorem tally_of_rebuilds (hw : w.Fair) {rule : Rule} (h : rule.Rebuilds st e sk)
    (hcancel : rule = .simplifySubtraction → w.const Arithmetic.zero ≤ w.node) :
    (e.build sk).tally w ≤ e.tally w := by
  have hone := hw.one
  cases h
  case sub_self =>
    have hzero := hcancel rfl
    simp only [build, tally]
    omega
  case zero_mul hfactor | mul_zero hfactor | zero_div hfactor =>
    have hzero := tally_zero_le hw hfactor
    simp only [build, tally]
    omega
  -- all others use no part twice, and no more operators and ones than there were operators
  all_goals simp [build, part, at?_cons, operand?, tally] <;> omega

/-! ### Signs -/

/-- A factor that takes up a minus sign counts at most an operator more. -/
theorem tally_of_absorbs (hw : w.Fair) {change : SignChange α} (h : x.Absorbs p f change) :
    (f.build change.sketch).tally w ≤ w.node + f.tally w := by
  cases h with
  | @flip _ v =>
      have hneg := hw.neg v
      simp only [SignChange.sketch, build, tally]
      omega
  | unwrap =>
      simp only [SignChange.sketch, build, part, at?_cons, operand?, at?_nil, Option.bind_some,
        Option.getD_some, tally]
      omega
  | wrap => exact Nat.le_refl _

/-- A minus sign moves to a factor, and its operator is gone. -/
theorem tally_pushSign (hw : w.Fair) (x : Expr α) :
    ((unary .neg x).perform (.pushSign (.operand :: x.signChange.1) x.signChange.2)).tally w
      ≤ (unary .neg x).tally w := by
  obtain ⟨f, habsorbs⟩ := exists_absorbs x
  have hle := tally_of_absorbs hw habsorbs
  have hput := tally_put (w := w) habsorbs.at? (f.build x.signChange.2.sketch)
  rw [perform_pushSign habsorbs.at?, tally]
  omega

/-! ### Chains -/

/-- One term of a chain goes, and another one is changed. -/
theorem tally_put_splice (hw : w.Fair) (hrem : Removable kind e p q) (hkept : e.at? p = some a)
    (hgone : e.at? q = some t) (hsp : e.splice? kind q = some sp) (hplace : sp.place ≠ q) :
    ((e.put p f).splice sp).tally w + t.tally w + a.tally w ≤ e.tally w + f.tally w := by
  have hapart := hrem.apart.symm
  have hput := tally_put (w := w) hkept f
  have hsplice := tally_splice hw (chainPath_put (f := f) hrem.chain hapart)
    (by rw [splice?_put hapart, hsp]) (by rw [at?_put_of_apart hapart, hgone]) hplace
  omega

/-- Of two constants of a chain one goes, and the other one gets another value. -/
theorem tally_collapse (hw : w.Fair) {first last : ConstantTerm α} {v : α}
    (hfirst : first ∈ e.constantTerms kind) (hlast : last ∈ e.constantTerms kind)
    (hne : first.path ≠ last.path) (hpin : kind = .multiplicative → first.pinned = false)
    (hv : w.const v ≤ w.const first.value + w.const last.value) :
    (e.perform (.collapse kind last.path v first.path)).tally w ≤ e.tally w := by
  have hfirst := mem_constantTerms.mp hfirst
  have hlast := mem_constantTerms.mp hlast
  obtain ⟨sp, hrem, hkept, -, hgone, hsp⟩ := exists_joinable hlast hfirst hne
  have hplace : sp.place ≠ first.path := by
    cases kind with
    | additive => exact place_ne_of_additive hrem.chain hsp
    | multiplicative => exact place_ne_of_not_pinned hfirst (hpin rfl) hsp
  have hmerge := tally_put_splice (f := .const v) hw hrem hkept hgone hsp hplace
  simp only [tally] at hmerge
  rw [perform, hsp]
  simp only
  omega

theorem tally_collapseAdditive (hw : w.Fair) (h : e.collapseAdditive = some m)
    (hmerge : ∀ first ∈ e.constantTerms .additive, ∀ last ∈ e.constantTerms .additive,
      w.const (first.merged last .additive) ≤ w.const first.value + w.const last.value) :
    (e.perform m).tally w ≤ e.tally w := by
  obtain ⟨first, hfirst, last, hlast, hne, rfl⟩ := collapseAdditive_spec h
  exact tally_collapse hw hfirst hlast hne nofun (hmerge first hfirst last hlast)

theorem tally_collapseMultiplicative (hw : w.Fair) (h : e.collapseMultiplicative = some m)
    (hmerge : ∀ first ∈ e.constantTerms .multiplicative, ∀ last ∈ e.constantTerms .multiplicative,
      w.const (first.merged last .multiplicative) ≤ w.const first.value + w.const last.value) :
    (e.perform m).tally w ≤ e.tally w := by
  obtain ⟨first, hfirst, last, hlast, hne, hpin, rfl⟩ := collapseMultiplicative_spec h
  exact tally_collapse hw hfirst hlast hne (fun _ => hpin) (hmerge first hfirst last hlast)

omit [Arithmetic α] in
/-- An operator counts at least one more than an operand. -/
theorem tally_operand (hx : e.operand? s = some x) : w.node + x.tally w ≤ e.tally w := by
  cases e <;> cases s <;> cases hx <;> rw [tally] <;> omega

/-- The argument of a logarithm moves to another one. -/
theorem tally_combineLogarithms (hw : w.Fair) (he : e.isFilled) (h : e.combineLogarithms st = some m) :
    (e.perform m).tally w ≤ e.tally w := by
  obtain ⟨kept, hk, t, ht, hne, hklog, htlog, rfl⟩ := combineLogarithms_spec h
  obtain ⟨sp, hrem, hkept, -, hgone, hsp⟩ := exists_joinable hk ht hne
  obtain ⟨y, hy, -⟩ := exists_argument (isFilled_part he hkept) hklog
  obtain ⟨x, hx, -⟩ := exists_argument (isFilled_part he hgone) htlog
  have hpart : e.part (t.path ++ [t.expr.argumentSlot]) = x :=
    part_of_at? (by rw [at?_append, hgone, Option.bind_some, at?_cons, hx]; rfl)
  rw [perform_joinLogarithms hkept hy hrem hsp, hpart]
  generalize (if kept.flipped = t.flipped then BinaryOp.mul else .div) = op
  -- the argument gets an operator, and the logarithm it comes from had one
  have hargument := tally_put (w := w)
    (show kept.expr.at? [kept.expr.argumentSlot] = some y by rw [at?_cons, hy]; rfl) (.binary op y x)
  have hmerge := tally_put_splice (f := kept.expr.put [kept.expr.argumentSlot] (.binary op y x)) hw
    hrem hkept hgone hsp (place_ne_of_additive hrem.chain hsp)
  have hlogarithm := tally_operand (w := w) hx
  simp only [tally] at hargument
  omega

/-- The exponent of a factor is without the base, or it is one. -/
theorem tally_exponent (ht : t.isFilled) : ∃ b : Expr α, b.isFilled ∧
    (t.build t.exponent).tally w + b.tally w ≤ t.tally w + w.const Arithmetic.one := by
  unfold exponent
  split
  · next hpow =>
    obtain ⟨l, r, rfl⟩ := hasOp_iff.mp hpow
    refine ⟨l, (Bool.and_eq_true_iff.mp ht).1, ?_⟩
    simp [build, part, at?_cons, operand?, tally]
    omega
  split
  · next hroot =>
    obtain ⟨l, r, rfl⟩ := hasOp_iff.mp hroot
    refine ⟨r, (Bool.and_eq_true_iff.mp ht).2, ?_⟩
    simp [build, part, at?_cons, operand?, tally]
    omega
  · refine ⟨t, ht, ?_⟩
    simp only [build, tally]
    omega

/-- A factor is turned into an exponent and its base goes.  A root becomes a power
before, which takes a quotient and a one, and the exponents get a sum. -/
theorem tally_combineExponents (hw : w.Fair) (he : e.isFilled) (h : e.combineExponents st = some m) :
    ∃ b : Expr α, b.isFilled ∧
      (e.perform m).tally w + b.tally w ≤ e.tally w + 2 * (w.node + w.const Arithmetic.one) := by
  obtain ⟨entry, hk, hbase, t, ht, hne, hpin, -, rfl⟩ := combineExponents_spec h
  obtain ⟨sp, hrem, hkept, -, hgone, hsp⟩ := exists_joinable hk ht hne
  obtain ⟨y, hpower, hy⟩ := exists_normalized hbase hkept
  generalize (if entry.term.flipped = t.flipped then BinaryOp.add else .sub) = op
  rw [perform_joinPowers hpower hrem hgone hsp]
  have hmerge := tally_put_splice (f := .binary .pow entry.base (.binary op y (t.expr.build t.expr.exponent)))
    hw hrem hkept hgone hsp (place_ne_of_not_pinned ht hpin hsp)
  simp only [tally] at hmerge
  obtain ⟨b, hb, hle⟩ := tally_exponent (w := w) (isFilled_part he hgone)
  refine ⟨b, hb, ?_⟩
  rcases hy with heq | ⟨d, heq, rfl⟩
  · rw [heq] at hmerge
    simp only [tally] at hmerge
    omega
  · rw [heq] at hmerge
    simp only [tally] at hmerge
    omega

/-! ### All rules -/

/-- What a rule makes counts no more than what it is applied to, unless exponents
are merged, if this is so where two constants become one and where a difference
becomes zero. -/
theorem tally_perform (hw : w.Fair) (he : e.isFilled) {rule : Rule} (hrule : rule ∈ e.rules)
    (h : rule.move? st e = some m) (hpowers : rule ≠ .combineExponents)
    (hcancel : rule = .simplifySubtraction → w.const Arithmetic.zero ≤ w.node)
    (hmerge : ∀ kind : ChainKind, rule = kind.collapseRule →
      ∀ first ∈ e.constantTerms kind, ∀ last ∈ e.constantTerms kind,
        w.const (first.merged last kind) ≤ w.const first.value + w.const last.value) :
    (e.perform m).tally w ≤ e.tally w := by
  cases decides_of_move? hrule h with
  | rebuild hsk => exact tally_of_rebuilds hw hsk hcancel
  | pushSign heq =>
      subst heq
      exact tally_pushSign hw _
  | collapseAdditive h => exact tally_collapseAdditive hw h (hmerge .additive rfl)
  | collapseMultiplicative h => exact tally_collapseMultiplicative hw h (hmerge .multiplicative rfl)
  | combineLogarithms h => exact tally_combineLogarithms hw he h
  | combineExponents => exact absurd rfl hpowers

omit [Arithmetic α] in
/-- Fractions are combined to a quotient of products. -/
theorem tally_fractions (b c d : Expr α) :
    (binary .div (binary .mul a c) (binary .mul b d)).tally w
      = (binary .mul (binary .div a b) (binary .div c d)).tally w := by
  simp only [tally]
  omega

end Expr

end Formula
