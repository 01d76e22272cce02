/-
Formula/Proofs/Simplify/Fragment.lean

Fragments of the language.  What a rule makes has few operators that were not there
before: a sum may become a difference, a difference a negation, a quotient a product,
a root a power.  So an expression whose operators are in a vocabulary that is closed
under this stays in the vocabulary (`Expr.Over.perform`).

A fragment is a vocabulary that has all of arithmetic, and powers where there are
roots.
-/
import Formula.Proofs.Simplify.Putting

namespace Formula

universe u

/-- Operators that expressions may have, with those that rules may put in their
place. -/
structure Vocabulary where
  unary : UnaryOp → Prop
  binary : BinaryOp → Prop
  sub_of_add : binary .add → binary .sub
  add_of_sub : binary .sub → binary .add
  neg_of_sub : binary .sub → unary .neg
  mul_of_div : binary .div → binary .mul
  mul_of_pow : binary .pow → binary .mul
  add_of_pow : binary .pow → binary .add
  pow_of_root : binary .root → binary .pow
  div_of_root : binary .root → binary .div
  div_of_log : binary .log → binary .div
  div_of_ln : unary .ln → binary .div

/-- Operators that expressions may have: those of arithmetic, and with roots also
powers. -/
structure Fragment where
  unary : UnaryOp → Prop
  binary : BinaryOp → Prop
  neg : unary .neg
  add : binary .add
  sub : binary .sub
  mul : binary .mul
  div : binary .div
  pow_of_root : binary .root → binary .pow

namespace Fragment

/-- Powers, roots and logarithms are excluded. -/
def arithmetic : Fragment where
  unary op := op ≠ .ln
  binary op := op ≠ .pow ∧ op ≠ .root ∧ op ≠ .log
  neg := by decide
  add := by decide
  sub := by decide
  mul := by decide
  div := by decide
  pow_of_root h := absurd rfl h.2.1

/-- The operators of a fragment. -/
def vocabulary (F : Fragment) : Vocabulary where
  unary := F.unary
  binary := F.binary
  sub_of_add _ := F.sub
  add_of_sub _ := F.add
  neg_of_sub _ := F.neg
  mul_of_div _ := F.mul
  mul_of_pow _ := F.mul
  add_of_pow _ := F.add
  pow_of_root := F.pow_of_root
  div_of_root _ := F.div
  div_of_log _ := F.div
  div_of_ln _ := F.div

end Fragment

variable {α : Type u} {V : Vocabulary} {F : Fragment}

/-- The sketch adds only operators of the vocabulary. -/
def Sketch.Over (V : Vocabulary) : Sketch α → Prop
  | unary op x => V.unary op ∧ x.Over V
  | binary op l r => V.binary op ∧ l.Over V ∧ r.Over V
  | _ => True

namespace Expr

/-- All operators of the expression are in the vocabulary. -/
def Over (V : Vocabulary) : Expr α → Prop
  | unary op x => V.unary op ∧ x.Over V
  | binary op l r => V.binary op ∧ l.Over V ∧ r.Over V
  | _ => True

/-- All operators of the expression are in the fragment. -/
def In (F : Fragment) : Expr α → Prop
  | unary op x => F.unary op ∧ x.In F
  | binary op l r => F.binary op ∧ l.In F ∧ r.In F
  | _ => True

theorem in_iff_over {e : Expr α} : e.In F ↔ e.Over F.vocabulary := by
  induction e with
  | hole | const | var => exact Iff.rfl
  | unary op x ih => exact and_congr_right' ih
  | binary op l r ihl ihr => exact and_congr_right' (and_congr ihl ihr)

variable {e f l r x : Expr α} {p : Path} {sk : Sketch α} {op : BinaryOp}

/-! ### Parts and what is made of them -/

namespace Over

theorem operand {s : Slot} (he : e.Over V) (h : e.operand? s = some f) : f.Over V := by
  cases e <;> cases s <;> cases h
  exacts [he.2, he.2.1, he.2.2]

theorem at? (he : e.Over V) (h : e.at? p = some f) : f.Over V := by
  induction p generalizing e with
  | nil => exact Option.some.inj h ▸ he
  | cons s p ih =>
      obtain ⟨y, hy, h⟩ := Option.bind_eq_some_iff.mp h
      exact ih (he.operand hy) h

theorem part (he : e.Over V) (p : Path) : (e.part p).Over V := by
  unfold Expr.part
  cases h : e.at? p with
  | none => exact he
  | some f => exact he.at? h

theorem build (he : e.Over V) (hsk : sk.Over V) : (e.build sk).Over V := by
  induction sk with
  | part p => exact he.part p
  | const v => trivial
  | unary op y ih => exact ⟨hsk.1, ih hsk.2⟩
  | binary op y z ihy ihz => exact ⟨hsk.1, ihy hsk.2.1, ihz hsk.2.2⟩

theorem put (he : e.Over V) (hf : f.Over V) : (e.put p f).Over V := by
  induction p generalizing e with
  | nil => simpa using hf
  | cons s p ih =>
      cases e <;> cases s
      case unary.operand => exact ⟨he.1, ih he.2⟩
      case binary.left => exact ⟨he.1, ih he.2.1, he.2.2⟩
      case binary.right => exact ⟨he.1, he.2.1, ih he.2.2⟩
      all_goals exact he

theorem rebuildAt (he : e.Over V) (hsk : sk.Over V) : (e.rebuildAt p sk).Over V :=
  he.put ((he.part p).build hsk)

theorem graft (he : e.Over V) (hf : f.Over V) (hop : V.binary op) : (e.graft op p f).Over V :=
  he.put (f := .binary op _ f) ⟨hop, he.part p, hf⟩

end Over

/-! ### Identities -/

theorem over_signChange (hneg : V.unary .neg) (change : SignChange α) : change.sketch.Over V := by
  cases change with
  | flip | unwrap => trivial
  | wrap => exact ⟨hneg, trivial⟩

variable [Arithmetic α] {s : Settings α} {m : Move α} {rule : Rule}

/-- The operators of a result are those of the expression, or may be put in their
place. -/
theorem over_of_rebuilds (he : e.Over V) (h : rule.Rebuilds s e sk) : sk.Over V := by
  cases h
  case add_neg | neg_add => exact ⟨V.sub_of_add he.1, trivial, trivial⟩
  case sub_neg => exact ⟨V.add_of_sub he.1, trivial, trivial⟩
  case zero_sub => exact ⟨V.neg_of_sub he.1, trivial⟩
  case neg_sub => exact ⟨he.2.1, trivial, trivial⟩
  case neg_mul_neg | neg_div_neg => exact ⟨he.1, trivial, trivial⟩
  case mul_one_div => exact ⟨he.2.2.1, trivial, trivial⟩
  case one_div_mul => exact ⟨he.2.1.1, trivial, trivial⟩
  case div_div => exact ⟨he.1, trivial, V.mul_of_div he.1, trivial, trivial⟩
  case div_by_div => exact ⟨he.1, ⟨V.mul_of_div he.1, trivial, trivial⟩, trivial⟩
  case pow_pow => exact ⟨he.1, trivial, V.mul_of_pow he.1, trivial, trivial⟩
  case pow_root => exact ⟨he.1, trivial, V.div_of_root he.2.1.1, trivial, trivial⟩
  case root_pow => exact ⟨V.pow_of_root he.1, trivial, V.div_of_root he.1, trivial, trivial⟩
  case root_root => exact ⟨he.1, ⟨V.mul_of_div (V.div_of_root he.1), trivial, trivial⟩, trivial⟩
  case log_root => exact ⟨V.div_of_root he.2.2.1, trivial, trivial⟩
  case ln_root => exact ⟨V.div_of_root he.2.1, trivial, trivial⟩
  -- the result of all others is a part or a constant
  all_goals trivial

/-! ### Chain rules -/

theorem over_splice {kind : ChainKind} {sp : Splice α} (he : e.Over V) (h : e.splice? kind p = some sp) :
    sp.sketch.Over V := by
  induction p generalizing e sp with
  | nil => cases h
  | cons slot p ih =>
      obtain ⟨x, hx, -⟩ := Option.bind_eq_some_iff.mp h
      rcases splice?_below_or_here h hx with ⟨sp', hsp', rfl⟩ | ⟨-, hhere⟩
      · have hbelow := ih (he.operand hx) hsp'
        cases sp' <;> exact hbelow
      · -- only a difference leaves a negation
        cases e with
        | hole | const | var => cases hx
        | unary op y =>
            cases slot <;> simp only [spliceHere?, reduceCtorEq] at hhere
            split at hhere <;> cases hhere
            trivial
        | binary op l r =>
            cases slot <;> simp only [spliceHere?, reduceCtorEq, Option.some.injEq] at hhere
            · split at hhere <;> cases hhere
              exacts [⟨V.neg_of_sub he.1, trivial⟩, trivial, trivial]
            · subst hhere
              trivial

theorem over_exponent (he : e.Over V) : e.exponent.Over V := by
  unfold exponent
  split
  · trivial
  split
  · next hroot =>
    obtain ⟨a, b, rfl⟩ := hasOp_iff.mp hroot
    exact ⟨V.div_of_root he.1, trivial, trivial⟩
  · trivial

theorem Over.collapse {kind : ChainKind} {kept removed : Path} {v : α} (he : e.Over V) :
    (e.perform (.collapse kind kept v removed)).Over V := by
  simp only [perform]
  split
  · next hsp => exact (he.put (f := .const v) trivial).rebuildAt (over_splice he hsp)
  · exact he

/-- What has the base of a logarithm is a logarithm. -/
theorem eq_logarithm (h : e.logBase?.isSome = true) :
    (∃ x, e = unary .ln x) ∨ ∃ b x, e = binary .log b x := by
  cases e with
  | unary op x =>
      obtain rfl : op = .ln := by simpa [logBase?] using h
      exact .inl ⟨x, rfl⟩
  | binary op b x =>
      obtain rfl : op = .log := by simpa [logBase?] using h
      exact .inr ⟨b, x, rfl⟩
  | _ => cases h

theorem Over.combineLogarithms (he : e.Over V) (h : e.combineLogarithms s = some m) :
    (e.perform m).Over V := by
  obtain ⟨kept, hkept, t, -, -, hlog, -, rfl⟩ := combineLogarithms_spec h
  have hkept := he.at? (at?_of_mem_termsFrom hkept).1
  have hdiv : V.binary .div := by
    rcases eq_logarithm hlog with ⟨x, hx⟩ | ⟨b, x, hx⟩
    · exact V.div_of_ln (hx ▸ hkept).1
    · exact V.div_of_log (hx ▸ hkept).1
  simp only [perform]
  split
  · next hsp =>
    refine Over.graft (he.rebuildAt (over_splice he hsp)) (he.part _) ?_
    split
    exacts [V.mul_of_div hdiv, hdiv]
  · exact he

theorem Over.combineExponents (he : e.Over V) (h : e.combineExponents s = some m) :
    (e.perform m).Over V := by
  obtain ⟨entry, hentry, hbase, t, ht, -, -, -, rfl⟩ := combineExponents_spec h
  have hpower := he.at? (at?_of_mem_termsFrom hentry).1
  have hfactor := he.at? (at?_of_mem_termsFrom ht).1
  have hpow : V.binary .pow := by
    rcases powerBase?_eq_some hbase with ⟨y, hy⟩ | ⟨d, hd⟩
    · exact (hy ▸ hpower).1
    · exact V.pow_of_root (hd ▸ hpower).1
  have hadd := V.add_of_pow hpow
  simp only [perform]
  split
  · next hsp =>
    refine Over.graft (Over.rebuildAt ?_ (over_splice he hsp)) ((he.part _).build (over_exponent hfactor)) ?_
    · split
      · next hroot =>
        obtain ⟨d, y, hd⟩ := hasOp_iff.mp hroot
        rw [hd] at hpower
        exact he.rebuildAt ⟨hpow, trivial, V.div_of_root hpower.1, trivial, trivial⟩
      · exact he
    · split
      exacts [hadd, V.sub_of_add hadd]
  · exact he

/-- Rules stay in the vocabulary. -/
theorem Over.perform (he : e.Over V) (hrule : rule ∈ e.rules) (h : rule.move? s e = some m) :
    (e.perform m).Over V := by
  cases decides_of_move? hrule h with
  | rebuild hsk => exact he.build (over_of_rebuilds he hsk)
  | pushSign heq =>
      subst heq
      exact (he.rebuildAt (over_signChange he.1 _)).part _
  | collapseAdditive h =>
      obtain ⟨first, -, last, -, -, rfl⟩ := collapseAdditive_spec h
      exact he.collapse
  | collapseMultiplicative h =>
      obtain ⟨first, -, last, -, -, -, rfl⟩ := collapseMultiplicative_spec h
      exact he.collapse
  | combineLogarithms h => exact he.combineLogarithms h
  | combineExponents h => exact he.combineExponents h

omit [Arithmetic α] in
/-- So does the combining of fractions. -/
theorem Over.fractions {a b c d : Expr α} (h : (binary .mul (binary .div a b) (binary .div c d)).Over V) :
    (binary .div (binary .mul a c) (binary .mul b d)).Over V := by
  obtain ⟨hmul, ⟨hdiv, ha, hb⟩, -, hc, hd⟩ := h
  exact ⟨hdiv, ⟨hmul, ha, hc⟩, hmul, hb, hd⟩

/-! ### Fragments -/

omit [Arithmetic α] in
theorem In.at? (he : e.In F) (h : e.at? p = some f) : f.In F :=
  in_iff_over.mpr ((in_iff_over.mp he).at? h)

/-- Rules stay in the fragment. -/
theorem In.perform (he : e.In F) (hrule : rule ∈ e.rules) (h : rule.move? s e = some m) :
    (e.perform m).In F :=
  in_iff_over.mpr ((in_iff_over.mp he).perform hrule h)

/-! ### Without powers -/

/-- Without powers there is nothing to merge factors into. -/
theorem Over.combineExponents_eq_none (he : e.Over V) (hpow : ¬V.binary .pow) :
    e.combineExponents s = none := by
  rw [Option.eq_none_iff_forall_not_mem]
  intro m h
  obtain ⟨entry, hentry, hbase, -⟩ := combineExponents_spec h
  have hpart := he.at? (at?_of_mem_termsFrom hentry).1
  rcases powerBase?_eq_some hbase with ⟨y, hy⟩ | ⟨d, hd⟩
  · exact hpow (hy ▸ hpart).1
  · exact hpow (V.pow_of_root (hd ▸ hpart).1)

theorem In.combineExponents_eq_none (he : e.In .arithmetic) : e.combineExponents s = none :=
  (in_iff_over.mp he).combineExponents_eq_none fun h => h.1 rfl

/-- Without logarithms there are none to be merged. -/
theorem In.combineLogarithms_eq_none (he : e.In .arithmetic) : e.combineLogarithms s = none := by
  rw [Option.eq_none_iff_forall_not_mem]
  intro m h
  obtain ⟨kept, hkept, -, -, -, hlog, -⟩ := combineLogarithms_spec h
  have hpart := he.at? (at?_of_mem_termsFrom hkept).1
  rcases eq_logarithm hlog with ⟨x, hx⟩ | ⟨b, x, hx⟩
  · exact (hx ▸ hpart).1 rfl
  · exact (hx ▸ hpart).1.2.2 rfl

end Expr

end Formula
