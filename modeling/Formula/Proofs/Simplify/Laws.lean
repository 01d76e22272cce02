/-
Formula/Proofs/Simplify/Laws.lean

What the chain rules need of logarithms and powers.  In an interpretation whose
chains are read in a group, two logarithms can be merged where the laws

    log b (u * v) = log b u + log b v,    log b (u / v) = log b u - log b v

hold for the arguments in the chain (`LogarithmLaws`), and two powers where

    b ^ 1 = b,   b ^ (s + t) = b ^ s * b ^ t,   b ^ (s - t) = b ^ s / b ^ t

hold for the bases and exponents in it, and roots are powers (`PowerLaws`).  Then
the value of the chain stays (`value_combineLogarithms`,
`value_combineExponents`).
-/
import Formula.Proofs.Simplify.Interpretation

namespace Formula

universe u v w

variable {α : Type u} {V : Type v} {G : Type w}

namespace Expr

variable {e b y z : Expr α}

/-- The argument of a logarithm. -/
def argument (e : Expr α) : Expr α := e.part [e.argumentSlot]

variable [Arithmetic α]

/-- What becomes of a logarithm that another one joins. -/
theorem graft_argument (h : e.logBase? = some b) (op : BinaryOp) (z : Expr α) :
    (e.graft op [e.argumentSlot] z).logBase? = some b ∧
      (e.graft op [e.argumentSlot] z).argument = .binary op e.argument z := by
  cases e with
  | unary op' x =>
      refine ⟨h, ?_⟩
      simp [graft, argument, argumentSlot, put, part, at?_cons, operand?]
  | binary op' l r =>
      refine ⟨h, ?_⟩
      simp [graft, argument, argumentSlot, put, part, at?_cons, operand?]
  | _ => cases h

theorem isTerm_of_logBase? (h : e.logBase? = some b) : e.IsTerm .additive := by
  cases e with
  | unary op x =>
      simp only [logBase?] at h
      split at h
      · next hop => simp [IsTerm, hop]
      · cases h
  | binary op l r =>
      simp only [logBase?] at h
      split at h
      · next hop => simp [IsTerm, hop, ChainKind.flips?]
      · cases h
  | _ => cases h

/-- A logarithm joins another one of the chain. -/
theorem perform_logarithms {kept t : ChainTerm α} {sp : Splice α} (op : BinaryOp) (he : e.isFilled)
    (hk : kept ∈ e.terms .additive) (ht : t ∈ e.terms .additive) (hne : t.path ≠ kept.path)
    (hklog : kept.expr.logBase?.isSome) (htlog : t.expr.logBase?.isSome)
    (hsp : e.splice? .additive t.path = some sp) :
    e.perform (.joinLogarithms op kept.path kept.expr.argumentSlot
        (t.path ++ [t.expr.argumentSlot]) t.path)
      = (e.put kept.path
          (kept.expr.graft op [kept.expr.argumentSlot] t.expr.argument)).splice sp := by
  have hkept := (at?_of_mem_termsFrom hk).1
  have hremoved := (at?_of_mem_termsFrom ht).1
  obtain ⟨y, hy, -⟩ := exists_argument (isFilled_part he hkept) hklog
  obtain ⟨z, hz, -⟩ := exists_argument (isFilled_part he hremoved) htlog
  have hslot : ∀ {f x : Expr α}, f.operand? f.argumentSlot = some x → f.argument = x := by
    intro f x hx
    exact part_of_at? (by rw [at?_cons, hx]; rfl)
  have hargument : e.part (t.path ++ [t.expr.argumentSlot]) = t.expr.argument := by
    rw [hslot hz]
    exact part_of_at? (by rw [at?_append, hremoved, Option.bind_some, at?_cons, hz]; rfl)
  rw [perform_joinLogarithms hkept hy (removable_of_terms hk ht hne) hsp, hargument, graft,
    show kept.expr.part [kept.expr.argumentSlot] = y from hslot hy]

/-! ### Factors as powers -/

/-- The base of a factor as a power; a factor that is no power is its own base. -/
def factorBase (e : Expr α) : Expr α := e.powerBase?.getD e

/-- The exponent of a factor as a power of its base. -/
def factorExponent (e : Expr α) : Expr α := e.build e.exponent

omit [Arithmetic α] in
theorem factorBase_of_powerBase? (h : e.powerBase? = some b) : e.factorBase = b := by
  rw [factorBase, h, Option.getD_some]

omit [Arithmetic α] in
theorem powerBase?_eq_none (h : e.powerBase? = none) :
    e.hasOp .pow = false ∧ e.hasOp .root = false := by
  cases e with
  | binary op l r =>
      simp only [powerBase?] at h
      split at h
      · cases h
      · split at h
        · cases h
        · next hpow hroot => simp [hasOp, hpow, hroot]
  | _ => exact ⟨rfl, rfl⟩

/-- A factor joins a power or root of the chain. -/
theorem perform_powers {kept t : ChainTerm α} {sp : Splice α} (op : BinaryOp)
    (hk : kept ∈ e.terms .multiplicative) (ht : t ∈ e.terms .multiplicative)
    (hne : t.path ≠ kept.path) (hbase : kept.expr.powerBase? = some b)
    (hsp : e.splice? .multiplicative t.path = some sp) :
    e.perform (.joinPowers op kept.path (kept.expr.hasOp .root) t.expr.exponent t.path)
      = (e.put kept.path (.binary .pow b
          (.binary op kept.expr.factorExponent t.expr.factorExponent))).splice sp := by
  obtain ⟨y, hy, hexponent⟩ := exists_normalized hbase (at?_of_mem_termsFrom hk).1
  have hkept : kept.expr.factorExponent = y := by
    rcases hexponent with hpow | ⟨d, hroot, rfl⟩
    · rw [hpow]
      rfl
    · rw [hroot]
      rfl
  rw [perform_joinPowers hy (removable_of_terms hk ht hne) (at?_of_mem_termsFrom ht).1 hsp, hkept]
  rfl

end Expr

namespace Interpretation

variable [Arithmetic α] {R : Interpretation α V} {s : Settings α} {e b f : Expr α} {m : Move α}

/-! ### Logarithms -/

/-- The argument `u` occurs under a logarithm to the base `b` among the terms of a
sum. -/
def HasArgument (R : Interpretation α V) (e : Expr α) (b u : V) : Prop :=
  ∃ t ∈ e.terms .additive, ∃ x, t.expr.logBase? = some x ∧ R.value x = b ∧
    R.value t.expr.argument = u

/-- The laws of logarithms for the arguments in a chain. -/
structure LogarithmLaws (R : Interpretation α V) (e : Expr α) : Prop where
  ln : ∀ u, R.unary .ln u = R.binary .log (R.const Arithmetic.euler) u
  mul : ∀ b u v, R.HasArgument e b u → R.HasArgument e b v →
    R.binary .log b (R.binary .mul u v) = R.binary .add (R.binary .log b u) (R.binary .log b v)
  div : ∀ b u v, R.HasArgument e b u → R.HasArgument e b v →
    R.binary .log b (R.binary .div u v) = R.binary .sub (R.binary .log b u) (R.binary .log b v)

/-- The natural logarithm is one to a base. -/
theorem LogarithmLaws.value_eq (hR : R.LogarithmLaws e) (h : f.logBase? = some b) :
    R.value f = R.binary .log (R.value b) (R.value f.argument) := by
  cases f with
  | unary op x =>
      simp only [Expr.logBase?] at h
      split at h
      · next hop =>
        cases h
        rw [hop]
        exact hR.ln (R.value x)
      · cases h
  | binary op l r =>
      simp only [Expr.logBase?] at h
      split at h
      · next hop =>
        cases h
        rw [hop]
        rfl
      · cases h
  | _ => cases h

/-- The value of a sum stays when a logarithm joins another one. -/
theorem value_combineLogarithms [AddCommGroup G] {ι : G → V} (hR : R.ReadsSums ι)
    (hconst : R.Respects) (hlaws : R.LogarithmLaws e) (hterms : R.HasTerms .additive ι e)
    (hε : s.epsilon = Arithmetic.zero) (he : e.isFilled) (h : e.combineLogarithms s = some m) :
    R.value (e.perform m) = R.value e := by
  obtain ⟨early, kept, between, t, late, hlist, ⟨b, c, hb, hc, hequals⟩, -, rfl⟩ :=
    Expr.exists_of_combineLogarithms h
  obtain ⟨hk, ht, hapart⟩ := Expr.mem_of_terms_eq hlist
  obtain ⟨sp, hjoin⟩ := Expr.exists_joinable hk ht hapart.ne
  have hsp := hjoin.splice?_eq
  -- both are logarithms to a base of one value
  rw [hε] at hequals
  have hvalue := hlaws.value_eq hb
  have hvalue' := hlaws.value_eq hc
  rw [← hconst.value_eq hequals] at hvalue'
  have harg : R.HasArgument e (R.value b) (R.value kept.expr.argument) := ⟨kept, hk, b, hb, rfl, rfl⟩
  have harg' : R.HasArgument e (R.value b) (R.value t.expr.argument) :=
    ⟨t, ht, c, hc, (hconst.value_eq hequals).symm, rfl⟩
  rw [Expr.perform_logarithms _ he hk ht hapart.ne (by simp [hb]) (by simp [hc]) hsp]
  -- equal flags ask for the product of the arguments, different ones for the quotient
  have hmerge : ∀ op op', ChainKind.flips? .additive op' = some (kept.flipped != t.flipped) →
      R.binary .log (R.value b) (R.binary op (R.value kept.expr.argument) (R.value t.expr.argument))
        = R.binary op' (R.value kept.expr) (R.value t.expr) →
      R.value ((e.put kept.path
        (kept.expr.graft op [kept.expr.argumentSlot] t.expr.argument)).splice sp) = R.value e := by
    intro op op' hop hjoin
    obtain ⟨hlog, harg⟩ := Expr.graft_argument hb op t.expr.argument
    refine hR.readsChain.value_merge hterms hk ht hapart hsp
      (Expr.place_ne_of_additive (Expr.at?_of_mem_termsFrom ht).2 hsp) (Expr.isTerm_of_logBase? hlog)
      hop ?_
    rw [hlaws.value_eq hlog, harg, value, hjoin]
  by_cases hflip : kept.flipped = t.flipped
  · rw [if_pos hflip]
    refine hmerge .mul .add (by rw [hflip, bne_self_eq_false]; rfl) ?_
    rw [hlaws.mul _ _ _ harg harg', hvalue, hvalue']
  · rw [if_neg hflip]
    refine hmerge .div .sub (by rw [bne_iff_ne.mpr hflip]; rfl) ?_
    rw [hlaws.div _ _ _ harg harg', hvalue, hvalue']

/-! ### Powers -/

/-- A power or root of the base `b` is among the factors of a product. -/
def HasBase (R : Interpretation α V) (e : Expr α) (b : V) : Prop :=
  ∃ t ∈ e.terms .multiplicative, ∃ x, t.expr.powerBase? = some x ∧ R.value x = b

/-- A power of the base `b` with the exponent `c` is among the factors of a
product, if roots and bare factors count as powers. -/
def HasExponent (R : Interpretation α V) (e : Expr α) (b c : V) : Prop :=
  ∃ t ∈ e.terms .multiplicative, R.value t.expr.factorBase = b ∧ R.value t.expr.factorExponent = c

/-- The laws of powers for the bases and exponents in a chain. -/
structure PowerLaws (R : Interpretation α V) (e : Expr α) : Prop where
  one : ∀ b, R.HasBase e b → R.binary .pow b (R.const Arithmetic.one) = b
  root : ∀ n b, R.HasBase e b →
    R.binary .root n b = R.binary .pow b (R.binary .div (R.const Arithmetic.one) n)
  add : ∀ b c d, R.HasBase e b → R.HasExponent e b c → R.HasExponent e b d →
    R.binary .pow b (R.binary .add c d) = R.binary .mul (R.binary .pow b c) (R.binary .pow b d)
  sub : ∀ b c d, R.HasBase e b → R.HasExponent e b c → R.HasExponent e b d →
    R.binary .pow b (R.binary .sub c d) = R.binary .div (R.binary .pow b c) (R.binary .pow b d)

/-- Every factor is a power of its base. -/
theorem PowerLaws.value_eq (hR : R.PowerLaws e) (h : R.HasBase e (R.value f.factorBase)) :
    R.value f = R.binary .pow (R.value f.factorBase) (R.value f.factorExponent) := by
  cases hbase : f.powerBase? with
  | none =>
      obtain ⟨hpow, hroot⟩ := Expr.powerBase?_eq_none hbase
      have hbare : f.factorBase = f := by rw [Expr.factorBase, hbase, Option.getD_none]
      have hone : f.factorExponent = .const Arithmetic.one := by
        simp [Expr.factorExponent, Expr.exponent, hpow, hroot, Expr.build]
      rw [hbare] at h ⊢
      rw [hone]
      exact (hR.one _ h).symm
  | some b =>
      rw [Expr.factorBase_of_powerBase? hbase] at h ⊢
      rcases Expr.powerBase?_eq_some hbase with ⟨y, rfl⟩ | ⟨d, rfl⟩
      · rfl
      · exact hR.root _ _ h

/-- The value of a product stays when a factor joins a power of its base. -/
theorem value_combineExponents [CommGroup G] {ι : G → V} {c : G} (hR : R.ReadsProducts ι c)
    (hconst : R.Respects) (hlaws : R.PowerLaws e) (hterms : R.HasTerms .multiplicative ι e)
    (hε : s.epsilon = Arithmetic.zero) (h : e.combineExponents s = some m) :
    R.value (e.perform m) = R.value e := by
  obtain ⟨⟨b, kept⟩, hk, hbase, t, ht, hne, hpin, hequals, rfl⟩ := Expr.combineExponents_spec h
  simp only at hk hbase hne hequals
  obtain ⟨sp, hrem, -, -, -, hsp⟩ := Expr.exists_joinable hk ht hne
  -- both are powers of a base of one value
  rw [hε] at hequals
  have hb : R.value t.expr.factorBase = R.value b := (hconst.value_eq hequals).symm
  have hkeptBase := Expr.factorBase_of_powerBase? hbase
  have hhas : R.HasBase e (R.value b) := ⟨kept, hk, b, hbase, rfl⟩
  have hvalue := hlaws.value_eq (hkeptBase ▸ hhas)
  have hvalue' := hlaws.value_eq (hb ▸ hhas)
  rw [hkeptBase] at hvalue
  rw [hb] at hvalue'
  have hexp : R.HasExponent e (R.value b) (R.value kept.expr.factorExponent) :=
    ⟨kept, hk, by rw [hkeptBase], rfl⟩
  have hexp' : R.HasExponent e (R.value b) (R.value t.expr.factorExponent) := ⟨t, ht, hb, rfl⟩
  rw [Expr.perform_powers _ hk ht hne hbase hsp]
  -- equal flags ask for the sum of the exponents, different ones for the difference
  have hmerge : ∀ op op', ChainKind.flips? .multiplicative op' = some (kept.flipped != t.flipped) →
      R.binary .pow (R.value b)
          (R.binary op (R.value kept.expr.factorExponent) (R.value t.expr.factorExponent))
        = R.binary op' (R.value kept.expr) (R.value t.expr) →
      R.value ((e.put kept.path (.binary .pow b
        (.binary op kept.expr.factorExponent t.expr.factorExponent))).splice sp) = R.value e := by
    intro op op' hop hjoin
    refine hR.readsChain.value_merge hterms hk ht hrem.apart hsp
      (Expr.place_ne_of_not_pinned ht hpin hsp) (by rfl) hop ?_
    rw [value, value, hjoin]
  by_cases hflip : kept.flipped = t.flipped
  · rw [if_pos hflip]
    refine hmerge .add .mul (by rw [hflip, bne_self_eq_false]; rfl) ?_
    rw [hlaws.add _ _ _ hhas hexp hexp', hvalue, hvalue']
  · rw [if_neg hflip]
    refine hmerge .sub .div (by rw [bne_iff_ne.mpr hflip]; rfl) ?_
    rw [hlaws.sub _ _ _ hhas hexp hexp', hvalue, hvalue']

end Interpretation

end Formula
