/-
Formula/Proofs/Simplify/Fits.lean

What rules decide fits the tree.  A move fits an expression (`Move.Fits`) if the
places that it names are there, if no two parts overlap that are used or kept,
and if what it puts in weighs no more than what it takes out.  Every move that a
rule decides on fits (`fits_of_move?`), so carrying out a move never meets a
missing part.
-/
import Formula.Proofs.Simplify.Decisions
import Formula.Proofs.Simplify.Weight

namespace Formula

universe u

open Path (Apart)

variable {α : Type u}

/-- A sketch uses proper parts that do not overlap, and makes nothing of greater
weight of them. -/
structure Sketch.Shrinks (sk : Sketch α) (e : Expr α) : Prop extends sk.Fits e where
  proper : ∀ p ∈ sk.parts, p ≠ []
  weight : (e.build sk).weight ≤ e.weight

/-- The factor can take up a minus sign in that way. -/
def SignChange.Fits : SignChange α → Expr α → Prop
  | flip _, x => ∃ w, x = .const w
  | unwrap, x => ∃ y, x = .unary .neg y
  | wrap, _ => True

/-- A term can be taken out of a chain while another part stays. -/
structure Removable (kind : ChainKind) (e : Expr α) (kept removed : Path) : Prop where
  chain : ChainPath kind e removed
  isSome : (e.at? removed).isSome
  apart : Apart removed kept

/-- A term that another one stays behind for can be taken out. -/
theorem Removable.exists_splice [Arithmetic α] {kind : ChainKind} {e : Expr α} {kept removed : Path}
    (h : Removable kind e kept removed) (hkept : (e.at? kept).isSome) :
    ∃ sp, e.splice? kind removed = some sp :=
  Option.isSome_iff_exists.mp (Expr.isSome_splice? h.isSome hkept h.apart)

/-- The move can be carried out. -/
inductive Move.Fits [Arithmetic α] (e : Expr α) : Move α → Prop
  | rebuild {sk : Sketch α} : sk.Shrinks e → Fits e (.rebuild sk)
  | pushSign {x f : Expr α} {s : Slot} {p : Path} {change : SignChange α} : e = .unary .neg x →
      x.at? (s :: p) = some f → change.Fits f → Fits e (.pushSign (.operand :: s :: p) change)
  | collapse {kind : ChainKind} {kept removed : Path} {v w : α} : e.at? kept = some (.const w) →
      Removable kind e kept removed → Fits e (.collapse kind kept v removed)
  | joinLogarithms {op : BinaryOp} {kept removed : Path} {slot s : Slot} {a b t : Expr α} :
      op ≠ .root → e.at? (kept ++ [slot]) = some a → Removable .additive e kept removed →
      e.at? removed = some t → t.operand? s = some b → b.weight + 2 ≤ t.weight →
      Fits e (.joinLogarithms op kept slot (removed ++ [s]) removed)
  | joinPowers {op : BinaryOp} {kept removed : Path} {fromRoot : Bool} {exponent : Sketch α}
      {l r t : Expr α} : op ≠ .root →
      e.at? kept = some (.binary (if fromRoot then .root else .pow) l r) →
      Removable .multiplicative e kept removed →
      (∀ sp, e.splice? .multiplicative removed = some sp → sp.place ≠ removed) →
      e.at? removed = some t → exponent.Fits t → (t.build exponent).weight ≤ t.weight →
      Fits e (.joinPowers op kept fromRoot exponent removed)

namespace Expr

/-! ### Sketches that shrink -/

/-- Parts of different operands are apart. -/
theorem apart_operands (p q : Path) : Apart (.left :: p) (.right :: q) :=
  Path.Apart.of_ne (by decide) p q

theorem shrinks_part {e a : Expr α} {s : Slot} {p : Path} (h : e.at? (s :: p) = some a) :
    (Sketch.part (s :: p)).Shrinks e where
  isSome := by simp [Sketch.parts, h]
  apart := by simp [Sketch.parts]
  proper := by simp [Sketch.parts]
  weight := by simpa [build, part_of_at? h] using weight_part h

theorem shrinks_const {e : Expr α} (v : α) (h : 1 ≤ e.weight) : (Sketch.const v).Shrinks e where
  isSome := by simp [Sketch.parts]
  apart := by simp [Sketch.parts]
  proper := by simp [Sketch.parts]
  weight := h

/-! ### Factors -/

/-- The factor that takes up a minus sign is a proper part of a product, and can
take it up. -/
theorem signAbsorber?_at? {e : Expr α} {p : Path} (h : e.signAbsorber? = some p) :
    (∃ v, e.at? p = some (.const v)) ∨ ∃ y, e.at? p = some (.unary .neg y) := by
  induction e generalizing p with
  | hole | var => cases h
  | const v =>
      cases h
      exact .inl ⟨v, rfl⟩
  | unary op x =>
      simp only [signAbsorber?] at h
      split at h <;> cases h
      next hop => exact .inr ⟨x, by rw [hop]; rfl⟩
  | binary op l r ihl ihr =>
      simp only [signAbsorber?] at h
      split at h
      · split at h
        · next q hq =>
          cases h
          exact ihl hq
        · obtain ⟨q, hq, rfl⟩ := Option.map_eq_some_iff.mp h
          exact ihr hq
      · cases h

theorem isSome_leftmostFactor (e : Expr α) : (e.at? e.leftmostFactor).isSome := by
  induction e with
  | binary op l r ihl =>
      rw [leftmostFactor]
      split
      · exact ihl
      · rfl
  | _ => rfl

theorem chainPath_signAbsorber? {e : Expr α} {p : Path} (h : e.signAbsorber? = some p) :
    ChainPath .multiplicative e p := by
  induction e generalizing p with
  | hole | var => cases h
  | const =>
      cases h
      exact .here
  | unary op x =>
      simp only [signAbsorber?] at h
      split at h <;> cases h
      exact .here
  | binary op l r ihl ihr =>
      simp only [signAbsorber?, Bool.or_eq_true, decide_eq_true_eq] at h
      split at h
      · next hop =>
        have hflips : (ChainKind.multiplicative.flips? op).isSome := by
          rcases hop with rfl | rfl <;> rfl
        split at h
        · next q hq =>
          cases h
          exact .left hflips (ihl hq)
        · obtain ⟨q, hq, rfl⟩ := Option.map_eq_some_iff.mp h
          exact .right hflips (ihr hq)
      · cases h

theorem chainPath_leftmostFactor (e : Expr α) : ChainPath .multiplicative e e.leftmostFactor := by
  induction e with
  | binary op l r ihl =>
      simp only [leftmostFactor, Bool.or_eq_true, decide_eq_true_eq]
      split
      · next hop => exact .left (by rcases hop with rfl | rfl <;> rfl) ihl
      · exact .here
  | _ => exact .here

/-! ### Terms -/

theorem removable_of_terms {kind : ChainKind} {e : Expr α} {kept removed : ChainTerm α}
    (hk : kept ∈ e.terms kind) (hr : removed ∈ e.terms kind) (hne : removed.path ≠ kept.path) :
    Removable kind e kept.path removed.path where
  chain := (at?_of_mem_termsFrom hr).2
  isSome := Option.isSome_of_eq_some (at?_of_mem_termsFrom hr).1
  apart := apart_of_mem_terms hr hk hne

/-- One term of a chain can join another one, which stays: it is there, so is the other
one, and it can be taken out. -/
structure Joinable [Arithmetic α] (kind : ChainKind) (e : Expr α) (kept gone : ChainTerm α)
    (sp : Splice α) : Prop extends Removable kind e kept.path gone.path where
  at?_kept : e.at? kept.path = some kept.expr
  chain_kept : ChainPath kind e kept.path
  at?_gone : e.at? gone.path = some gone.expr
  splice?_eq : e.splice? kind gone.path = some sp

/-- Any term of a chain can join any other one. -/
theorem exists_joinable [Arithmetic α] {kind : ChainKind} {e : Expr α} {kept gone : ChainTerm α}
    (hk : kept ∈ e.terms kind) (ht : gone ∈ e.terms kind) (hne : gone.path ≠ kept.path) :
    ∃ sp, e.Joinable kind kept gone sp := by
  have hrem := removable_of_terms hk ht hne
  obtain ⟨hkept, hpath⟩ := at?_of_mem_termsFrom hk
  obtain ⟨sp, hsp⟩ := hrem.exists_splice (Option.isSome_of_eq_some hkept)
  exact ⟨sp, hrem, hkept, hpath, (at?_of_mem_termsFrom ht).1, hsp⟩

theorem ofTerm?_eq_some {t : ChainTerm α} {c : ConstantTerm α} :
    ConstantTerm.ofTerm? t = some c ↔ t = ⟨.const c.value, c.flipped, c.pinned, c.path⟩ := by
  obtain ⟨e, flipped, pinned, path⟩ := t
  cases c
  cases e <;> simp [ConstantTerm.ofTerm?]

/-- Constants are terms. -/
theorem mem_constantTerms {kind : ChainKind} {e : Expr α} {c : ConstantTerm α} :
    c ∈ e.constantTerms kind ↔ ⟨.const c.value, c.flipped, c.pinned, c.path⟩ ∈ e.terms kind := by
  simp [constantTerms, List.mem_filterMap, ofTerm?_eq_some]

/-- Different constants have different paths. -/
theorem pairwise_constantTerms (kind : ChainKind) (e : Expr α) :
    (e.constantTerms kind).Pairwise fun c c' => c.path ≠ c'.path := by
  refine List.pairwise_filterMap.mpr ((pairwise_apart_termsFrom kind e false false).imp ?_)
  intro t t' hapart c hc c' hc'
  rw [ofTerm?_eq_some.mp hc, ofTerm?_eq_some.mp hc'] at hapart
  exact hapart.ne

theorem mem_of_survivor? {consts : List (ConstantTerm α)} {c : ConstantTerm α}
    (h : ConstantTerm.survivor? consts = some c) : c ∈ consts := by
  unfold ConstantTerm.survivor? at h
  split at h
  · next c' hc =>
    cases h
    exact List.mem_of_mem_filter (List.mem_of_getLast? hc)
  · exact List.mem_of_getLast? h

/-! ### Identities -/

variable [Arithmetic α] {s : Settings α} {l r : Expr α} {sk : Sketch α}

/-- An identity uses proper parts that do not overlap, and what it makes of them is
not heavier. -/
theorem shrinks_of_rebuilds {rule : Rule} {e : Expr α} (h : rule.Rebuilds s e sk) : sk.Shrinks e where
  isSome := by cases h <;> simp [Sketch.parts, at?_cons, operand?]
  apart := by cases h <;> simp [Sketch.parts, Apart, List.cons_prefix_cons]
  proper := by cases h <;> simp [Sketch.parts]
  weight := by
    cases h
    case zero_sub hl =>
      -- the zero that goes makes up for the negation, which weighs two
      obtain ⟨w, rfl, -⟩ := isValue_iff.mp hl
      simp [build, part, at?_cons, operand?, weight]
      omega
    all_goals simp [build, part, at?_cons, operand?, weight] <;> omega

/-! ### Signs -/

/-- Products and quotients have no factor at the empty path. -/
theorem signChange_ne_nil {x : Expr α} (h : x.isFactored = true) : x.signChange.1 ≠ [] := by
  cases x with
  | binary op l r =>
      have hop : (op = .mul || op = .div) = true := by simpa [isFactored, hasOp] using h
      have habsorber : ∀ p, (binary op l r).signAbsorber? = some p → p ≠ [] := by
        intro p hp
        simp only [signAbsorber?, hop, if_true] at hp
        split at hp
        · cases hp
          simp
        · obtain ⟨q, -, rfl⟩ := Option.map_eq_some_iff.mp hp
          simp
      unfold signChange
      split
      · rw [leftmostFactor, if_pos hop]
        simp
      · next p hp =>
        split <;> exact habsorber p hp
  | _ => simp [isFactored, hasOp] at h

/-- How a factor takes up a minus sign: the first constant gets the opposite value, or
the first negation goes, whichever comes first, or else the leftmost factor gets a
negation. -/
inductive Absorbs (x : Expr α) : Path → Expr α → SignChange α → Prop
  | flip {p : Path} {v : α} : x.signAbsorber? = some p → x.at? p = some (const v) →
      Absorbs x p (const v) (.flip (Arithmetic.unary .neg v))
  | unwrap {p : Path} {y : Expr α} : x.signAbsorber? = some p → x.at? p = some (unary .neg y) →
      Absorbs x p (unary .neg y) .unwrap
  | wrap {f : Expr α} : x.signAbsorber? = none → x.at? x.leftmostFactor = some f →
      Absorbs x x.leftmostFactor f .wrap

theorem exists_absorbs (x : Expr α) : ∃ f, x.Absorbs x.signChange.1 f x.signChange.2 := by
  unfold signChange
  split
  · next hnone =>
    obtain ⟨f, hf⟩ := Option.isSome_iff_exists.mp (isSome_leftmostFactor x)
    exact ⟨f, .wrap hnone hf⟩
  · next p hp =>
    rcases signAbsorber?_at? hp with ⟨v, hv⟩ | ⟨y, hy⟩
    · rw [hv]
      exact ⟨_, .flip hp hv⟩
    · rw [hy]
      exact ⟨_, .unwrap hp hy⟩

namespace Absorbs

variable {x f : Expr α} {p : Path} {change : SignChange α}

theorem at? (h : x.Absorbs p f change) : x.at? p = some f := by
  cases h <;> assumption

theorem chainPath (h : x.Absorbs p f change) : ChainPath .multiplicative x p := by
  cases h with
  | flip hp | unwrap hp => exact chainPath_signAbsorber? hp
  | wrap => exact chainPath_leftmostFactor x

theorem fits (h : x.Absorbs p f change) : change.Fits f := by
  cases h with
  | flip | unwrap => exact ⟨_, rfl⟩
  | wrap => trivial

end Absorbs

theorem signChange_fits (x : Expr α) :
    ∃ f, x.at? x.signChange.1 = some f ∧ x.signChange.2.Fits f := by
  obtain ⟨f, habsorbs⟩ := exists_absorbs x
  exact ⟨f, habsorbs.at?, habsorbs.fits⟩

/-! ### Constants -/

/-- The constants of a sum of which one is added to the other. -/
theorem collapseAdditive_spec {e : Expr α} {m : Move α} (h : e.collapseAdditive = some m) :
    ∃ first ∈ e.constantTerms .additive, ∃ last ∈ e.constantTerms .additive,
      first.path ≠ last.path ∧
        m = .collapse .additive last.path
          (if last.flipped then Arithmetic.unary .neg (Arithmetic.binary .add first.signed last.signed)
            else Arithmetic.binary .add first.signed last.signed) first.path := by
  unfold collapseAdditive at h
  split at h
  · next first second rest hconsts =>
    cases h
    have hpair := pairwise_constantTerms .additive e
    have hmem : ∀ c ∈ first :: second :: rest, c ∈ e.constantTerms .additive := fun c hc => hconsts ▸ hc
    rw [hconsts] at hpair
    exact ⟨first, hmem _ (by simp), _, hmem _ (List.mem_cons_of_mem _ (List.getLast_mem _)),
      (List.pairwise_cons.mp hpair).1 _ (List.getLast_mem _), rfl⟩
  · cases h

/-- The constants of a product of which one is multiplied into the other. -/
theorem collapseMultiplicative_spec {e : Expr α} {m : Move α}
    (h : e.collapseMultiplicative = some m) :
    ∃ first ∈ e.constantTerms .multiplicative, ∃ last ∈ e.constantTerms .multiplicative,
      first.path ≠ last.path ∧ first.pinned = false ∧
        m = .collapse .multiplicative last.path
          (if last.flipped then Arithmetic.binary .div Arithmetic.one
            (Arithmetic.binary .mul first.scaled last.scaled)
            else Arithmetic.binary .mul first.scaled last.scaled) first.path := by
  simp only [collapseMultiplicative, bind, Option.bind_eq_some_iff, pure, Option.some.injEq] at h
  obtain ⟨last, hlast, first, hfirst, rfl⟩ := h
  have htest := List.find?_some hfirst
  simp only [Bool.and_eq_true, Bool.not_eq_true', bne_iff_ne, ne_eq] at htest
  exact ⟨first, List.mem_of_find?_eq_some hfirst, last, mem_of_survivor? hlast, htest.2, htest.1, rfl⟩

theorem fits_collapse {kind : ChainKind} {e : Expr α} {kept removed : ConstantTerm α} (v : α)
    (hr : removed ∈ e.constantTerms kind) (hk : kept ∈ e.constantTerms kind)
    (hne : removed.path ≠ kept.path) : (Move.collapse kind kept.path v removed.path).Fits e := by
  have ht := mem_constantTerms.mp hk
  exact .collapse (at?_of_mem_termsFrom ht).1 (removable_of_terms ht (mem_constantTerms.mp hr) hne)

theorem fits_collapseAdditive {e : Expr α} {m : Move α} (h : e.collapseAdditive = some m) :
    m.Fits e := by
  obtain ⟨first, hfirst, last, hlast, hne, rfl⟩ := collapseAdditive_spec h
  exact fits_collapse _ hfirst hlast hne

theorem fits_collapseMultiplicative {e : Expr α} {m : Move α}
    (h : e.collapseMultiplicative = some m) : m.Fits e := by
  obtain ⟨first, hfirst, last, hlast, hne, -, rfl⟩ := collapseMultiplicative_spec h
  exact fits_collapse _ hfirst hlast hne

/-! ### Logarithms -/

/-- Both are logarithms, to bases that are equal up to the tolerance. -/
def SameLogBase (ε : α) (e f : Expr α) : Prop :=
  ∃ b c, e.logBase? = some b ∧ f.logBase? = some c ∧ b.equals ε c = true

/-- The logarithms among some terms, as entries. -/
def logEntries (ts : List (ChainTerm α)) : List (Entry α) :=
  ts.filterMap fun t => t.expr.logBase?.map (⟨·, t⟩)

section

variable {ε : α} {t : ChainTerm α} {ts before rest : List (ChainTerm α)} {entry : Entry α}
  {b : Expr α}

theorem lookup?_logEntries_eq_none (hb : t.expr.logBase? = some b) :
    Entry.lookup? ε b (logEntries ts) = none ↔ ∀ u ∈ ts, ¬u.expr.SameLogBase ε t.expr := by
  simp only [Entry.lookup?, logEntries, List.find?_eq_none, List.mem_filterMap, SameLogBase]
  constructor
  · rintro h u hu ⟨c, d, hc, hd, heq⟩
    obtain rfl := Option.some.inj (hb.symm.trans hd)
    exact h ⟨c, u⟩ ⟨u, hu, by rw [hc, Option.map_some]⟩ heq
  · rintro h e ⟨u, hu, he⟩ heq
    obtain ⟨c, hc, rfl⟩ := Option.map_eq_some_iff.mp he
    exact h u hu ⟨c, b, hc, hb, heq⟩

/-- The entry that is found is the first one of that base. -/
theorem exists_of_lookup?_logEntries (hb : t.expr.logBase? = some b)
    (h : Entry.lookup? ε b (logEntries ts) = some entry) :
    ∃ early between, ts = early ++ entry.term :: between ∧
      entry.term.expr.SameLogBase ε t.expr ∧ ∀ u ∈ early, ¬u.expr.SameLogBase ε t.expr := by
  induction ts with
  | nil => cases h
  | cons u ts ih =>
      by_cases hu : u.expr.SameLogBase ε t.expr
      · obtain ⟨c, d, hc, hd, heq⟩ := hu
        obtain rfl := Option.some.inj (hb.symm.trans hd)
        obtain rfl : (⟨c, u⟩ : Entry α) = entry := by
          simpa [Entry.lookup?, logEntries, hc, heq] using h
        exact ⟨[], ts, rfl, ⟨c, b, hc, hb, heq⟩, by simp⟩
      · have hrest : Entry.lookup? ε b (logEntries ts) = some entry := by
          rw [← h]
          cases hc : u.expr.logBase? with
          | none => simp [Entry.lookup?, logEntries, hc]
          | some c =>
              have hne : c.equals ε b = false := by
                rw [Bool.eq_false_iff]
                exact fun heq => hu ⟨c, b, hc, hb, heq⟩
              simp [Entry.lookup?, logEntries, hc, hne]
        obtain ⟨early, between, rfl, hsame, hfirst⟩ := ih hrest
        refine ⟨u :: early, between, rfl, hsame, fun v hv => ?_⟩
        rcases List.mem_cons.mp hv with rfl | hv
        · exact hu
        · exact hfirst v hv

theorem logEntries_concat (ts : List (ChainTerm α)) (u : ChainTerm α) :
    logEntries (ts ++ [u]) = logEntries ts ++ logEntries [u] := List.filterMap_append

/-- As long as no two logarithms have a base in common, all of them are entries. -/
theorem logPair?_eq_none_iff (h : before.Pairwise fun t u => ¬t.expr.SameLogBase ε u.expr) :
    logPair? ε (logEntries before) rest = none ↔
      (before ++ rest).Pairwise fun t u => ¬t.expr.SameLogBase ε u.expr := by
  induction rest generalizing before with
  | nil => simpa [logPair?] using h
  | cons u rest ih =>
      have hconcat : (∀ t ∈ before, ¬t.expr.SameLogBase ε u.expr) →
          (before ++ [u]).Pairwise fun t u => ¬t.expr.SameLogBase ε u.expr := by
        intro hu
        rw [List.pairwise_append]
        exact ⟨h, List.pairwise_singleton _ _, fun t ht v hv => List.mem_singleton.mp hv ▸ hu t ht⟩
      rw [logPair?]
      cases hb : u.expr.logBase? with
      | none =>
          have hne : ∀ t ∈ before, ¬t.expr.SameLogBase ε u.expr := by
            rintro t - ⟨-, c, -, hc, -⟩
            cases hb.symm.trans hc
          have hentries : logEntries (before ++ [u]) = logEntries before := by
            rw [logEntries_concat]
            simp [logEntries, hb]
          rw [← hentries, ih (hconcat hne), List.append_assoc, List.singleton_append]
      | some b =>
          simp only
          split
          · next e hlookup =>
            obtain ⟨early, between, rfl, hsame, -⟩ := exists_of_lookup?_logEntries hb hlookup
            refine iff_of_false (by simp) fun hpair => ?_
            exact (List.pairwise_append.mp hpair).2.2 e.term (by simp) u (by simp) hsame
          · next hlookup =>
            have hentries : logEntries (before ++ [u]) = logEntries before ++ [⟨b, u⟩] := by
              rw [logEntries_concat]
              simp [logEntries, hb]
            rw [← hentries, ih (hconcat ((lookup?_logEntries_eq_none hb).mp hlookup)),
              List.append_assoc, List.singleton_append]

/-- The entry of a pair is the first logarithm of that base, before the one that
joins it. -/
theorem exists_of_logPair? (h : logPair? ε (logEntries before) rest = some (entry, t)) :
    ∃ early between late, before ++ rest = early ++ entry.term :: (between ++ t :: late) ∧
      entry.term.expr.SameLogBase ε t.expr ∧ ∀ u ∈ early, ¬u.expr.SameLogBase ε t.expr := by
  induction rest generalizing before with
  | nil => cases h
  | cons u rest ih =>
      rw [← List.singleton_append, ← List.append_assoc]
      rw [logPair?] at h
      split at h
      · next hb =>
        refine ih ?_
        rw [logEntries_concat]
        simpa [logEntries, hb] using h
      · next b hb =>
        split at h
        · next e hlookup =>
          cases h
          obtain ⟨early, between, rfl, hsame, hfirst⟩ := exists_of_lookup?_logEntries hb hlookup
          exact ⟨early, between, rest, by simp, hsame, hfirst⟩
        · refine ih ?_
          rw [logEntries_concat]
          simpa [logEntries, hb] using h

end

/-- The argument of a logarithm weighs at least two less. -/
theorem exists_argument {e : Expr α} (he : e.isFilled) (h : e.logBase?.isSome) :
    ∃ x, e.operand? e.argumentSlot = some x ∧ x.weight + 2 ≤ e.weight := by
  cases e with
  | unary op x =>
      refine ⟨x, rfl, ?_⟩
      have hop : op = .ln := by
        by_contra hne
        simp [logBase?, hne] at h
      simp [hop, weight, Nat.add_comm]
  | binary op l r =>
      refine ⟨r, rfl, ?_⟩
      simp only [isFilled, Bool.and_eq_true] at he
      have hl := one_le_weight he.1
      simp only [weight]
      split <;> omega
  | _ => simp [logBase?] at h

/-- There is nothing to combine if no two logarithms have equal bases. -/
theorem combineLogarithms_eq_none_iff {e : Expr α} : e.combineLogarithms s = none ↔
    (e.terms .additive).Pairwise fun t u => ¬t.expr.SameLogBase s.epsilon u.expr := by
  have hpairs : logPair? s.epsilon (logEntries []) (e.terms .additive) = none ↔ _ :=
    logPair?_eq_none_iff .nil
  rw [← List.nil_append (e.terms .additive), ← hpairs]
  change (logPair? s.epsilon [] (e.terms .additive)).bind _ = none ↔
    logPair? s.epsilon [] (e.terms .additive) = none
  cases logPair? s.epsilon [] (e.terms .additive) <;> simp

/-- A logarithm joins the first one of its base. -/
theorem exists_of_combineLogarithms {e : Expr α} {m : Move α} (h : e.combineLogarithms s = some m) :
    ∃ early kept between t late, e.terms .additive = early ++ kept :: (between ++ t :: late) ∧
      kept.expr.SameLogBase s.epsilon t.expr ∧
      (∀ u ∈ early, ¬u.expr.SameLogBase s.epsilon t.expr) ∧
      m = .joinLogarithms (if kept.flipped = t.flipped then .mul else .div) kept.path
        kept.expr.argumentSlot (t.path ++ [t.expr.argumentSlot]) t.path := by
  simp only [combineLogarithms, bind, Option.bind_eq_some_iff, pure, Option.some.injEq] at h
  obtain ⟨⟨entry, t⟩, hpair, rfl⟩ := h
  have hstart : logPair? s.epsilon (logEntries []) (e.terms .additive) = some (entry, t) := hpair
  obtain ⟨early, between, late, hterms, hsame, hfirst⟩ := exists_of_logPair? hstart
  exact ⟨early, entry.term, between, t, late, hterms, hsame, hfirst, rfl⟩

omit [Arithmetic α] in
theorem mem_of_terms_eq {kind : ChainKind} {e : Expr α} {early between late : List (ChainTerm α)}
    {kept t : ChainTerm α} (h : e.terms kind = early ++ kept :: (between ++ t :: late)) :
    kept ∈ e.terms kind ∧ t ∈ e.terms kind ∧ Apart t.path kept.path := by
  have hsplit : e.terms kind = (early ++ kept :: between) ++ t :: late := by
    rw [h, List.append_assoc, List.cons_append]
  exact ⟨by simp [h], by simp [h], apart_of_terms_eq hsplit kept (by simp)⟩

/-- A logarithm joins an earlier one. -/
theorem combineLogarithms_spec {e : Expr α} {m : Move α} (h : e.combineLogarithms s = some m) :
    ∃ kept ∈ e.terms .additive, ∃ t ∈ e.terms .additive, t.path ≠ kept.path ∧
      kept.expr.logBase?.isSome ∧ t.expr.logBase?.isSome ∧
        m = .joinLogarithms (if kept.flipped = t.flipped then .mul else .div) kept.path
          kept.expr.argumentSlot (t.path ++ [t.expr.argumentSlot]) t.path := by
  obtain ⟨early, kept, between, t, late, hterms, ⟨b, c, hb, hc, -⟩, -, rfl⟩ :=
    exists_of_combineLogarithms h
  obtain ⟨hk, ht, hapart⟩ := mem_of_terms_eq hterms
  exact ⟨kept, hk, t, ht, hapart.ne, by simp [hb], by simp [hc], rfl⟩

theorem fits_combineLogarithms {e : Expr α} {m : Move α} (he : e.isFilled)
    (h : e.combineLogarithms s = some m) : m.Fits e := by
  obtain ⟨kept, hk, t, ht, hne, hklog, htlog, rfl⟩ := combineLogarithms_spec h
  have hkept := (at?_of_mem_termsFrom hk).1
  have hremoved := (at?_of_mem_termsFrom ht).1
  obtain ⟨a, ha, -⟩ := exists_argument (isFilled_part he hkept) hklog
  obtain ⟨b, hb, hw⟩ := exists_argument (isFilled_part he hremoved) htlog
  refine .joinLogarithms (a := a) ?_ ?_ (removable_of_terms hk ht hne) hremoved hb hw
  · split <;> simp
  · rw [at?_append, hkept, Option.bind_some, at?_cons, ha]
    rfl

/-! ### Powers -/

omit [Arithmetic α] in
/-- Only the whole chain is met right away. -/
theorem Meets.pinned_of_path_nil {kind : ChainKind} {e : Expr α} {flipped pinned : Bool}
    {t : ChainTerm α} (h : Meets kind e flipped pinned t) (hnil : t.path = []) : t.pinned = pinned := by
  cases h with
  | here => rfl
  | operand | left | right => cases hnil

/-- A term that is not pinned is not the whole numerator of a quotient. -/
theorem place_ne_of_not_pinned {e : Expr α} {flipped pinned : Bool} {t : ChainTerm α}
    {sp : Splice α} (ht : t ∈ e.termsFrom .multiplicative flipped pinned) (hpin : t.pinned = false)
    (h : e.splice? .multiplicative t.path = some sp) : sp.place ≠ t.path := by
  replace ht := meets_of_mem_termsFrom ht
  induction ht generalizing sp with
  | here => cases h
  | operand _ ih =>
      rcases splice?_below_or_here h rfl with ⟨sp', hsp', rfl⟩ | ⟨-, hhere⟩
      · -- the splice is further down, and so is its place
        exact Splice.place_below_ne_iff.mpr (ih hpin hsp')
      · cases hhere
        simp [ChainTerm.below, Splice.place]
  | @left op l r flip flipped pinned t hop ht ih =>
      rcases splice?_below_or_here h rfl with ⟨sp', hsp', rfl⟩ | ⟨hnone, hhere⟩
      · exact Splice.place_below_ne_iff.mpr (ih hpin hsp')
      · cases op <;> simp [ChainKind.flips?] at hop <;> cases hhere
        · simp [ChainTerm.below, Splice.place]
        · -- the left operand of the quotient is the term itself, so it is pinned
          have hnil := eq_nil_of_splice? hnone (Option.isSome_of_eq_some ht.at?.1)
          rw [ChainTerm.below, ht.pinned_of_path_nil hnil] at hpin
          cases hpin
  | right _ _ ih =>
      rcases splice?_below_or_here h rfl with ⟨sp', hsp', rfl⟩ | ⟨-, hhere⟩
      · exact Splice.place_below_ne_iff.mpr (ih hpin hsp')
      · cases hhere
        simp [ChainTerm.below, Splice.place]

omit [Arithmetic α] in
theorem powerBase?_spec {e b : Expr α} (h : e.powerBase? = some b) :
    ∃ l r, e = .binary (if e.hasOp .root then .root else .pow) l r := by
  cases e with
  | binary op l r =>
      refine ⟨l, r, ?_⟩
      simp only [powerBase?] at h
      split at h
      · next hop =>
        subst hop
        simp [hasOp]
      · split at h
        · next hop =>
          subst hop
          simp [hasOp]
        · cases h
  | _ => cases h

theorem exponent_spec {e : Expr α} (he : e.isFilled) :
    e.exponent.Fits e ∧ (e.build e.exponent).weight ≤ e.weight := by
  unfold exponent
  split
  · next h =>
    obtain ⟨l, r, rfl⟩ := hasOp_iff.mp h
    have hshrinks := shrinks_part (e := .binary .pow l r) (s := .right) (p := []) rfl
    exact ⟨hshrinks.toFits, hshrinks.weight⟩
  split
  · next h =>
    obtain ⟨l, r, rfl⟩ := hasOp_iff.mp h
    refine ⟨⟨by simp [Sketch.parts, at?_cons, operand?], by simp [Sketch.parts]⟩, ?_⟩
    simp [build, part, at?_cons, operand?, weight]
    omega
  · have hshrinks := shrinks_const (e := e) Arithmetic.one (one_le_weight he)
    exact ⟨hshrinks.toFits, hshrinks.weight⟩

theorem mem_addPower {ε : α} {entries : List (Entry α)} {t : ChainTerm α} {entry : Entry α}
    (h : entry ∈ addPower ε entries t) :
    entry ∈ entries ∨ entry.term = t ∧ t.expr.powerBase? = some entry.base := by
  unfold addPower at h
  split at h
  · exact .inl h
  · next b hb =>
    split at h
    · exact .inl h
    · rcases List.mem_append.mp h with h | h
      · exact .inl h
      · obtain rfl := List.mem_singleton.mp h
        exact .inr ⟨rfl, hb⟩

/-- Entries are powers and roots among the factors. -/
theorem mem_foldl_addPower {ε : α} {terms : List (ChainTerm α)} {entries : List (Entry α)}
    {entry : Entry α} (h : entry ∈ terms.foldl (addPower ε) entries) :
    entry ∈ entries ∨ entry.term ∈ terms ∧ entry.term.expr.powerBase? = some entry.base := by
  induction terms generalizing entries with
  | nil => exact .inl h
  | cons t rest ih =>
      rcases ih h with hmem | ⟨hmem, hbase⟩
      · rcases mem_addPower hmem with hmem | ⟨rfl, hbase⟩
        · exact .inl hmem
        · exact .inr ⟨List.mem_cons_self, hbase⟩
      · exact .inr ⟨List.mem_cons_of_mem t hmem, hbase⟩

/-- A factor joins a power or root of its base. -/
theorem combineExponents_spec {e : Expr α} {m : Move α} (h : e.combineExponents s = some m) :
    ∃ entry : Entry α, entry.term ∈ e.terms .multiplicative ∧
      entry.term.expr.powerBase? = some entry.base ∧
      ∃ t ∈ e.terms .multiplicative, t.path ≠ entry.term.path ∧ t.pinned = false ∧
        entry.base.equals s.epsilon (t.expr.powerBase?.getD t.expr) = true ∧
        m = .joinPowers (if entry.term.flipped = t.flipped then .add else .sub) entry.term.path
          (entry.term.expr.hasOp .root) t.expr.exponent t.path := by
  simp only [combineExponents, bind, Option.bind_eq_some_iff, pure, Option.some.injEq] at h
  obtain ⟨⟨entry, t⟩, hpair, rfl⟩ := h
  obtain ⟨u, hu, hentryFor⟩ := List.exists_of_findSome?_eq_some hpair
  obtain ⟨entry', hentry', heq⟩ := Option.map_eq_some_iff.mp hentryFor
  cases heq
  unfold entryFor? at hentry'
  split at hentry'
  · cases hentry'
  · next hpin =>
    have hmem := List.mem_of_find?_eq_some hentry'
    rw [List.mem_filter] at hmem
    obtain ⟨hentry, hbase⟩ := (mem_foldl_addPower hmem.1).resolve_left (by simp)
    have hne := hmem.2
    simp only [bne_iff_ne, ne_eq] at hne
    exact ⟨entry, hentry, hbase, t, hu, fun heq => hne heq.symm, by simpa using hpin,
      by simpa using List.find?_some hentry', rfl⟩

theorem fits_combineExponents {e : Expr α} {m : Move α} (he : e.isFilled)
    (h : e.combineExponents s = some m) : m.Fits e := by
  obtain ⟨entry, hentry, hbase, t, ht, hne, hpin, -, rfl⟩ := combineExponents_spec h
  obtain ⟨l, r, hlr⟩ := powerBase?_spec hbase
  have hkept := (at?_of_mem_termsFrom hentry).1
  have hremoved := (at?_of_mem_termsFrom ht).1
  rw [hlr] at hkept
  obtain ⟨hfits, hw⟩ := exponent_spec (isFilled_part he hremoved)
  refine .joinPowers ?_ hkept (removable_of_terms hentry ht hne)
    (fun sp hsp => place_ne_of_not_pinned ht hpin hsp) hremoved hfits hw
  split <;> simp

end Expr

/-! ### All rules -/

variable [Arithmetic α] {s : Settings α} {rule : Rule} {e x : Expr α} {m : Move α}

theorem fits_pushSign (hx : x.isFactored = true) :
    Move.Fits (.unary .neg x) (.pushSign (.operand :: x.signChange.1) x.signChange.2) := by
  obtain ⟨f, hf, hfits⟩ := Expr.signChange_fits x
  obtain ⟨s, p, hp⟩ := List.exists_cons_of_ne_nil (Expr.signChange_ne_nil hx)
  rw [hp] at hf ⊢
  exact .pushSign rfl hf hfits

/-- Every move that a rule decides on fits the expression. -/
theorem fits_of_move? (he : e.isFilled) (hrule : rule ∈ e.rules) (h : rule.move? s e = some m) :
    m.Fits e := by
  cases decides_of_move? hrule h with
  | rebuild hsk => exact .rebuild (Expr.shrinks_of_rebuilds hsk)
  | pushSign heq hx =>
      subst heq
      exact fits_pushSign hx
  | collapseAdditive h => exact Expr.fits_collapseAdditive h
  | collapseMultiplicative h => exact Expr.fits_collapseMultiplicative h
  | combineLogarithms h => exact Expr.fits_combineLogarithms he h
  | combineExponents h => exact Expr.fits_combineExponents he h

end Formula
