/-
Formula/Proofs/Simplify/Chain.lean

Where chains run and how they are mended.  `ChainPath kind e p` says that the
path runs through operators of the chain.  `Meets` follows the walk down a chain
to one of its terms, step by step; so the terms are parts at such paths, and no
two of them overlap.

`Splices kind e p s` describes the splice that takes out the part at `p`: it
happens at a place on the way to the part, the negations between the two go with
the part, and what is kept of the place does not overlap with it.  From this
follows where the parts that stay are found afterwards (`Splices.shift`).
-/
import Formula.Proofs.Simplify.Parts
import Formula.Simplify.Chain

namespace Formula

universe u

open Path (Apart)

variable {α : Type u}

/-! ### Terms -/

/-- The path runs through operators of the chain. -/
inductive ChainPath (kind : ChainKind) : Expr α → Path → Prop
  | here {e : Expr α} : ChainPath kind e []
  | operand {x : Expr α} {p : Path} : ChainPath kind x p →
      ChainPath kind (.unary .neg x) (.operand :: p)
  | left {op : BinaryOp} {l r : Expr α} {p : Path} : (kind.flips? op).isSome → ChainPath kind l p →
      ChainPath kind (.binary op l r) (.left :: p)
  | right {op : BinaryOp} {l r : Expr α} {p : Path} : (kind.flips? op).isSome → ChainPath kind r p →
      ChainPath kind (.binary op l r) (.right :: p)

namespace Expr

/-- The expression is no part of the run of a chain, but hangs below it. -/
def IsTerm (kind : ChainKind) : Expr α → Prop
  | unary op _ => op ≠ .neg
  | binary op _ _ => kind.flips? op = none
  | _ => True

section Walk

variable {kind : ChainKind} {e l r x : Expr α} {op : BinaryOp} {flip flipped pinned : Bool}

/-- Induction down a chain, from the terms. -/
@[elab_as_elim]
theorem chain_induction {motive : Expr α → Prop} (kind : ChainKind)
    (term : ∀ e, e.IsTerm kind → motive e) (neg : ∀ x, motive x → motive (unary .neg x))
    (operator : ∀ op l r flip, kind.flips? op = some flip → motive l → motive r →
      motive (binary op l r)) (e : Expr α) : motive e := by
  induction e with
  | hole | const | var => exact term _ trivial
  | unary op x ih =>
      by_cases hop : op = .neg
      · exact hop ▸ neg x ih
      · exact term _ hop
  | binary op l r ihl ihr =>
      cases hop : kind.flips? op with
      | none => exact term _ hop
      | some flip => exact operator op l r flip hop ihl ihr

theorem IsTerm.termsFrom (h : e.IsTerm kind) :
    e.termsFrom kind flipped pinned = [⟨e, flipped, pinned, []⟩] := by
  cases e with
  | unary op x => exact if_neg h
  | binary op l r => rw [Expr.termsFrom, show kind.flips? op = none from h]
  | _ => rfl

theorem termsFrom_neg : (unary .neg x).termsFrom kind flipped pinned
    = (x.termsFrom kind (flipped != (kind == .additive)) false).map (.below .operand) := if_pos rfl

theorem termsFrom_binary (hop : kind.flips? op = some flip) :
    (binary op l r).termsFrom kind flipped pinned
      = (l.termsFrom kind flipped (op == .div)).map (.below .left)
        ++ (r.termsFrom kind (flipped != flip) false).map (.below .right) := by
  rw [termsFrom, hop]

end Walk

/-- The walk down a chain meets the term, if the chain enters flipped or pinned as is
said. -/
inductive Meets (kind : ChainKind) : Expr α → Bool → Bool → ChainTerm α → Prop
  | here {e : Expr α} {flipped pinned : Bool} : e.IsTerm kind →
      Meets kind e flipped pinned ⟨e, flipped, pinned, []⟩
  | operand {x : Expr α} {flipped pinned : Bool} {t : ChainTerm α} :
      Meets kind x (flipped != (kind == .additive)) false t →
      Meets kind (unary .neg x) flipped pinned (t.below .operand)
  | left {op : BinaryOp} {l r : Expr α} {flip flipped pinned : Bool} {t : ChainTerm α} :
      kind.flips? op = some flip → Meets kind l flipped (op == .div) t →
      Meets kind (binary op l r) flipped pinned (t.below .left)
  | right {op : BinaryOp} {l r : Expr α} {flip flipped pinned : Bool} {t : ChainTerm α} :
      kind.flips? op = some flip → Meets kind r (flipped != flip) false t →
      Meets kind (binary op l r) flipped pinned (t.below .right)

/-- The terms of a chain are those that the walk meets. -/
theorem meets_of_mem_termsFrom {kind : ChainKind} {e : Expr α} {flipped pinned : Bool}
    {t : ChainTerm α} (h : t ∈ e.termsFrom kind flipped pinned) : Meets kind e flipped pinned t := by
  induction e using chain_induction kind generalizing flipped pinned t with
  | term e he =>
      rw [he.termsFrom] at h
      obtain rfl := List.mem_singleton.mp h
      exact .here he
  | neg x ih =>
      rw [termsFrom_neg] at h
      obtain ⟨t', ht', rfl⟩ := List.mem_map.mp h
      exact .operand (ih ht')
  | operator op l r flip hop ihl ihr =>
      rw [termsFrom_binary hop] at h
      rcases List.mem_append.mp h with h | h
      · obtain ⟨t', ht', rfl⟩ := List.mem_map.mp h
        exact .left hop (ihl ht')
      · obtain ⟨t', ht', rfl⟩ := List.mem_map.mp h
        exact .right hop (ihr ht')

/-- A term that is met is a part at the end of its path. -/
theorem Meets.at? {kind : ChainKind} {e : Expr α} {flipped pinned : Bool} {t : ChainTerm α}
    (h : Meets kind e flipped pinned t) : e.at? t.path = some t.expr ∧ ChainPath kind e t.path := by
  induction h with
  | here => exact ⟨rfl, .here⟩
  | operand _ ih => exact ⟨ih.1, .operand ih.2⟩
  | left hop _ ih => exact ⟨ih.1, .left (Option.isSome_of_eq_some hop) ih.2⟩
  | right hop _ ih => exact ⟨ih.1, .right (Option.isSome_of_eq_some hop) ih.2⟩

/-- The terms of a chain are its parts at the ends of their paths. -/
theorem at?_of_mem_termsFrom {kind : ChainKind} {e : Expr α} {flipped pinned : Bool}
    {t : ChainTerm α} (h : t ∈ e.termsFrom kind flipped pinned) :
    e.at? t.path = some t.expr ∧ ChainPath kind e t.path := (meets_of_mem_termsFrom h).at?

/-- What hangs below a chain is a term. -/
theorem isTerm_of_mem_termsFrom {kind : ChainKind} {e : Expr α} {flipped pinned : Bool}
    {t : ChainTerm α} (h : t ∈ e.termsFrom kind flipped pinned) : t.expr.IsTerm kind := by
  replace h := meets_of_mem_termsFrom h
  induction h with
  | here he => exact he
  | operand _ ih | left _ _ ih | right _ _ ih => exact ih

/-- No two terms of a chain overlap. -/
theorem pairwise_apart_termsFrom (kind : ChainKind) (e : Expr α) (flipped pinned : Bool) :
    (e.termsFrom kind flipped pinned).Pairwise fun t t' => Apart t.path t'.path := by
  induction e using chain_induction kind generalizing flipped pinned with
  | term e he => simp [he.termsFrom]
  | neg x ih =>
      rw [termsFrom_neg, List.pairwise_map]
      exact (ih _ _).imp fun h => Path.Apart.cons_iff.mpr h
  | operator op l r flip hop ihl ihr =>
      rw [termsFrom_binary hop, List.pairwise_append, List.pairwise_map, List.pairwise_map]
      refine ⟨(ihl _ _).imp fun h => Path.Apart.cons_iff.mpr h,
        (ihr _ _).imp fun h => Path.Apart.cons_iff.mpr h, fun t ht t' ht' => ?_⟩
      obtain ⟨a, -, rfl⟩ := List.mem_map.mp ht
      obtain ⟨b, -, rfl⟩ := List.mem_map.mp ht'
      exact Path.Apart.of_ne (by decide) a.path b.path

/-- Terms with different paths do not overlap. -/
theorem apart_of_mem_terms {kind : ChainKind} {e : Expr α} {t t' : ChainTerm α}
    (ht : t ∈ e.terms kind) (ht' : t' ∈ e.terms kind) (hne : t.path ≠ t'.path) :
    Apart t.path t'.path := by
  have hpair : (e.terms kind).Pairwise fun t t' => t.path ≠ t'.path → Apart t.path t'.path :=
    (pairwise_apart_termsFrom kind e false false).imp fun {t t'} h (_ : t.path ≠ t'.path) => h
  have hflip : (e.terms kind).Pairwise fun t t' => t'.path ≠ t.path → Apart t'.path t.path :=
    (pairwise_apart_termsFrom kind e false false).imp fun {t t'} h (_ : t'.path ≠ t.path) => h.symm
  exact hpair.forall_of_forall_of_flip (fun _ _ hself => absurd rfl hself) hflip ht ht' hne

/-- A term of a chain does not overlap with those before it and those after it. -/
theorem apart_of_terms_eq {kind : ChainKind} {e : Expr α} {t : ChainTerm α}
    {L₁ L₂ : List (ChainTerm α)} (h : e.terms kind = L₁ ++ t :: L₂) :
    ∀ u ∈ L₁ ++ L₂, Apart t.path u.path := by
  have hdistinct := pairwise_apart_termsFrom kind e false false
  rw [show e.termsFrom kind false false = _ from h, List.pairwise_append, List.pairwise_cons]
    at hdistinct
  intro u hu
  rcases List.mem_append.mp hu with hu | hu
  · exact (hdistinct.2.2 u hu t List.mem_cons_self).symm
  · exact hdistinct.2.1.1 u hu

theorem mem_terms_of_terms_eq {kind : ChainKind} {e : Expr α} {t : ChainTerm α}
    {L₁ L₂ : List (ChainTerm α)} (h : e.terms kind = L₁ ++ t :: L₂) :
    t ∈ e.terms kind ∧ ∀ u ∈ L₁ ++ L₂, u ∈ e.terms kind := by
  rw [h]
  refine ⟨by simp, fun u hu => ?_⟩
  rcases List.mem_append.mp hu with hu | hu <;> simp [hu]

end Expr

/-! ### Splices -/

/-- The splice takes out the part at a path: it happens at a place on the way
there, and only negations are between the two. -/
inductive Splices (e : Expr α) : Path → Splice α → Prop
  | promote {p : Path} {op : BinaryOp} {l r : Expr α} {s survivor : Slot} (k : Nat) :
      e.at? p = some (.binary op l r) → s = .left ∧ survivor = .right ∨ s = .right ∧ survivor = .left →
      Splices e (p ++ s :: List.replicate k .operand) (.promote p survivor)
  | negate {p : Path} {op : BinaryOp} {l r : Expr α} (k : Nat) : e.at? p = some (.binary op l r) →
      Splices e (p ++ .left :: List.replicate k .operand) (.negate p)
  | fill {p : Path} {v : α} (k : Nat) : (e.at? p).isSome →
      Splices e (p ++ List.replicate k .operand) (.fill p v)

theorem Splice.place_below (sp : Splice α) (p : Path) : (sp.below p).place = p ++ sp.place := by
  cases sp <;> rfl

/-- A splice further down happens where the part is that goes, or it does not. -/
theorem Splice.place_below_ne_iff {sp : Splice α} {s : Slot} {p : Path} :
    (sp.below [s]).place ≠ s :: p ↔ sp.place ≠ p := by
  rw [place_below, List.singleton_append, Ne, List.cons_inj_right]

theorem Splices.below {e x : Expr α} {s : Slot} {p : Path} {sp : Splice α} (h : Splices x p sp)
    (hx : e.operand? s = some x) : Splices e (s :: p) (sp.below [s]) := by
  cases h with
  | @promote p op l r _ _ k hat hs =>
      have hat' : e.at? (s :: p) = some (.binary op l r) := by simp [Expr.at?_cons, hx, hat]
      exact .promote (p := s :: p) k hat' hs
  | @negate p op l r k hat =>
      have hat' : e.at? (s :: p) = some (.binary op l r) := by simp [Expr.at?_cons, hx, hat]
      exact .negate (p := s :: p) k hat'
  | fill k hat => exact .fill (p := s :: _) k (by simp [Expr.at?_cons, hx, hat])

namespace Expr

variable [Arithmetic α] {kind : ChainKind} {e x : Expr α} {s : Slot} {p : Path}

/-- Only a negation in a sum has no answer. -/
theorem eq_operand_of_spliceHere? (h : e.spliceHere? kind s = none) (hx : e.operand? s = some x) :
    s = .operand := by
  cases e <;> cases s <;> simp_all [spliceHere?, operand?]
  split at h <;> cases h

/-- A splice happens further down, or right here where nothing of the operand would
be left. -/
theorem splice?_below_or_here {sp : Splice α} (h : e.splice? kind (s :: p) = some sp)
    (hx : e.operand? s = some x) :
    (∃ sp', x.splice? kind p = some sp' ∧ sp'.below [s] = sp) ∨
      x.splice? kind p = none ∧ e.spliceHere? kind s = some sp := by
  simpa only [splice?, hx, Option.bind_some, Option.or_eq_some_iff, Option.map_eq_some_iff,
    Option.map_eq_none_iff] using h

/-- If nothing of the chain would be left, there is no splice anywhere on the way. -/
theorem splice?_eq_none_below (h : e.splice? kind (s :: p) = none) (hx : e.operand? s = some x) :
    x.splice? kind p = none ∧ e.spliceHere? kind s = none := by
  simpa only [splice?, hx, Option.bind_some, Option.or_eq_none_iff, Option.map_eq_none_iff] using h

/-- Only a tower of negations above a part can leave nothing of the chain. -/
theorem eq_replicate_of_splice? (h : e.splice? kind p = none) (hp : (e.at? p).isSome) :
    p = List.replicate p.length .operand := by
  induction p generalizing e with
  | nil => rfl
  | cons s p ih =>
      obtain ⟨a, ha⟩ := Option.isSome_iff_exists.mp hp
      obtain ⟨x, hx, hat⟩ := Option.bind_eq_some_iff.mp ha
      obtain ⟨hbelow, hhere⟩ := splice?_eq_none_below h hx
      rw [List.length_cons, List.replicate_succ, ← ih hbelow (by simp [hat]),
        eq_operand_of_spliceHere? hhere hx]

theorem splices_of_spliceHere? {sp : Splice α} (k : Nat) (h : e.spliceHere? kind s = some sp)
    (hx : (e.at? (s :: List.replicate k .operand)).isSome) :
    Splices e (s :: List.replicate k .operand) sp := by
  cases e with
  | hole | const | var => simp [at?_cons, operand?] at hx
  | unary op x =>
      cases s <;> simp only [spliceHere?, reduceCtorEq] at h
      split at h <;> cases h
      exact .fill (p := []) (k + 1) rfl
  | binary op l r =>
      have hat : (binary op l r).at? [] = some (binary op l r) := rfl
      cases s with
      | operand => simp [at?_cons, operand?] at hx
      | right =>
          cases h
          exact .promote (p := []) k hat (.inr ⟨rfl, rfl⟩)
      | left =>
          simp only [spliceHere?] at h
          split at h <;> cases h
          · exact .negate (p := []) k hat
          · exact .fill (p := [.left]) k rfl
          · exact .promote (p := []) k hat (.inl ⟨rfl, rfl⟩)

/-- The splice that is found for a path takes out the part there. -/
theorem splices_of_splice? {sp : Splice α} (h : e.splice? kind p = some sp)
    (hp : (e.at? p).isSome) : Splices e p sp := by
  induction p generalizing e sp with
  | nil => cases h
  | cons s p ih =>
      obtain ⟨a, ha⟩ := Option.isSome_iff_exists.mp hp
      obtain ⟨x, hx, hat⟩ := Option.bind_eq_some_iff.mp ha
      rcases splice?_below_or_here h hx with ⟨sp', hsp', rfl⟩ | ⟨hnone, hhere⟩
      · exact (ih hsp' (by simp [hat])).below hx
      · have hp' := eq_replicate_of_splice? hnone (by simp [hat])
        rw [hp'] at hp ⊢
        exact splices_of_spliceHere? _ hhere hp

omit [Arithmetic α] in
/-- Below negations there is no other way to go. -/
theorem not_apart_replicate {q : Path} {k : Nat} (hp : (e.at? (List.replicate k .operand)).isSome)
    (hq : (e.at? q).isSome) : ¬Apart (List.replicate k .operand) q := by
  intro hpq
  induction k generalizing e q with
  | zero => exact hpq.ne_nil rfl
  | succ k ih =>
      cases q with
      | nil => exact hpq.symm.ne_nil rfl
      | cons t q =>
          rw [List.replicate_succ] at hp hpq
          obtain ⟨a, ha⟩ := Option.isSome_iff_exists.mp hp
          obtain ⟨b, hb⟩ := Option.isSome_iff_exists.mp hq
          obtain ⟨x, hx, hat⟩ := Option.bind_eq_some_iff.mp ha
          obtain ⟨y, hy, hbt⟩ := Option.bind_eq_some_iff.mp hb
          have ht : t = .operand := by
            cases e <;> cases t <;> simp_all [operand?]
          subst ht
          obtain rfl : x = y := Option.some.inj (hx.symm.trans hy)
          exact ih (Option.isSome_of_eq_some hat) (Option.isSome_of_eq_some hbt)
            (Path.Apart.cons_iff.mp hpq)

/-- A part that does not overlap with another one can be taken out. -/
theorem isSome_splice? {q : Path} (hp : (e.at? p).isSome) (hq : (e.at? q).isSome)
    (hpq : Apart p q) : (e.splice? kind p).isSome := by
  rw [Option.isSome_iff_ne_none]
  intro hnone
  have hrep := eq_replicate_of_splice? hnone hp
  rw [hrep] at hp hpq
  exact not_apart_replicate hp hq hpq

/-- The splice as it is found from below: either the operator right above the
part answers, or the question goes on to the one above. -/
theorem splice?_concat {o : Expr α} (ho : e.at? p = some o) (hs : (o.operand? s).isSome) :
    e.splice? kind (p ++ [s]) = ((o.spliceHere? kind s).map (.below p)).or (e.splice? kind p) := by
  induction p generalizing e with
  | nil =>
      obtain rfl := Option.some.inj ho
      obtain ⟨x, hx⟩ := Option.isSome_iff_exists.mp hs
      have hbelow : Splice.below ([] : Path) = (id : Splice α → Splice α) := by
        funext sp
        cases sp <;> rfl
      simp [splice?, hx, hbelow]
  | cons t p ih =>
      obtain ⟨x, hx, hat⟩ := Option.bind_eq_some_iff.mp ho
      have hbelow : Splice.below [t] ∘ Splice.below p = (Splice.below (t :: p) : Splice α → Splice α) := by
        funext sp
        cases sp <;> rfl
      simp only [List.cons_append, splice?, hx, Option.bind_some, ih hat, Option.map_or,
        Option.map_map, hbelow, Option.or_assoc]

end Expr

/-! ### Where parts are found after a splice -/

/-- A part that does not overlap with one in an operand, but for negations, is in
the other operand. -/
theorem Expr.exists_other_operand {op : BinaryOp} {l r : Expr α} {s : Slot} {k : Nat} {q : Path}
    (hp : ((binary op l r).at? (s :: List.replicate k .operand)).isSome)
    (hq : ((binary op l r).at? q).isSome) (h : Apart (s :: List.replicate k .operand) q) :
    ∃ t q', q = t :: q' ∧ t ≠ s ∧ t ≠ .operand := by
  cases q with
  | nil => exact absurd rfl h.symm.ne_nil
  | cons t q =>
      have ht : t ≠ .operand := by
        rintro rfl
        simp [at?_cons, operand?] at hq
      refine ⟨t, q, rfl, ?_, ht⟩
      rintro rfl
      rw [at?_cons] at hp hq
      cases hx : (binary op l r).operand? t with
      | none => simp [hx] at hq
      | some x =>
          rw [hx, Option.bind_some] at hp hq
          exact not_apart_replicate hp hq (Path.Apart.cons_iff.mp h)

theorem Splice.moved_append (source target t : Path) :
    Splice.moved source target (source ++ t) = target ++ t := by
  simp [moved]

theorem Splice.moved_of_not_prefix {source target p : Path} (h : ¬source <+: p) :
    Splice.moved source target p = p := by
  simp [moved, h]

/-- The term that a splice takes out is at or below the place, but in nothing
that the splice puts back. -/
theorem Splices.exists_below {e : Expr α} {p : Path} {sp : Splice α} (h : Splices e p sp) :
    ∃ q, p = sp.place ++ q ∧ ∀ r ∈ sp.sketch.parts, Apart q r := by
  cases h with
  | @promote p op l r s survivor k hat hs =>
      refine ⟨s :: List.replicate k .operand, rfl, ?_⟩
      simp only [Splice.sketch, Sketch.parts, List.mem_singleton, forall_eq]
      exact Path.Apart.of_ne (by rcases hs with ⟨rfl, rfl⟩ | ⟨rfl, rfl⟩ <;> decide) _ _
  | @negate p op l r k hat =>
      refine ⟨.left :: List.replicate k .operand, rfl, ?_⟩
      simp only [Splice.sketch, Sketch.parts, List.mem_singleton, forall_eq]
      exact Path.Apart.of_ne (by decide) _ _
  | @fill p v k hat => exact ⟨List.replicate k .operand, rfl, by simp [Splice.sketch, Sketch.parts]⟩

theorem Splices.isSome_place {e : Expr α} {p : Path} {sp : Splice α} (h : Splices e p sp) :
    (e.at? sp.place).isSome := by
  cases h with
  | promote k hat _ => exact Option.isSome_of_eq_some hat
  | negate k hat => exact Option.isSome_of_eq_some hat
  | fill k hat => exact hat

/-- A part that stays is either apart from the place of the splice, or in the
part that the splice puts back. -/
theorem Splices.located {e : Expr α} {p q : Path} {sp : Splice α} (h : Splices e p sp)
    (hp : (e.at? p).isSome) (hq : (e.at? q).isSome) (hpq : Apart p q) :
    (Apart sp.place q ∧ sp.shift q = q) ∨
      ∃ a b t, sp.sketch.Puts a b ∧ q = sp.place ++ (a ++ t) ∧ sp.shift q = sp.place ++ (b ++ t) := by
  have hplace : sp.place <+: p := by
    cases h <;> exact List.prefix_append _ _
  -- a path that does not go through the place is not moved
  by_cases hpre : sp.place <+: q
  case neg =>
    refine .inl ⟨⟨hpre, fun hq => hpq.2 (hq.trans hplace)⟩, ?_⟩
    have hnot : ∀ t, ¬sp.place ++ t <+: q := fun t ht => hpre ((List.prefix_append _ t).trans ht)
    cases h with
    | promote => exact Splice.moved_of_not_prefix (hnot _)
    | negate => exact Splice.moved_of_not_prefix (hnot _)
    | fill => rfl
  obtain ⟨q, rfl⟩ := hpre
  cases h with
  | @promote P op l r s survivor k hat hs =>
      simp only [Splice.place, Expr.at?_append, hat, Option.bind_some] at hp hq hpq
      -- the term is in one operand of the operator, so the path goes into the other one
      obtain ⟨t, q, rfl, hts, ht⟩ := Expr.exists_other_operand hp hq (Path.Apart.append_left_iff.mp hpq)
      obtain rfl : t = survivor := by
        rcases hs with ⟨rfl, rfl⟩ | ⟨rfl, rfl⟩ <;> cases t <;> simp_all
      refine .inr ⟨[t], [], q, .part, rfl, ?_⟩
      simpa [Splice.place, Splice.shift] using Splice.moved_append (P ++ [t]) P q
  | @negate P op l r k hat =>
      simp only [Splice.place, Expr.at?_append, hat, Option.bind_some] at hp hq hpq
      obtain ⟨t, q, rfl, hts, ht⟩ := Expr.exists_other_operand hp hq (Path.Apart.append_left_iff.mp hpq)
      obtain rfl : t = .right := by
        cases t <;> simp_all
      refine .inr ⟨[.right], [.operand], q, .operand .part, rfl, ?_⟩
      have hmoved := Splice.moved_append (P ++ [.right]) (P ++ [.operand]) q
      rwa [List.append_assoc, List.append_assoc] at hmoved
  | @fill P v k hat =>
      obtain ⟨a, ha⟩ := Option.isSome_iff_exists.mp hat
      rw [Splice.place, Expr.at?_append, ha, Option.bind_some] at hq
      rw [Expr.at?_append, ha, Option.bind_some] at hp
      exact absurd (Path.Apart.append_left_iff.mp hpq) (Expr.not_apart_replicate hp hq)

/-- A splice puts back one part at most. -/
theorem Splice.puts_unique {sp : Splice α} {a b c d : Path} (h : sp.sketch.Puts a b)
    (h' : sp.sketch.Puts c d) : a = c ∧ b = d := by
  cases sp with
  | promote owner survivor =>
      cases h
      cases h'
      exact ⟨rfl, rfl⟩
  | negate owner =>
      cases h with | operand h =>
      cases h' with | operand h' =>
      cases h
      cases h'
      exact ⟨rfl, rfl⟩
  | fill place v => cases h

/-- Parts that stay and do not overlap do not overlap afterwards. -/
theorem Splices.apart_shift {e : Expr α} {p q r : Path} {sp : Splice α} (h : Splices e p sp)
    (hp : (e.at? p).isSome) (hq : (e.at? q).isSome) (hr : (e.at? r).isSome) (hpq : Apart p q)
    (hpr : Apart p r) (hqr : Apart q r) : Apart (sp.shift q) (sp.shift r) := by
  have houtside : ∀ {a t : Path}, Apart sp.place a → Apart a (sp.place ++ t) := by
    intro a t ha
    simpa using (ha.append t []).symm
  rcases h.located hp hq hpq with ⟨hapart, hq'⟩ | ⟨a, b, t, hputs, rfl, hq'⟩ <;>
    rcases h.located hp hr hpr with ⟨hapart', hr'⟩ | ⟨c, d, u, hputs', rfl, hr'⟩ <;> rw [hq', hr']
  · exact hqr
  · exact houtside hapart
  · exact (houtside hapart').symm
  · -- both are in the part that is put back
    obtain ⟨rfl, rfl⟩ := Splice.puts_unique hputs hputs'
    rw [Path.Apart.append_left_iff, Path.Apart.append_left_iff] at hqr ⊢
    exact hqr

/-- A part is not below a slot of another one that it does not overlap with, nor of
itself, and so after the splice. -/
theorem Splices.not_prefix_shift {e : Expr α} {p q r : Path} {s : Slot} {sp : Splice α}
    (h : Splices e p sp) (hp : (e.at? p).isSome) (hq : (e.at? q).isSome) (hr : (e.at? r).isSome)
    (hpq : Apart p q) (hpr : Apart p r) (hqr : Apart q r ∨ r = q) :
    ¬(sp.shift q ++ [s]) <+: sp.shift r := by
  intro hpre
  rcases hqr with hqr | rfl
  · exact (h.apart_shift hp hq hr hpq hpr hqr).1 ((List.prefix_append _ _).trans hpre)
  · have hlen := hpre.length_le
    rw [List.length_append, List.length_singleton] at hlen
    omega

/-- The parts that stay are as they were. -/
theorem Node.at?_splice_shift {n : Node α} {p q : Path} {sp : Splice α} (h : Splices n.expr p sp)
    (hp : (n.at? p).isSome) (hq : (n.at? q).isSome) (hpq : Apart p q) :
    (n.splice sp).at? (sp.shift q) = n.at? q := by
  rw [← isSome_at?_expr] at hp hq
  have hplace := h.isSome_place
  rw [isSome_at?_expr] at hplace
  obtain ⟨a, ha⟩ := Option.isSome_iff_exists.mp hplace
  rcases h.located hp hq hpq with ⟨hapart, hshift⟩ | ⟨r, r', t, hputs, rfl, hshift⟩
  · rw [hshift, splice, rebuildAt, at?_put_of_apart _ _ hapart]
  · rw [isSome_at?_expr, at?_append, ha, Option.bind_some, at?_append] at hq
    obtain ⟨b, hb⟩ := Option.isSome_iff_exists.mp (Option.isSome_of_isSome_bind hq)
    rw [hshift, splice, rebuildAt, at?_put_append ha, at?_append, hputs.at?_build, Option.bind_some,
      part_of_at? ha, part_of_at? hb, at?_append, ha, Option.bind_some, at?_append, hb,
      Option.bind_some]

end Formula
