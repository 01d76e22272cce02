/-
Formula/Proofs/Simplify/Places.lean

Where the terms of a chain are, in order, and which of them are flipped
(`termPlaces`).  What hangs at the places does not matter for this, so putting
another term there changes no place (`termPlaces_put`).

A splice takes one place out.  All other terms keep their order and their flags,
at the places where they are shifted to (`termPlaces_splice`).  Where the term
goes, a constant is left if the splice fills a place, and nothing otherwise
(`Splice.leaves`).  In a sum nothing is ever left; in a product it is minus one
for a term right below a negation (`leaves_of_splice?`).
-/
import Formula.Proofs.Simplify.Merging
import Formula.Proofs.Simplify.Tally

namespace Formula

universe u

variable {α : Type u} {kind : ChainKind} {a e f l r x : Expr α} {p q : Path} {b flip flipped : Bool}
  {op : BinaryOp} {s t : Slot} {sp : Splice α}

/-! ### Places of terms -/

/-- Where a term is, and whether it is flipped. -/
def ChainTerm.place (t : ChainTerm α) : Path × Bool := (t.path, t.flipped)

/-- A place in an operand as a place in the whole. -/
def Path.below (s : Slot) (t : Path × Bool) : Path × Bool := (s :: t.1, t.2)

namespace Expr

/-- The places of the terms of a chain, given how the chain itself enters. -/
def termPlaces (kind : ChainKind) (flipped : Bool) (e : Expr α) : List (Path × Bool) :=
  (e.termsFrom kind flipped false).map ChainTerm.place

/-- Whether the first term is pinned does not matter for its place. -/
theorem map_place_termsFrom (e : Expr α) (pinned : Bool) :
    (e.termsFrom kind flipped pinned).map ChainTerm.place = e.termPlaces kind flipped := by
  rw [termPlaces]
  cases e using chain_induction kind with
  | term e he =>
      rw [he.termsFrom, he.termsFrom]
      rfl
  | neg => rw [termsFrom_neg, termsFrom_neg]
  | operator op l r flip hop => rw [termsFrom_binary hop, termsFrom_binary hop]

theorem map_place_below (s : Slot) (ts : List (ChainTerm α)) :
    (ts.map (ChainTerm.below s)).map ChainTerm.place = (ts.map ChainTerm.place).map (Path.below s) := by
  rw [List.map_map, List.map_map]
  rfl

theorem termPlaces_neg : (unary .neg x).termPlaces kind flipped
    = (x.termPlaces kind (flipped != (kind == .additive))).map (Path.below .operand) := by
  rw [termPlaces, termsFrom_neg, map_place_below]
  rfl

theorem termPlaces_binary (hop : kind.flips? op = some flip) :
    (binary op l r).termPlaces kind flipped
      = (l.termPlaces kind flipped).map (Path.below .left)
        ++ (r.termPlaces kind (flipped != flip)).map (Path.below .right) := by
  rw [termPlaces, termsFrom_binary hop, List.map_append, map_place_below, map_place_below,
    map_place_termsFrom]
  rfl

theorem IsTerm.termPlaces (h : e.IsTerm kind) : e.termPlaces kind flipped = [([], flipped)] := by
  rw [Expr.termPlaces, h.termsFrom]
  rfl

/-! ### Putting -/

theorem isFlipped_nil (e : Expr α) : e.isFlipped kind [] = false := by
  cases e <;> rfl

/-- Another term at the place of a term leaves all places as they are. -/
theorem termPlaces_put (hp : ChainPath kind e p) (ha : e.at? p = some a) (hterm : a.IsTerm kind)
    (hf : f.IsTerm kind) : (e.put p f).termPlaces kind flipped = e.termPlaces kind flipped := by
  induction hp generalizing flipped with
  | here =>
      obtain rfl := Option.some.inj ha
      rw [put_nil, hf.termPlaces, hterm.termPlaces]
  | operand hp ih =>
      rw [put, termPlaces_neg, termPlaces_neg, ih ha]
  | left hop hp ih =>
      obtain ⟨flip, hop⟩ := Option.isSome_iff_exists.mp hop
      rw [put, termPlaces_binary hop, termPlaces_binary hop, ih ha]
  | right hop hp ih =>
      obtain ⟨flip, hop⟩ := Option.isSome_iff_exists.mp hop
      rw [put, termPlaces_binary hop, termPlaces_binary hop, ih ha]

/-- Operators on the way to another part are the same, so it is flipped as before. -/
theorem isFlipped_put (hpq : Path.Apart q p) : (e.put q f).isFlipped kind p = e.isFlipped kind p := by
  induction p generalizing e q with
  | nil => exact absurd rfl hpq.symm.ne_nil
  | cons t p ih =>
      cases q with
      | nil => exact absurd rfl hpq.ne_nil
      | cons s q =>
          by_cases hst : s = t
          · subst hst
            have hih := fun x : Expr α => ih (e := x) (Path.Apart.cons_iff.mp hpq)
            cases e <;> cases s <;> simp [put, isFlipped, hih]
          · cases e <;> cases s <;> cases t <;> first | rfl | exact absurd rfl hst

/-! ### Taking out -/

variable [Arithmetic α]

/-- If nothing of the chain would be left, the term is all of it. -/
theorem termPlaces_of_splice?_eq_none (hp : ChainPath kind e p) (ha : e.at? p = some a)
    (hterm : a.IsTerm kind) (hsp : e.splice? kind p = none) :
    e.termPlaces kind flipped = [(p, e.isFlipped kind p != flipped)] := by
  induction hp generalizing flipped with
  | here =>
      obtain rfl := Option.some.inj ha
      rw [hterm.termPlaces]
      simp [isFlipped]
  | @operand x p hp ih =>
      obtain ⟨hbelow, -⟩ := splice?_eq_none_below hsp rfl
      rw [termPlaces_neg, ih ha hbelow, isFlipped]
      cases x.isFlipped kind p <;> cases flipped <;> cases kind <;> rfl
  | left | right =>
      have hhere := (splice?_eq_none_below hsp rfl).2
      exact absurd (eq_operand_of_spliceHere? hhere rfl) (by decide)

end Expr

namespace Splice

/-- What is left in the place of the term that goes. -/
def leaves (flipped : Bool) : Splice α → List (Path × Bool)
  | fill place _ => [(place, flipped)]
  | _ => []

/-- Where a place is found after the splice. -/
def shiftPlace (sp : Splice α) (t : Path × Bool) : Path × Bool := (sp.shift t.1, t.2)

theorem moved_cons (s : Slot) (source target p : Path) :
    moved (s :: source) (s :: target) (s :: p) = s :: moved source target p := by
  simp only [moved, List.isPrefixOf, beq_self_eq_true, Bool.true_and, List.length_cons,
    List.drop_succ_cons]
  split <;> rfl

theorem moved_of_ne (h : t ≠ s) (source target p : Path) :
    moved (s :: source) target (t :: p) = t :: p := by
  simp [moved, List.isPrefixOf, h.symm]

theorem shift_below (sp : Splice α) (s : Slot) (p : Path) :
    (sp.below [s]).shift (s :: p) = s :: sp.shift p := by
  cases sp with
  | promote owner survivor => exact moved_cons s (owner ++ [survivor]) owner p
  | negate owner => exact moved_cons s (owner ++ [.right]) (owner ++ [.operand]) p
  | fill place v => rfl

/-- In the other operand nothing moves. -/
theorem shift_below_of_ne (sp : Splice α) (h : t ≠ s) (p : Path) :
    (sp.below [s]).shift (t :: p) = t :: p := by
  cases sp with
  | promote owner survivor => exact moved_of_ne h (owner ++ [survivor]) _ p
  | negate owner => exact moved_of_ne h (owner ++ [.right]) _ p
  | fill place v => rfl

theorem leaves_below (sp : Splice α) (s : Slot) (b : Bool) :
    (sp.below [s]).leaves b = (sp.leaves b).map (Path.below s) := by
  cases sp <;> rfl

theorem map_shiftPlace_below (sp : Splice α) (s : Slot) (ts : List (Path × Bool)) :
    (ts.map (Path.below s)).map (sp.below [s]).shiftPlace
      = (ts.map sp.shiftPlace).map (Path.below s) := by
  simp only [List.map_map]
  exact List.map_congr_left fun t _ => by simp [shiftPlace, Path.below, shift_below]

theorem map_shiftPlace_below_of_ne (sp : Splice α) (h : t ≠ s) (ts : List (Path × Bool)) :
    (ts.map (Path.below t)).map (sp.below [s]).shiftPlace = ts.map (Path.below t) := by
  rw [List.map_map]
  exact List.map_congr_left fun u _ => by simp [shiftPlace, Path.below, shift_below_of_ne sp h]

/-- The operand that takes the place of its operator. -/
theorem map_shiftPlace_promote (s : Slot) (ts : List (Path × Bool)) :
    (ts.map (Path.below s)).map (promote [] s : Splice α).shiftPlace = ts := by
  rw [List.map_map]
  refine (List.map_congr_left fun t _ => ?_).trans (List.map_id _)
  exact Prod.ext (moved_append [s] [] t.1) rfl

/-- The operand that is negated in the place of its operator. -/
theorem map_shiftPlace_negate (ts : List (Path × Bool)) :
    (ts.map (Path.below .right)).map (negate [] : Splice α).shiftPlace
      = ts.map (Path.below .operand) := by
  rw [List.map_map]
  exact List.map_congr_left fun t _ => Prod.ext (moved_append [.right] [.operand] t.1) rfl

theorem map_shiftPlace_fill (p : Path) (v : α) (ts : List (Path × Bool)) :
    ts.map (fill p v).shiftPlace = ts := List.map_id _

end Splice

namespace Expr

variable [Arithmetic α]

/-- What is left of an operator of a chain without its left operand. -/
theorem termPlaces_spliceHere_left (hop : kind.flips? op = some flip)
    (hsp : (binary op l r).spliceHere? kind .left = some sp) :
    ((binary op l r).splice sp).termPlaces kind flipped = sp.leaves flipped
      ++ ((r.termPlaces kind (flipped != flip)).map (Path.below .right)).map sp.shiftPlace := by
  cases kind <;> cases op <;> simp only [ChainKind.flips?, Option.some.injEq, reduceCtorEq] at hop <;>
    subst hop <;> cases hsp
  case additive.add | multiplicative.mul =>
    rw [Splice.map_shiftPlace_promote, Bool.bne_false]
    rfl
  case additive.sub =>
    rw [Splice.map_shiftPlace_negate]
    exact termPlaces_neg
  case multiplicative.div =>
    rw [Splice.map_shiftPlace_fill]
    have hplaces : (binary .div (const Arithmetic.one) r).termPlaces .multiplicative flipped = _ :=
      termPlaces_binary rfl
    rwa [show (binary .div l r).splice (.fill [.left] Arithmetic.one)
      = binary .div (const Arithmetic.one) r from congrArg (binary .div · r) (put_nil l _)]

/-- The splice takes the term at the path out of the chain.  The other terms stay in
order and keep their flags. -/
def TakesOut (kind : ChainKind) (e : Expr α) (p : Path) (sp : Splice α) : Prop :=
  ∀ flipped, ∃ before after,
    e.termPlaces kind flipped = before ++ (p, e.isFlipped kind p != flipped) :: after ∧
    (e.splice sp).termPlaces kind flipped = before.map sp.shiftPlace
      ++ sp.leaves (e.isFlipped kind p != flipped) ++ after.map sp.shiftPlace

/-- Flags are turned in any order. -/
theorem bne_bne_comm (a b c : Bool) : (a != (b != c)) = ((a != c) != b) := by
  cases a <;> cases b <;> cases c <;> rfl

namespace TakesOut

omit [Arithmetic α] in
/-- The term is further down, below a negation. -/
theorem neg (h : x.TakesOut kind p sp) (hplace : (x.at? sp.place).isSome) :
    (unary .neg x).TakesOut kind (.operand :: p) (sp.below [.operand]) := by
  intro flipped
  obtain ⟨before, after, hwhole, hrest⟩ := h (flipped != (kind == .additive))
  rw [bne_bne_comm] at hwhole hrest
  refine ⟨before.map (Path.below .operand), after.map (Path.below .operand), ?_, ?_⟩
  · rw [termPlaces_neg, hwhole, List.map_append, List.map_cons]
    rfl
  · rw [splice_below rfl hplace, put, put_nil, termPlaces_neg, hrest, isFlipped]
    simp only [List.map_append, Splice.map_shiftPlace_below, Splice.leaves_below]

omit [Arithmetic α] in
/-- The term is further down in the left operand, so the right one is as it was. -/
theorem left (h : l.TakesOut kind p sp) (hop : kind.flips? op = some flip)
    (hplace : (l.at? sp.place).isSome) :
    (binary op l r).TakesOut kind (.left :: p) (sp.below [.left]) := by
  intro flipped
  obtain ⟨before, after, hwhole, hrest⟩ := h flipped
  refine ⟨before.map (Path.below .left), after.map (Path.below .left)
    ++ (r.termPlaces kind (flipped != flip)).map (Path.below .right), ?_, ?_⟩
  · rw [termPlaces_binary hop, hwhole, List.map_append, List.map_cons, List.append_assoc,
      List.cons_append]
    rfl
  · rw [splice_below rfl hplace, put, put_nil, termPlaces_binary hop, hrest, isFlipped]
    simp only [List.map_append, Splice.map_shiftPlace_below, Splice.leaves_below,
      Splice.map_shiftPlace_below_of_ne sp (show Slot.right ≠ .left by decide), List.append_assoc]

omit [Arithmetic α] in
/-- The term is further down in the right operand, where terms are flipped as the
operator says. -/
theorem right (h : r.TakesOut kind p sp) (hop : kind.flips? op = some flip)
    (hplace : (r.at? sp.place).isSome) :
    (binary op l r).TakesOut kind (.right :: p) (sp.below [.right]) := by
  intro flipped
  obtain ⟨before, after, hwhole, hrest⟩ := h (flipped != flip)
  rw [bne_bne_comm] at hwhole hrest
  refine ⟨(l.termPlaces kind flipped).map (Path.below .left) ++ before.map (Path.below .right),
    after.map (Path.below .right), ?_, ?_⟩
  · rw [termPlaces_binary hop, isFlipped_right hop, hwhole, List.map_append, List.map_cons,
      List.append_assoc]
    rfl
  · rw [splice_below rfl hplace, put, put_nil, termPlaces_binary hop, isFlipped_right hop, hrest]
    simp only [List.map_append, Splice.map_shiftPlace_below, Splice.leaves_below,
      Splice.map_shiftPlace_below_of_ne sp (show Slot.left ≠ .right by decide), List.append_assoc]

/-- The operand of a negation is the term.  In a product minus one is left. -/
theorem neg_here (hp : ChainPath kind x p) (ha : x.at? p = some a) (hterm : a.IsTerm kind)
    (hnone : x.splice? kind p = none) (hhere : (unary .neg x).spliceHere? kind .operand = some sp) :
    (unary .neg x).TakesOut kind (.operand :: p) sp := by
  intro flipped
  cases kind with
  | additive => cases hhere
  | multiplicative =>
      cases hhere
      refine ⟨[], [], ?_, ?_⟩
      · rw [termPlaces_neg, termPlaces_of_splice?_eq_none hp ha hterm hnone, bne_bne_comm]
        rfl
      · obtain rfl := eq_nil_of_splice? hnone (Option.isSome_of_eq_some ha)
        rw [isFlipped, isFlipped_nil]
        simp [splice, rebuildAt, build, Splice.place, Splice.sketch, Splice.leaves,
          IsTerm.termPlaces (show (const (Arithmetic.negOne : α)).IsTerm .multiplicative from trivial)]
        cases flipped <;> rfl

/-- The left operand is the term.  Only in the place of a numerator there is something
left. -/
theorem left_here (hp : ChainPath kind l p) (ha : l.at? p = some a) (hterm : a.IsTerm kind)
    (hop : kind.flips? op = some flip) (hnone : l.splice? kind p = none)
    (hhere : (binary op l r).spliceHere? kind .left = some sp) :
    (binary op l r).TakesOut kind (.left :: p) sp := by
  intro flipped
  have hleaves : sp.leaves (l.isFlipped kind p != flipped) = sp.leaves flipped := by
    cases kind with
    | additive => cases op <;> simp [ChainKind.flips?] at hop <;> cases hhere <;> rfl
    | multiplicative =>
        obtain rfl := eq_nil_of_splice? hnone (Option.isSome_of_eq_some ha)
        rw [isFlipped_nil, Bool.false_bne]
  refine ⟨[], (r.termPlaces kind (flipped != flip)).map (Path.below .right), ?_, ?_⟩
  · rw [termPlaces_binary hop, termPlaces_of_splice?_eq_none hp ha hterm hnone]
    rfl
  · rw [termPlaces_spliceHere_left hop hhere, isFlipped, hleaves]
    rfl

/-- The right operand is the term.  The left one takes the place of the operator. -/
theorem right_here (hp : ChainPath kind r p) (ha : r.at? p = some a) (hterm : a.IsTerm kind)
    (hop : kind.flips? op = some flip) (hnone : r.splice? kind p = none)
    (hhere : (binary op l r).spliceHere? kind .right = some sp) :
    (binary op l r).TakesOut kind (.right :: p) sp := by
  intro flipped
  cases hhere
  refine ⟨(l.termPlaces kind flipped).map (Path.below .left), [], ?_, ?_⟩
  · rw [termPlaces_binary hop, termPlaces_of_splice?_eq_none hp ha hterm hnone, isFlipped_right hop,
      bne_bne_comm]
    rfl
  · rw [Splice.map_shiftPlace_promote]
    exact (List.append_nil _).symm.trans (congrArg (· ++ []) (List.append_nil _).symm)

end TakesOut

/-- **A splice takes one term out of a chain.**  The others stay in order and keep
their flags. -/
theorem termPlaces_splice (hp : ChainPath kind e p) (ha : e.at? p = some a)
    (hterm : a.IsTerm kind) (hsp : e.splice? kind p = some sp) : e.TakesOut kind p sp := by
  have hsome := Option.isSome_of_eq_some ha
  induction hp generalizing sp with
  | here => cases hsp
  | @operand x p hp ih =>
      rcases splice?_below_or_here hsp rfl with ⟨sp', hsp', rfl⟩ | ⟨hnone, hhere⟩
      · exact (ih ha hsp' hsome).neg (isSome_place hsp' hsome)
      · exact .neg_here hp ha hterm hnone hhere
  | @left op l r p hop hp ih =>
      obtain ⟨flip, hop⟩ := Option.isSome_iff_exists.mp hop
      rcases splice?_below_or_here hsp rfl with ⟨sp', hsp', rfl⟩ | ⟨hnone, hhere⟩
      · exact (ih ha hsp' hsome).left hop (isSome_place hsp' hsome)
      · exact .left_here hp ha hterm hop hnone hhere
  | @right op l r p hop hp ih =>
      obtain ⟨flip, hop⟩ := Option.isSome_iff_exists.mp hop
      rcases splice?_below_or_here hsp rfl with ⟨sp', hsp', rfl⟩ | ⟨hnone, hhere⟩
      · exact (ih ha hsp' hsome).right hop (isSome_place hsp' hsome)
      · exact .right_here hp ha hterm hop hnone hhere

/-- The places of the terms after one of them has changed and another one has
gone. -/
theorem termPlaces_merge {kept t : ChainTerm α} {L₁ L₂ : List (ChainTerm α)}
    (hlist : e.terms kind = L₁ ++ t :: L₂) (hk : kept ∈ L₁ ++ L₂) (hf : f.IsTerm kind)
    (hsp : e.splice? kind t.path = some sp) :
    ((e.put kept.path f).splice sp).termPlaces kind false
      = (L₁.map ChainTerm.place).map sp.shiftPlace ++ sp.leaves t.flipped
        ++ (L₂.map ChainTerm.place).map sp.shiftPlace := by
  have hapart := (apart_of_terms_eq hlist kept hk).symm
  obtain ⟨ht, hterms⟩ := mem_terms_of_terms_eq hlist
  have hkept := hterms kept hk
  obtain ⟨hkeptAt, hkeptPath⟩ := at?_of_mem_termsFrom hkept
  obtain ⟨hat, hpath⟩ := at?_of_mem_termsFrom ht
  obtain ⟨before, after, hwhole, hrest⟩ := termPlaces_splice (chainPath_put hpath hapart)
    ((at?_put_of_apart hapart).trans hat) (isTerm_of_mem_termsFrom ht) ((splice?_put hapart).trans hsp)
    false
  rw [termPlaces_put hkeptPath hkeptAt (isTerm_of_mem_termsFrom hkept) hf, termPlaces,
    show e.termsFrom kind false false = _ from hlist, List.map_append, List.map_cons,
    isFlipped_put hapart, ← flipped_of_mem_terms ht, Bool.bne_false] at hwhole
  -- the term that goes is at one place of the list only
  have hnot : ∀ L : List (ChainTerm α), (∀ u ∈ L, u ∈ L₁ ++ L₂) →
      (t.path, t.flipped) ∉ L.map ChainTerm.place := by
    intro L hL hmem
    obtain ⟨u, hu, hplace⟩ := List.mem_map.mp hmem
    exact (apart_of_terms_eq hlist u (hL u hu)).ne (Prod.mk.inj hplace).1.symm
  obtain ⟨rfl, -, rfl⟩ := (List.append_cons_inj_of_notMem
    (hnot L₁ fun u hu => by simp [hu]) (hnot L₂ fun u hu => by simp [hu])).mp hwhole
  rw [hrest, isFlipped_put hapart, ← flipped_of_mem_terms ht, Bool.bne_false]

/-- What is left of the term that goes: minus one for a factor right below a
negation, and else nothing. -/
theorem leaves_of_splice? (hp : ChainPath kind e p) (ha : (e.at? p).isSome)
    (hsp : e.splice? kind p = some sp) (hplace : sp.place ≠ p) :
    (∃ q, kind = .multiplicative ∧ p = q ++ [.operand] ∧ sp = .fill q Arithmetic.negOne) ∨
      (∀ b, sp.leaves b = []) ∧ (kind = .multiplicative → p.getLast? ≠ some .operand) := by
  -- further down in an operand the same is left
  have hbelow : ∀ {x : Expr α} {s : Slot} {p : Path} {sp' : Splice α},
      x.splice? kind p = some sp' →
      ((∃ q, kind = .multiplicative ∧ p = q ++ [.operand] ∧ sp' = .fill q Arithmetic.negOne) ∨
        (∀ b, sp'.leaves b = []) ∧ (kind = .multiplicative → p.getLast? ≠ some .operand)) →
      (∃ q, kind = .multiplicative ∧ s :: p = q ++ [.operand] ∧
          sp'.below [s] = .fill q Arithmetic.negOne) ∨
        (∀ b, (sp'.below [s]).leaves b = []) ∧
          (kind = .multiplicative → (s :: p).getLast? ≠ some .operand) := by
    rintro x s p sp' hsp' (⟨q, hkind, rfl, rfl⟩ | ⟨hleaves, hlast⟩)
    · exact .inl ⟨s :: q, hkind, rfl, rfl⟩
    · refine .inr ⟨fun b => by rw [Splice.leaves_below, hleaves]; rfl, fun hkind => ?_⟩
      cases p with
      | nil => cases hsp'
      | cons t p => exact hlast hkind
  induction hp generalizing sp with
  | here => cases hsp
  | @operand x p hp ih =>
      rcases splice?_below_or_here hsp rfl with ⟨sp', hsp', rfl⟩ | ⟨hnone, hhere⟩
      · exact hbelow hsp' (ih ha hsp' (Splice.place_below_ne_iff.mp hplace))
      · cases kind <;> cases hhere
        obtain rfl := eq_nil_of_splice? hnone ha
        exact .inl ⟨[], rfl, rfl, rfl⟩
  | @left op l r p hop hp ih =>
      rcases splice?_below_or_here hsp rfl with ⟨sp', hsp', rfl⟩ | ⟨hnone, hhere⟩
      · exact hbelow hsp' (ih ha hsp' (Splice.place_below_ne_iff.mp hplace))
      · cases kind with
        | additive =>
            refine .inr ⟨fun b => ?_, nofun⟩
            cases op <;> simp [ChainKind.flips?] at hop <;> cases hhere <;> rfl
        | multiplicative =>
            -- a product leaves nothing; a numerator is excluded
            obtain rfl := eq_nil_of_splice? hnone ha
            cases op <;> simp [ChainKind.flips?] at hop <;> cases hhere
            · exact .inr ⟨fun _ => rfl, fun _ => by simp⟩
            · exact absurd rfl hplace
  | @right op l r p hop hp ih =>
      rcases splice?_below_or_here hsp rfl with ⟨sp', hsp', rfl⟩ | ⟨hnone, hhere⟩
      · exact hbelow hsp' (ih ha hsp' (Splice.place_below_ne_iff.mp hplace))
      · cases hhere
        refine .inr ⟨fun _ => rfl, ?_⟩
        rintro rfl
        obtain rfl := eq_nil_of_splice? hnone ha
        simp

end Expr

end Formula
