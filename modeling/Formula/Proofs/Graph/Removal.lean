/-
Formula/Proofs/Graph/Removal.lean

Taking one term out of a chain of a graph.  All other terms are the cells they were,
in the same order and with the same flags (`splice_removes`).

In a sum nothing else happens to the terms.  A product keeps a factor in two places:
a whole numerator becomes one, and a factor right below a negation becomes minus one,
together with the negation.  So the sign of a product is not lost: its negations and
the factors minus one that are put in are as many as the negations before
(`Expr.negations_splice`).
-/
import Formula.Proofs.Graph.Powers
import Formula.Proofs.Simplify.Terms

namespace Formula

namespace Expr

variable {α : Type} {kind : ChainKind} {e f l r o a x : Expr α} {op : BinaryOp} {p q : Path}
  {s : Slot} {sp : Splice α} {flipped pinned : Bool}

/-! ### The negations of a chain -/

/-- What is put in the place of a part of the run counts instead of it. -/
theorem negations_put (hp : ChainPath kind e p) (ho : e.at? p = some o) :
    (e.put p f).negations kind + o.negations kind = e.negations kind + f.negations kind := by
  induction hp with
  | here =>
      obtain rfl := Option.some.inj ho
      rw [put_nil, Nat.add_comm]
  | operand hp ih =>
      rw [put, negations_neg, negations_neg, Nat.add_right_comm, ih ho, Nat.add_right_comm]
  | left hop hp ih =>
      rw [put, negations_binary hop, negations_binary hop, Nat.add_right_comm, ih ho, Nat.add_right_comm]
  | right hop hp ih =>
      rw [put, negations_binary hop, negations_binary hop, Nat.add_assoc, ih ho, Nat.add_assoc]

/-! ### Where a chain is mended -/

variable [Arithmetic α]

/-- How a product is mended depends on the operator right above the factor only. -/
theorem splice_cases (hpath : ChainPath .multiplicative e (q ++ [s])) (ho : e.at? q = some o)
    (hsp : e.splice? .multiplicative (q ++ [s]) = some sp) :
    (s = .operand ∧ ∃ x, o = .unary .neg x ∧ sp = .fill q Arithmetic.negOne) ∨
      ∃ op l r, o = .binary op l r ∧ (ChainKind.multiplicative.flips? op).isSome ∧
        (s = .left ∧ op = .div ∧ sp = .fill (q ++ [.left]) Arithmetic.one ∨
          s = .left ∧ op = .mul ∧ sp = .promote q .right ∨ s = .right ∧ sp = .promote q .left) := by
  obtain ⟨-, ⟨rfl, x, rfl⟩ | ⟨hs, op, l, r, rfl, hop⟩⟩ := hpath.concat ho
  · rw [splice?_concat ho rfl] at hsp
    exact .inl ⟨rfl, x, rfl, by simpa [spliceHere?, Splice.below, eq_comm] using hsp⟩
  · refine .inr ⟨op, l, r, rfl, hop, ?_⟩
    rcases hs with rfl | rfl
    · rw [splice?_concat ho rfl] at hsp
      cases op <;> simp [ChainKind.flips?] at hop <;>
        simpa [spliceHere?, Splice.below, eq_comm] using hsp
    · rw [splice?_concat ho rfl] at hsp
      exact .inr (.inr ⟨rfl, by simpa [spliceHere?, Splice.below, eq_comm] using hsp⟩)

omit [Arithmetic α] in
/-- The operand that stays takes the place of its operator. -/
theorem splice_promote (ho : e.at? q = some o) (hx : o.operand? s = some x) :
    e.splice (.promote q s) = e.put q x := by
  rw [splice, rebuildAt, Splice.place, Splice.sketch, build, part_of_at? ho, part_of_at? (a := x)]
  rw [at?_cons, hx]
  rfl

/-- A negation goes only with the factor right below it. -/
theorem negations_splice (hpath : ChainPath .multiplicative e p) (ha : e.at? p = some a)
    (hterm : a.IsTerm .multiplicative) (hsp : e.splice? .multiplicative p = some sp) :
    (e.splice sp).negations .multiplicative + (if p.getLast? = some .operand then 1 else 0)
      = e.negations .multiplicative := by
  obtain rfl | ⟨q, s, rfl⟩ := List.eq_nil_or_concat p
  · cases hsp
  rw [List.concat_eq_append] at hpath ha hsp ⊢
  rw [List.getLast?_append, List.getLast?_singleton, Option.some_or]
  obtain ⟨o, ho, hoa⟩ := Option.bind_eq_some_iff.mp ((at?_append _ _ _).symm.trans ha)
  obtain ⟨x, hx, hxa⟩ := Option.bind_eq_some_iff.mp hoa
  obtain rfl := Option.some.inj hxa
  have hzero := hterm.negations
  have hput : ∀ f : Expr α, (e.put q f).negations .multiplicative + o.negations .multiplicative
      = e.negations .multiplicative + f.negations .multiplicative := fun f =>
    negations_put (hpath.concat ho).1 ho
  rcases splice_cases hpath ho hsp with ⟨rfl, x, rfl, rfl⟩ | ⟨op, l, r, rfl, hop, hcases⟩
  · obtain rfl := Option.some.inj hx
    have hfill := hput (const Arithmetic.negOne)
    rw [negations_neg, hzero] at hfill
    exact hfill
  · have hwhole := negations_binary (l := l) (r := r) hop
    rcases hcases with ⟨rfl, rfl, rfl⟩ | ⟨rfl, rfl, rfl⟩ | ⟨rfl, rfl⟩ <;>
      obtain rfl := Option.some.inj hx
    · have hat : e.at? (q ++ [.left]) = some l := by
        rw [at?_append, ho]
        rfl
      have hfill := negations_put (f := const Arithmetic.one) hpath hat
      rw [hzero] at hfill
      exact hfill
    · have hkept := hput r
      rw [splice_promote ho rfl, if_neg (by decide)]
      omega
    · have hkept := hput l
      rw [splice_promote ho rfl, if_neg (by decide)]
      omega

omit [Arithmetic α] in
theorem termsFrom_ne_nil (e : Expr α) : e.termsFrom kind flipped pinned ≠ [] := by
  induction e using chain_induction kind generalizing flipped pinned with
  | term e he => simp [he.termsFrom]
  | neg x ih => simpa [termsFrom_neg] using ih
  | operator op l r flip hop ihl ihr => simp [termsFrom_binary hop, ihl]

omit [Arithmetic α] in
/-- An operator of a chain has another term beside each one. -/
theorem exists_other_term {t : ChainTerm α} {L₁ L₂ : List (ChainTerm α)} (he : e = binary op l r)
    (hop : (kind.flips? op).isSome) (hlist : e.terms kind = L₁ ++ t :: L₂) : ∃ u, u ∈ L₁ ++ L₂ := by
  obtain ⟨flip, hop⟩ := Option.isSome_iff_exists.mp hop
  have hlength := congrArg List.length hlist
  rw [he, terms, termsFrom] at hlength
  simp only [hop, List.length_append, List.length_map, List.length_cons] at hlength
  have hpos : ∀ (x : Expr α) flipped pinned, 0 < (x.termsFrom kind flipped pinned).length := by
    intro x flipped pinned
    exact List.length_pos_iff.mpr (termsFrom_ne_nil x)
  have hl := hpos l false (op == .div)
  have hr := hpos r (false != flip) false
  refine List.exists_mem_of_length_pos ?_
  rw [List.length_append]
  omega

end Expr

namespace Graph

variable {α : Type} {g g' : Graph α} {i j c o x : Nat} {b : Bool} {kind : ChainKind} {n : Node α}
  {F : Finset Nat} {before after : List (Nat × Bool)}

/-- A cell is the left operand of a quotient. -/
def IsNumerator (g : Graph α) (c : Nat) : Prop :=
  ∃ o r, g.parent? c = some o ∧ g.content? o = some (.binary .div (some c) r)

/-- What is left of a term `c` with the flag `b` that has been taken out of a chain: in a
sum nothing, and of a factor nothing either, unless it is a whole numerator or right
below a negation. -/
inductive LeftOf [Arithmetic α] (kind : ChainKind) (g : Graph α) (i : Nat) (g' : Graph α) (j c : Nat)
    (b : Bool) : List (Nat × Bool) → Prop
  | term : kind = .additive → LeftOf kind g i g' j c b []
  | factor : kind = .multiplicative → ¬g.IsNumerator c → ¬g.UnderNegation c → LeftOf kind g i g' j c b []
  | numerator {p : Path} {x : Nat} : kind = .multiplicative → g.IsNumerator c → g.follow i p = some c →
      g'.follow j p = some x → g'.expr x = .const Arithmetic.one → LeftOf kind g i g' j c b [(x, b)]
  | negated {p : Path} {x : Nat} : kind = .multiplicative → g.UnderNegation c →
      g.follow i (p ++ [.operand]) = some c → g'.follow j p = some x →
      g'.expr x = .const Arithmetic.negOne → LeftOf kind g i g' j c b [(x, b)]

/-- A part is a numerator if it is the left operand of a quotient. -/
theorem Holds.isNumerator_iff {a d : Node α} {q : Path} {s : Slot} (hn : Holds g i n F)
    (hat : n.at? (q ++ [s]) = some a) (hx : g.follow i (q ++ [s]) = some x) (hd : n.at? q = some d) :
    g.IsNumerator x ↔ s = .left ∧ ∃ l r, d.expr = .binary .div l r := by
  obtain ⟨o, d', E, hd', -, hE, hparent, hslot, hop⟩ := hn.exists_owner hat hx
  obtain rfl : d = d' := Option.some.inj (hd.symm.trans hd')
  constructor
  · rintro ⟨o', r, hparent', hcontent⟩
    obtain rfl : o = o' := Option.some.inj (hparent.symm.trans hparent')
    cases hE with
    | const hc | var hc | unary hc => cases hc.symm.trans hcontent
    | @binary _ l' r' _ _ _ A B hc hl hr hoA hoB hAB hA hB =>
        cases hc.symm.trans hcontent
        refine ⟨?_, _, _, rfl⟩
        cases s with
        | left => rfl
        | operand => cases hop
        | right =>
            -- the two operands are different cells
            obtain rfl : r' = x := by simpa [slot?, hc] using hslot
            exact absurd hB.root_mem (Finset.disjoint_left.mp hAB hA.root_mem)
  · rintro ⟨rfl, l, r, hdiv⟩
    cases hE with
    | const hc | var hc | unary hc => cases hdiv
    | @binary _ l' r' _ _ _ A B hc hl hr hoA hoB hAB hA hB =>
        cases hdiv
        obtain rfl : l' = x := by simpa [slot?, hc] using hslot
        exact ⟨o, _, hparent, hc⟩

variable [Arithmetic α]

/-- What a splice leaves of a term, in a graph. -/
theorem leftOf_splice {t : ChainTerm α} {sp : Splice α} {cell' : Path → Nat} (hn : Holds g i n F)
    (hloc' : Locates g' j (n.expr.splice sp) cell') (ht : t ∈ n.expr.terms kind)
    (hx : g.follow i t.path = some x) (hsp : n.expr.splice? kind t.path = some sp) :
    LeftOf kind g i g' j x t.flipped ((sp.leaves t.flipped).map fun p => (cell' p.1, p.2)) := by
  obtain ⟨hat, hpath⟩ := Expr.at?_of_mem_termsFrom ht
  cases hkind : kind with
  | additive =>
      subst hkind
      rcases Expr.leaves_of_splice? hpath (Option.isSome_of_eq_some hat) hsp
        (Expr.place_ne_of_additive hpath hsp) with ⟨-, hne, -⟩ | ⟨hnil, -⟩
      · cases hne
      · rw [hnil]
        exact .term rfl
  | multiplicative =>
      subst hkind
      obtain ⟨a, ha, hae⟩ := Node.exists_at?_of_expr hat
      obtain hnil | ⟨q, s, hq⟩ := List.eq_nil_or_concat t.path
      · rw [hnil] at hsp
        cases hsp
      rw [List.concat_eq_append] at hq
      have hneg := hn.underNegation_iff ha hx (by simp [hq]) hpath
      rw [hq, List.getLast?_append, List.getLast?_singleton, Option.some_or, Option.some.injEq] at hneg
      rw [hq] at ha hx hsp hpath hat
      obtain ⟨o, d, E, hd, -, -, -, -, -⟩ := hn.exists_owner ha hx
      have hde : n.expr.at? q = some d.expr := by rw [Node.expr_at?, hd, Option.map_some]
      have hnum := hn.isNumerator_iff ha hx hd
      rcases Expr.splice_cases hpath hde hsp with ⟨rfl, y, hy, rfl⟩ | ⟨op, l, r, hlr, -, hcases⟩
      · exact .negated rfl (hneg.mpr rfl) hx (hloc'.follow q _ (Expr.at?_put_self hde _))
          (hloc'.expr q _ (Expr.at?_put_self hde _))
      · rcases hcases with ⟨rfl, rfl, rfl⟩ | ⟨rfl, rfl, rfl⟩ | ⟨rfl, rfl⟩
        · exact .numerator rfl (hnum.mpr ⟨rfl, l, r, hlr⟩) hx (hloc'.follow _ _ (Expr.at?_put_self hat _))
            (hloc'.expr _ _ (Expr.at?_put_self hat _))
        · refine .factor rfl (fun h => ?_) fun h => ?_
          · obtain ⟨-, l', r', hdiv⟩ := hnum.mp h
            cases hlr.symm.trans hdiv
          · cases hneg.mp h
        · refine .factor rfl (fun h => ?_) fun h => ?_
          · cases (hnum.mp h).1
          · cases hneg.mp h

variable [Numeral α]

/-- A term of a tree is taken out of its chain. -/
theorem splice_run {t : ChainTerm α} {L₁ L₂ : List (ChainTerm α)} {op : BinaryOp} {l r : Expr α}
    {cell : Path → Nat} (hg : Honest g) (hn : Holds g i n F) (hloc : Locates g i n.expr cell)
    (hroot : n.expr = .binary op l r) (hop : (kind.flips? op).isSome)
    (hlist : n.expr.terms kind = L₁ ++ t :: L₂) (hx : g.follow i t.path = some x) :
    ∃ g' j E sp cell', (Editing.splice kind i x).Runs g [] g' j ∧ Holds g' j (n.splice sp) E ∧
      n.expr.splice? kind t.path = some sp ∧ Locates g' j (n.expr.splice sp) cell' ∧
      g'.chain kind j = Locates.termCells cell L₁
        ++ (sp.leaves t.flipped).map (fun p => (cell' p.1, p.2)) ++ Locates.termCells cell L₂ ∧
      ∀ u ∈ Locates.termCells cell (L₁ ++ L₂), g'.expr u.1 = g.expr u.1 := by
  obtain ⟨kept, hk⟩ := Expr.exists_other_term hroot hop hlist
  obtain ⟨ht, hterms⟩ := Expr.mem_terms_of_terms_eq hlist
  have hapart := Expr.apart_of_terms_eq hlist kept hk
  obtain ⟨sp, hrem, hkept, -, hgone, hsp⟩ := Expr.exists_joinable (hterms kept hk) ht hapart.ne
  obtain ⟨a, ha, -⟩ := Node.exists_at?_of_expr hgone
  obtain ⟨x', D, hx', hD, -⟩ := hn.follow_of_at? ha
  obtain rfl : x = x' := Option.some.inj (hx.symm.trans hx')
  obtain ⟨g', j, E, hrun, hturns, hfollow, -⟩ := splice_spec (K := fun _ _ => True) hg hn hrem hsp ha hx hD
  -- nothing is changed but for the splice: a term is put where it is
  have hsame : (n.splice sp).expr = (n.expr.put kept.path kept.expr).splice sp := by
    rw [Node.expr_splice, Expr.put_at? hkept]
  obtain ⟨cell₀, cell', hloc₀, hloc', hchain, hexpr, hothers, hcell⟩ := hn.exists_merge hturns.holds hsame
    hlist hk hsp (Expr.isTerm_of_mem_termsFrom (hterms kept hk)) fun q b hq _ hb => hfollow q b hq hb
  obtain ⟨m, hm, -⟩ := Node.exists_at?_of_expr hkept
  rw [hcell (hfollow _ m hapart hm)] at hchain hexpr
  -- the parts have one cell each
  have hcells : ∀ L : List (ChainTerm α), (∀ u ∈ L, u ∈ L₁ ++ L₂) →
      Locates.termCells cell₀ L = Locates.termCells cell L := by
    intro L hL
    refine List.map_congr_left fun u hu => ?_
    have hu := (Expr.at?_of_mem_termsFrom (hterms u (hL u hu))).1
    rw [hloc.cell_eq hloc₀ hu hu rfl]
  rw [hcells _ fun _ => id] at hothers
  rw [rename_self, List.map_id, List.map_id, hcells L₁ fun _ => List.mem_append_left _,
    hcells L₂ fun _ => List.mem_append_right _] at hchain
  refine ⟨g', j, E, sp, cell', hrun, hturns.holds, hsp, by rwa [← Node.expr_splice], hchain, ?_⟩
  intro u hu
  by_cases hc : u.1 = cell₀ kept.path
  · rw [hc, hexpr, hloc₀.expr _ _ hkept]
  · exact hothers u hu hc

/-- **A splice takes one term out of a chain.**  On a sum or product of a reachable
graph it succeeds for every term.  The chain of the new tree is the old one without the
term: all other terms are the same cells, in the same order and with the same flags, and
are what they were.  In the place of a whole numerator is one, and in the place of a
factor and the negation right above it minus one; otherwise nothing is left.  The
negations of a product are as many as before, but for that one. -/
theorem splice_removes {op : BinaryOp} {l r : Expr α} (hg : Reachable g)
    (hi : g.isWellFormed i = true) (hroot : g.expr i = .binary op l r)
    (hop : (kind.flips? op).isSome) (hchain : g.chain kind i = before ++ (c, b) :: after) :
    ∃ g' j left, (Editing.splice kind i c).Runs g [] g' j ∧ g'.isWellFormed j = true ∧
      g'.chain kind j = before ++ left ++ after ∧ LeftOf kind g i g' j c b left ∧
      (∀ t ∈ before ++ after, g'.expr t.1 = g.expr t.1) ∧
      (kind = .multiplicative →
        (g.UnderNegation c → (g'.expr j).negations kind + 1 = (g.expr i).negations kind) ∧
        (¬g.UnderNegation c → (g'.expr j).negations kind = (g.expr i).negations kind)) := by
  obtain ⟨n, F, hn⟩ := isWellFormed_iff.mp hi
  rw [hn.expr_eq] at hroot ⊢
  obtain ⟨cell, hloc⟩ := hn.exists_locates
  rw [hloc.chain_eq_termCells, Locates.termCells] at hchain
  obtain ⟨L₁, L, hlist, rfl, hL⟩ := List.map_eq_append_iff.mp hchain
  obtain ⟨t, L₂, rfl, hct, rfl⟩ := List.map_eq_cons_iff.mp hL
  obtain ⟨rfl, rfl⟩ := Prod.mk.inj hct
  obtain ⟨ht, hterms⟩ := Expr.mem_terms_of_terms_eq hlist
  obtain ⟨hat, hpath⟩ := Expr.at?_of_mem_termsFrom ht
  have hx := hloc.follow _ _ hat
  obtain ⟨g', j, E, sp, cell', hrun, hholds, hsp, hloc', hchain', hexpr⟩ :=
    splice_run hg.sound.honest hn hloc hroot hop hlist hx
  refine ⟨g', j, _, hrun, isWellFormed_iff.mpr ⟨_, _, hholds⟩, hchain', leftOf_splice hn hloc' ht hx hsp,
    ?_, ?_⟩
  · intro u hu
    rw [← List.map_append] at hu
    exact hexpr u hu
  · rintro rfl
    obtain ⟨a, ha, -⟩ := Node.exists_at?_of_expr hat
    have hne : t.path ≠ [] := by
      intro hnil
      rw [hnil] at hsp
      cases hsp
    have hcount := Expr.negations_splice hpath hat (Expr.isTerm_of_mem_termsFrom ht) hsp
    rw [hloc'.root, hn.underNegation_iff ha hx hne hpath]
    constructor
    · intro hs
      rwa [if_pos hs] at hcount
    · intro hs
      rwa [if_neg hs] at hcount

/-- The factor `y` is taken out from below its negation: minus one is left of both. -/
theorem splice_removes_negatedFactor :
    negatedFactor.chain .multiplicative 7 = [(2, false), (3, false), (6, true)] ∧
      ∃ g' j x, (Editing.splice .multiplicative 7 3).Runs negatedFactor [] g' j ∧
        g'.chain .multiplicative j = [(2, false), (x, false), (6, true)] ∧ g'.expr x = .const (-1) ∧
        (g'.expr j).negations .multiplicative = 0 := by
  have hreachable : Reachable negatedFactor :=
    .newBinary _ _ _ <| .newVar _ <| .newBinary _ _ _ <| .newUnary _ _ <| .newVar _ <|
      .newBinary _ _ _ <| .newVar _ <| .newConst _ .empty
  have hchain : negatedFactor.chain .multiplicative 7 = [(2, false)] ++ (3, false) :: [(6, true)] := by
    decide +kernel
  have hunder : negatedFactor.UnderNegation 3 := ⟨4, .var "y", by decide +kernel, by decide +kernel⟩
  obtain ⟨g', j, left, hrun, -, hrest, hleft, -, hcount⟩ := splice_removes hreachable (i := 7)
    (by decide +kernel) expr_negatedFactor (by decide) hchain
  refine ⟨hchain, g', j, ?_⟩
  have hnegations := (hcount rfl).1 hunder
  rw [expr_negatedFactor] at hnegations
  cases hleft with
  | term hkind => cases hkind
  | factor _ _ hnot => exact absurd hunder hnot
  | numerator _ hnum =>
      obtain ⟨o, r, hparent, hcontent⟩ := hnum
      obtain rfl : 4 = o := Option.some.inj ((show some 4 = _ by decide +kernel).trans hparent)
      have hneg : negatedFactor.content? 4 = some (.unary .neg (some 3)) := by decide +kernel
      cases hneg.symm.trans hcontent
  | @negated p x _ _ _ _ hx => exact ⟨x, hrun, hrest, hx, Nat.succ.inj hnegations⟩

end Graph

end Formula
