/-
Formula/Proofs/Graph/Signs.lean

Pushing a minus sign into a product or quotient.  The cells of the tree are
edited at one factor: a constant gets the opposite value, a negation is taken out
of its slot, or the leftmost factor gets a negation above it
(`pushNegation_exact`).  Which factor that is depends on the row of factors only,
so the same factor of the same tree takes up the sign wherever the tree stands.

A negation above a product is simplified in no other way
(`applyRule_simplifyNegation`).
-/
import Formula.Proofs.Graph.Exactness
import Formula.Proofs.Simplify.Factors

namespace Formula

open Expr (Evaluates)

variable {α : Type} [Arithmetic α] [Numeral α]

/-- Pushes a minus sign into the product or quotient of a cell. -/
def Editing.pushNegation (product : Nat) : Editing α Nat := do
  let g ← get
  let (factor, change) := (g.expr product).signChange
  takeSign (← locate product factor) change
  return product

namespace Graph

variable {g : Graph α} {i z : Nat}

/-- The sign of a negation above a product or quotient is pushed into it. -/
theorem applyRule_simplifyNegation (s : Settings α) (optimize : Editing.Run α)
    (hi : g.isWellFormed i = true) (hcontent : g.content? i = some (.unary .neg (some z)))
    (hproduct : (g.expr z).isFactored = true) :
    Editing.applyRule s optimize .simplifyNegation i g = (some <$> Editing.pushNegation z) g := by
  obtain ⟨n, F, hn⟩ := isWellFormed_iff.mp hi
  have hexpr : g.expr i = .unary .neg (g.expr z) := by
    rw [hn.expr_eq]
    cases hn with
    | unary hc _ _ hx =>
        obtain ⟨rfl, hz⟩ := Content.unary.inj (Option.some.inj (hc.symm.trans hcontent))
        obtain rfl := Option.some.inj hz
        rw [hx.expr_eq, Node.expr]
    | const hc | var hc | binary hc => simp [hcontent] at hc
  have hmove : Rule.simplifyNegation.move? s (g.expr i) = some (.pushSign
      (.operand :: (g.expr z).signChange.1) (g.expr z).signChange.2) := by
    rw [hexpr, Rule.move?, if_pos hproduct]
  -- the factor is the same cell from the negation as from the product
  have hfollow : ∀ p, g.follow i (.operand :: p) = g.follow z p := fun p => by
    simp [follow, slot?, hcontent]
  have hperform : Editing.perform i (.pushSign (.operand :: (g.expr z).signChange.1)
      (g.expr z).signChange.2) g = Editing.pushNegation z g := by
    rw [Editing.perform, (Editing.Runs.locate (hfollow [])).bind_eq, Editing.pushNegation,
      Editing.Runs.get.bind_eq]
    simp only [Bind.bind, Editing.locate, hfollow]
  rw [Editing.applyRule, if_neg (by decide), Editing.Runs.get.bind_eq, hmove]
  simp only [Functor.map, Bind.bind, hperform]
  rfl

/-- **A sign is pushed into a product exactly.**  The root of a well-formed product
or quotient stays its root and the tree stays well-formed.  One factor takes up the
sign: the first constant gets the opposite value, or the first negation goes,
whichever comes first, and only if there is neither, the leftmost factor gets a
negation.  All that is not below this factor keeps its cell, and the tree grows by
none, minus one or one.  Over any field the tree evaluates wherever it did, with
nothing divided by zero, and to the opposite value. -/
theorem pushNegation_exact (hg : Reachable g) (hz : g.isWellFormed z = true)
    (hproduct : (g.expr z).isFactored = true) :
    ∃ g' p d, (Editing.pushNegation z).Runs g [] g' z ∧ g'.isWellFormed z = true ∧
      g'.parent? z = g.parent? z ∧
      (g.expr z).TakesSign p d (g'.expr z) ∧
      (∀ q, ((g.expr z).at? q).isSome → ¬p <+: q → g'.follow z q = g.follow z q) ∧
      ((g'.size z).2 : Int) = (g.size z).2 + d ∧
      ∀ [Field α] (D : Domain α), FieldDomain D → ∀ env v, Evaluates D env (g.expr z) v →
        Evaluates D env (g'.expr z) (-v) := by
  obtain ⟨n, F, hn⟩ := isWellFormed_iff.mp hz
  have hexpr := hn.expr_eq
  obtain ⟨e, he, hfits⟩ := Expr.signChange_fits (g.expr z)
  obtain ⟨s, p, hp⟩ := List.exists_cons_of_ne_nil (Expr.signChange_ne_nil hproduct)
  have hat : n.expr.at? (g.expr z).signChange.1 = some e := by rw [← hexpr, he]
  obtain ⟨f, hf, rfl⟩ := Node.exists_at?_of_expr hat
  obtain ⟨x, -, hx, -⟩ := hn.follow_of_at? hf
  rw [hp] at hf hx
  obtain ⟨g', E, hrun, hturns, hbeside⟩ :=
    takeSign_spec (K := fun _ _ => True) hg.sound.honest hn hf hx hfits
  have hexpr' : g'.expr z = (g.expr z).rebuildAt (g.expr z).signChange.1
      (g.expr z).signChange.2.sketch := by
    rw [hturns.holds.expr_eq, Node.expr_rebuildAt, ← hexpr, hp]
  obtain ⟨d, hsign⟩ := Expr.takesSign_signChange (g.expr z)
  rw [← hexpr'] at hsign
  refine ⟨g', (g.expr z).signChange.1, d, ?_, isWellFormed_iff.mpr ⟨_, _, hturns.holds⟩,
    hturns.parent rfl, hsign, ?_, ?_, ?_⟩
  · exact .silent .get (.silent (.locate (hp ▸ hx)) (.silent hrun .pure))
  · intro q hq hpq
    rw [hexpr, Node.isSome_at?_expr] at hq
    obtain ⟨b, hb⟩ := Option.isSome_iff_exists.mp hq
    exact hbeside q b (hp ▸ hpq) hb
  · have hsizes := hg.sound.sizes
    rw [hn.size_eq hsizes, hturns.holds.size_eq (hsizes.edits hturns.edits), ← Node.size_expr,
      ← Node.size_expr, ← hturns.holds.expr_eq, ← hexpr]
    exact hsign.size_eq
  · intro _ D hD env v hv
    rw [hexpr']
    exact Expr.evaluates_rebuildAt_signChange hD hv

/-- A variable divided by twice the opposite of another one. -/
def quotientByNegation : Graph ℚ :=
  (((((empty.add (.var "x")).1.add (.var "y")).1.newUnary .neg (some 1)).1.add
    (.const 2)).1.newBinary .mul (some 2) (some 3)).1.newBinary .div (some 0) (some 4) |>.1

/-- The negation below the division line goes.  Where the quotient was minus four, it
is four then. -/
theorem pushNegation_exact_quotientByNegation :
    quotientByNegation.isWellFormed 5 = true ∧ (quotientByNegation.expr 5).isFactored = true ∧
      ∃ g', (Editing.pushNegation 5).Runs quotientByNegation [] g' 5 ∧
        g'.expr 5 = .binary .div (.var "x") (.binary .mul (.var "y") (.const 2)) ∧
        (g'.size 5).2 = 5 ∧
        Evaluates (.division ℚ) (fun x => if x = "x" then some 8 else some 1) (g'.expr 5) 4 := by
  have hreachable : Reachable quotientByNegation :=
    .newBinary _ _ _ <| .newBinary _ _ _ <| .newConst _ <| .newUnary _ _ <| .newVar _ <|
      .newVar _ .empty
  have hwell : quotientByNegation.isWellFormed 5 = true := by decide +kernel
  have hexpr : quotientByNegation.expr 5 = .binary .div (.var "x")
      (.binary .mul (.unary .neg (.var "y")) (.const 2)) := by decide +kernel
  have hproduct : (quotientByNegation.expr 5).isFactored = true := by rw [hexpr]; rfl
  have hsize : (quotientByNegation.size 5).2 = 6 := by decide +kernel
  obtain ⟨g', p, d, hrun, -, -, hsign, -, hsize', hvalue⟩ :=
    pushNegation_exact hreachable hwell hproduct
  have hD := fieldArithmetic_rat.fieldDomain_division
  have hfirst : (quotientByNegation.expr 5).firstAbsorber? = some [.right, .left] := by
    rw [hexpr]
    decide
  have hbefore : Evaluates (.division ℚ) (fun x => if x = "x" then some 8 else some 1)
      (quotientByNegation.expr 5) (-4) := by
    rw [hexpr]
    refine hD.evaluates_div.mpr ⟨8, -2, .var rfl, ?_, by norm_num, by norm_num⟩
    refine hD.evaluates_mul.mpr ⟨-1, 2, ?_, .const _, by norm_num⟩
    exact hD.evaluates_neg.mpr ⟨1, .var rfl, rfl⟩
  have hafter := hvalue _ hD _ _ hbefore
  rw [neg_neg] at hafter
  generalize hold : quotientByNegation.expr 5 = e at hsign hfirst
  generalize hnew : g'.expr 5 = e' at hsign
  cases hsign with
  | wrap hnone => simp [hfirst] at hnone
  | flip hp hv =>
      obtain rfl := Option.some.inj (hfirst.symm.trans hp)
      rw [← hold, hexpr] at hv
      cases hv
  | unwrap hp hx =>
      obtain rfl := Option.some.inj (hfirst.symm.trans hp)
      subst hold
      rw [hexpr] at hx hnew
      cases hx
      refine ⟨hwell, hproduct, g', hrun, hnew, by omega, hafter⟩

end Graph

end Formula
