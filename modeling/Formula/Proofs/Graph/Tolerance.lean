/-
Formula/Proofs/Graph/Tolerance.lean

The tolerance and the value of a tree.  Operands that are alike within the tolerance
are cancelled though their difference is not zero, and a factor beside them may
magnify it beyond any bound: `1048576 * ((x + 1) - (x + 1.00006103515625))` becomes
zero with a tolerance of a ten-thousandth (`optimizeTree_cancels_similar`).  Nothing else goes
wrong.  The value is kept whatever the tolerance, if only equal operands are
cancelled.  It is also kept by all tolerances up to some bound, which depends on the
tree and not on the values of its variables (`optimizeTree_tolerates`).
-/
import Formula.Proofs.Graph.Exactness
import Formula.Proofs.Simplify.Tolerance

namespace Formula

open Expr (Evaluates)

/-! ### Values without powers -/

namespace Expr

variable {K : Type} [Field K] [Arithmetic K] {env ctx : Environment K} {e : Expr K} {v : K}

/-- What has a value in arithmetic has no powers, roots and logarithms. -/
theorem in_arithmetic_of_evaluates (h : Evaluates (.arithmetic K) env e v) : e.In .arithmetic := by
  induction h with
  | const | var => trivial
  | unary _ hmem ih => exact ⟨hmem, ih⟩
  | binary _ _ hmem ihl ihr =>
      refine ⟨⟨?_, ?_, ?_⟩, ihl, ihr⟩ <;> rintro rfl
      exacts [hmem, hmem.2, hmem]

/-- Wherever the one expression has a value in arithmetic that agrees with the
context, the other one has the same. -/
def KeepsValues (ctx : Environment K) (e f : Expr K) : Prop :=
  ∀ env v, (∀ x c, ctx x = some c → env x = some c) →
    Evaluates (.arithmetic K) env e v → Evaluates (.arithmetic K) env f v

end Expr

namespace Graph

variable {K : Type} [Field K] [LinearOrder K] [IsStrictOrderedRing K] [Numeral K] [Arithmetic K]
  {s : Settings K} {ctx : Environment K} {g : Graph K} {i : Nat}

omit [LinearOrder K] [IsStrictOrderedRing K] [Numeral K] in
/-- A run that does what it does without a tolerance keeps values. -/
theorem keepsValues_of_eq {n : Node K} {ε : K} (hK : FieldArithmetic K) (hs : s.rational = true)
    (hn : n.Justified fun e => ∃ s' : Settings K, s'.rational = true ∧ e.Fixed s' ctx)
    (h : n.expr.In .arithmetic → Node.optimizeWithin (s.withEpsilon ε) ctx n.expr.weight n
      = Node.optimizeWithin (s.withEpsilon 0) ctx n.expr.weight n) :
    n.expr.KeepsValues ctx (n.optimizeTree (s.withEpsilon ε) ctx).value.expr := by
  intro env v hle hv
  have hjust : n.Justified (Expr.Tidy ctx) := hn.imp fun _ ⟨s', hs', hfixed⟩ =>
    Node.tidy_of_fixed hK.exact_arithmetic hs' hfixed
  have hpreserves : Node.Preserves (.arithmetic K) env ctx (fun _ => True) n.expr.weight
      (Node.optimizeWithin (s.withEpsilon 0) ctx n.expr.weight) :=
    Node.preserves_optimizeWithin (s := s.withEpsilon 0) hK.exact_arithmetic rfl hs hle
      (.inl fun _ _ => id) _
  have hvalue : (n.optimizeTree (s.withEpsilon ε) ctx).value
      = (Node.optimizeWithin (s.withEpsilon ε) ctx n.expr.weight n).value.node := rfl
  rw [hvalue, h (Expr.in_arithmetic_of_evaluates hv)]
  exact (hpreserves n v hv hjust (Nat.le_refl _) fun _ _ => trivial).1

/-- **The tolerance only matters for cancellations.**  In exact arithmetic the optimizer
succeeds on every well-formed tree, with any tolerance.  If all differences and
quotients that it cancels are of equal operands, then the result has the value of
the tree wherever the tree has one without a division by zero.  With a small enough
tolerance it has in any case.  Cells of the tree may be marked where the optimizer
would change nothing with some tolerance. -/
theorem optimizeTree_tolerates (hK : FieldArithmetic K)
    (hwithin : ∀ ε a b : K, Arithmetic.within ε a b = true ↔ |a - b| < ε) (hs : s.rational = true)
    (hg : Reachable g) (hi : g.isWellFormed i = true)
    (hmarks : ∀ p c, g.follow i p = some c → g.isSettled c = true →
      ∃ s' : Settings K, s'.rational = true ∧ (g.expr c).Fixed s' ctx) :
    (∀ ε, ∃ g' root events, g.optimizeTree (s.withEpsilon ε) ctx i = ⟨(g', .ok root), events⟩ ∧
      g'.isWellFormed root = true ∧
      ((∀ e ∈ events, e.CancelsEqual) → (g.expr i).KeepsValues ctx (g'.expr root))) ∧
    ∃ δ > 0, ∀ ε, 0 < ε → ε ≤ δ → ∃ g' root events,
      g.optimizeTree (s.withEpsilon ε) ctx i = ⟨(g', .ok root), events⟩ ∧
      (g.expr i).KeepsValues ctx (g'.expr root) := by
  obtain ⟨n, F, hn⟩ := isWellFormed_iff.mp hi
  have hjust : n.Justified fun e => ∃ s' : Settings K, s'.rational = true ∧ e.Fixed s' ctx :=
    hn.justified_of_follow hmarks
  have hrun : ∀ ε, ∃ g' root events, g.optimizeTree (s.withEpsilon ε) ctx i = ⟨(g', .ok root), events⟩ ∧
      g'.isWellFormed root = true ∧ events = (n.optimizeTree (s.withEpsilon ε) ctx).trace ∧
      g'.expr root = (n.optimizeTree (s.withEpsilon ε) ctx).value.expr := by
    intro ε
    obtain ⟨g', root, E, hrun, hroot, -⟩ := optimizeTree_spec (marksOnly_true (s.withEpsilon ε) ctx)
      hg.sound hn fun _ _ => trivial
    exact ⟨g', root, _, hrun, isWellFormed_iff.mpr ⟨_, _, hroot⟩, rfl, hroot.expr_eq⟩
  rw [hn.expr_eq]
  constructor
  · intro ε
    obtain ⟨g', root, events, hrun, hroot, rfl, hexpr⟩ := hrun ε
    refine ⟨g', root, _, hrun, hroot, fun hclear => ?_⟩
    rw [hexpr]
    refine keepsValues_of_eq hK hs hjust fun hfree => ?_
    exact Node.optimizeWithin_of_cancelsEqual (s := s.withEpsilon 0) hK rfl hfree ε fun e he =>
      hclear e (List.mem_append_left _ he)
  · obtain ⟨δ, hδ, hsmall⟩ : ∃ δ > 0, ∀ ε, 0 < ε → ε ≤ δ → n.expr.In .arithmetic →
        Node.optimizeWithin (s.withEpsilon ε) ctx n.expr.weight n
          = Node.optimizeWithin (s.withEpsilon 0) ctx n.expr.weight n := by
      by_cases hfree : n.expr.In .arithmetic
      · let _ := Preorder.topology K
        have _ : OrderTopology K := ⟨rfl⟩
        have hnear := Node.eventually_optimizeWithin (s := s.withEpsilon 0) hK hwithin rfl ctx
          n.expr.weight hfree
        obtain ⟨δ, hδ, hsub⟩ := mem_nhdsGT_iff_exists_Ioc_subset.mp hnear
        exact ⟨δ, hδ, fun ε hpos hle _ => hsub ⟨hpos, hle⟩⟩
      · exact ⟨1, one_pos, fun _ _ _ h => absurd h hfree⟩
    refine ⟨δ, hδ, fun ε hpos hle => ?_⟩
    obtain ⟨g', root, events, hrun, -, -, hexpr⟩ := hrun ε
    refine ⟨g', root, events, hrun, ?_⟩
    rw [hexpr]
    exact keepsValues_of_eq hK hs hjust (hsmall ε hpos hle)

/-! ### A magnified difference -/

/-- The difference of `x + 1` and `x + 1.00006103515625`, times a power of two. -/
def magnifiedDifference : Graph ℚ :=
  ((((((((empty.add (.var "x")).1.add (.const 1)).1.newBinary .add (some 0) (some 1)).1.add
    (.var "x")).1.add (.const (16385 / 16384))).1.newBinary .add (some 3) (some 4)).1.newBinary .sub
      (some 2) (some 5)).1.add (.const 1048576)).1.newBinary .mul (some 7) (some 6) |>.1

theorem reachable_magnifiedDifference : Reachable magnifiedDifference :=
  .newBinary _ _ _ <| .newConst _ <| .newBinary _ _ _ <| .newBinary _ _ _ <| .newConst _ <| .newVar _ <|
    .newBinary _ _ _ <| .newConst _ <| .newVar _ .empty

/-- Its value is minus sixty-four. -/
theorem evaluates_magnifiedDifference (x : ℚ) :
    Evaluates (.arithmetic ℚ) (fun _ => some x) (magnifiedDifference.expr 8) (-64) := by
  have hD := fieldArithmetic_rat.exact_arithmetic
  have hexpr : magnifiedDifference.expr 8 = .binary .mul (.const 1048576) (.binary .sub
      (.binary .add (.var "x") (.const 1)) (.binary .add (.var "x") (.const (16385 / 16384)))) := by
    decide +kernel
  rw [hexpr]
  refine hD.evaluates_mul.mpr ⟨_, -1 / 16384, .const _, ?_, by norm_num⟩
  refine hD.evaluates_sub.mpr ⟨x + 1, x + 16385 / 16384, ?_, ?_, by ring⟩
  · exact hD.evaluates_add.mpr ⟨x, 1, .var rfl, .const _, rfl⟩
  · exact hD.evaluates_add.mpr ⟨x, 16385 / 16384, .var rfl, .const _, rfl⟩

/-- With a small tolerance the value is still minus sixty-four. -/
theorem optimizeTree_tolerates_magnifiedDifference :
    ∃ δ > 0, ∀ ε : ℚ, 0 < ε → ε ≤ δ → ∃ g' root events,
      magnifiedDifference.optimizeTree ⟨true, ε, false⟩ .empty 8 = ⟨(g', .ok root), events⟩ ∧
      Evaluates (.arithmetic ℚ) (fun _ => some 1) (g'.expr root) (-64) := by
  have hunmarked : ∀ c, magnifiedDifference.isSettled c = false := fun c => by
    rcases Nat.lt_or_ge c 9 with hc | hc
    · exact (by decide +kernel : ∀ c < 9, magnifiedDifference.isSettled c = false) c hc
    · exact isSettled_of_le hc
  obtain ⟨-, δ, hδ, hsmall⟩ := @optimizeTree_tolerates ℚ _ _ _ _ _ ⟨true, 0, false⟩ .empty
    magnifiedDifference 8 fieldArithmetic_rat (fun _ _ _ => decide_eq_true_iff) rfl
    reachable_magnifiedDifference (by decide +kernel) fun p c _ hc => by rw [hunmarked c] at hc; cases hc
  refine ⟨δ, hδ, fun ε hpos hle => ?_⟩
  obtain ⟨g', root, events, hrun, hkeeps⟩ := hsmall ε hpos hle
  exact ⟨g', root, events, hrun, hkeeps _ _ nofun (evaluates_magnifiedDifference 1)⟩

/-- **A difference that is cancelled may be magnified.**  With a tolerance of a
ten-thousandth the optimizer makes zero of the tree, whose value is minus sixty-four. -/
theorem optimizeTree_cancels_similar :
    Reachable magnifiedDifference ∧ magnifiedDifference.isWellFormed 8 = true ∧
    Evaluates (.arithmetic ℚ) (fun _ => some 1) (magnifiedDifference.expr 8) (-64) ∧
    ∃ g' root events, magnifiedDifference.optimizeTree ⟨true, 1 / 10000, false⟩ .empty 8
        = ⟨(g', .ok root), events⟩ ∧
      Evaluates (.arithmetic ℚ) (fun _ => some 1) (g'.expr root) 0 ∧ ¬|(0 : ℚ) - -64| < 1 / 10000 := by
  have hroot : (magnifiedDifference.optimizeTree ⟨true, 1 / 10000, false⟩ .empty 8).value.2 = .ok 10 := by
    decide +kernel
  have hexpr : (magnifiedDifference.optimizeTree ⟨true, 1 / 10000, false⟩ .empty 8).value.1.expr 10
      = .const 0 := by decide +kernel
  refine ⟨reachable_magnifiedDifference, by decide +kernel, evaluates_magnifiedDifference 1, ?_⟩
  generalize magnifiedDifference.optimizeTree ⟨true, 1 / 10000, false⟩ .empty 8 = run at hroot hexpr
  obtain ⟨⟨g', res⟩, events⟩ := run
  obtain rfl : res = .ok 10 := hroot
  refine ⟨g', 10, events, rfl, ?_, by norm_num⟩
  rw [show g'.expr 10 = .const 0 from hexpr]
  exact .const 0

end Graph

end Formula
