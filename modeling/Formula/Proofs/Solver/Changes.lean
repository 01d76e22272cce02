/-
Formula/Proofs/Solver/Changes.lean

What optimizing an expression answers.  A copy is kept of what the expression was, and
the answer is whether the result differs from the copy, compared without a tolerance.
The tree is rewritten in place, which does not touch the copy
(`Graph.optimizeTree_beside_copy`).

No rewriting step keeps the form of an expression: it lowers a potential that does not
depend on the values of the constants (`Lower.skeleton_ne`).  So the optimizer leaves
an expression as it is, or gives it another form, and the comparison cannot miss a
change: two zeros of opposite signs never come to be compared.

It may see a change where there is none.  NaN is not equal to itself, so of an
expression with such a constant the answer is always that it has changed
(`optimize_misreports`).  Of all others the answer is right
(`optimize_reports_changes`).
-/
import Formula.Proofs.Graph.Idempotence
import Formula.Proofs.Similarity
import Formula.Proofs.Simplify.Termination
import Formula.Solver.LiveExpr

namespace Formula

universe u

namespace Expr

variable {α : Type u} {e f : Expr α}

/-! ### The form of an expression -/

@[simp] theorem surplus_skeleton (e : Expr α) : e.skeleton.surplus = e.surplus := by
  cases e <;> rfl

@[simp] theorem weight_skeleton (e : Expr α) : e.skeleton.weight = e.weight := by
  induction e with
  | hole | const | var => rfl
  | unary op x ih => rw [skeleton_unary, weight, weight, ih]
  | binary op l r ihl ihr => rw [skeleton_binary, weight, weight, ihl, ihr]

@[simp] theorem potential_skeleton (e : Expr α) : e.skeleton.potential = e.potential := by
  induction e with
  | hole | const | var => rfl
  | unary op x ih => rw [skeleton_unary, potential, potential, ih]
  | binary op l r ihl ihr =>
      rw [skeleton_binary, potential, potential, ihl, ihr, surplus_skeleton, surplus_skeleton]

@[simp] theorem signHeight_skeleton (e : Expr α) : e.skeleton.signHeight = e.signHeight := by
  induction e with
  | hole | const | var => rfl
  | unary op x ih => rw [skeleton_unary, signHeight, signHeight, ih, weight_skeleton]
  | binary op l r ihl ihr => rw [skeleton_binary, signHeight, signHeight, ihl, ihr]

/-- What is lower has another form. -/
theorem Lower.skeleton_ne (h : Lower f e) : f.skeleton ≠ e.skeleton := by
  intro heq
  have hpotential := congrArg potential heq
  have hheight := congrArg signHeight heq
  simp only [potential_skeleton, signHeight_skeleton] at hpotential hheight
  rcases h with ⟨hlt, -⟩ | ⟨-, -, -, hlt⟩
  · exact hlt.ne hpotential
  · exact hlt.ne hheight

end Expr

/-! ### What optimizing answers -/

namespace Node

variable {s : Settings Float} {env : Environment Float} {n : Node Float}

/-- The optimizer leaves an expression as it is, or gives it another form. -/
theorem expr_optimizeTree_of_skeleton
    (h : (n.optimizeTree s env).value.expr.skeleton = n.expr.skeleton) :
    (n.optimizeTree s env).value.expr = n.expr := by
  rcases Relation.reflTransGen_iff_eq_or_transGen.mp (rewrites_optimizeTree s env n) with heq | hsteps
  · exact heq
  · exact absurd h (Expr.lower_of_transGen hsteps n.isFilled_expr).1.skeleton_ne

/-- The result of the optimizer is equal to the expression before exactly if it is the same
expression and no constant is NaN. -/
theorem equals_optimizeTree_iff (s : Settings Float) (env : Environment Float) (n : Node Float) :
    n.expr.equals 0.0 (n.optimizeTree s env).value.expr = true ↔
      (n.optimizeTree s env).value.expr = n.expr ∧ ¬n.expr.HasNaN := by
  constructor
  · intro h
    have hsame := expr_optimizeTree_of_skeleton (Expr.skeleton_eq_of_equals h).symm
    rw [hsame] at h
    exact ⟨hsame, Expr.equals_self.mp h⟩
  · rintro ⟨hsame, hnan⟩
    rw [hsame]
    exact Expr.equals_self.mpr hnan

/-- What has been optimized is left as it is, by every optimizer. -/
theorem value_optimizeTree_twice (s s' : Settings Float) (env env' : Environment Float) (n : Node Float) :
    ((n.optimizeTree s env).value.optimizeTree s' env').value = (n.optimizeTree s env).value := by
  generalize hm : (n.optimizeTree s env).value = m
  have hsettled : m.tag.settled = true := hm ▸ settled_optimizeTree n
  rw [optimizeTree, wholeTree, optimize_of_settled hsettled]
  rfl

end Node

namespace Graph

variable {g : Graph Float} {i : Nat}

/-- **The copy is not touched.**  In a reachable graph a well-formed tree is optimized
in place after a copy has been made of it.  The copy still is what the tree was, so
what is compared with the result, and the answer, are those of the expression in use. -/
theorem optimizeTree_beside_copy (s : Settings Float) (env : Environment Float) (hg : Reachable g)
    (hi : g.isWellFormed i = true) :
    ∃ g₁ c g₂ root events e, g.copy i = (g₁, some c) ∧
      g₁.optimizeTree s env i = ⟨(g₂, .ok root), events⟩ ∧ g₂.expr c = g.expr i ∧
      LiveExpr.expr e = g.expr i ∧ (e.optimize s env).trace = events ∧
      (e.optimize s env).value.2.expr = g₂.expr root ∧
      (e.optimize s env).value.1 = !(g₂.expr c).equals 0.0 (g₂.expr root) := by
  obtain ⟨n, F, hn⟩ := isWellFormed_iff.mp hi
  obtain ⟨g₁, c, D, hbuild, hmakes⟩ := build_spec (K := fun _ _ => True) n
    fun _ hc => hc
  have hcopy : g.copy i = (g₁, some c) := by rw [copy, hn.expr_eq, hbuild]
  have hg₁ : Reachable g₁ := by
    have hcopied := Reachable.copy i hg
    rwa [hcopy] at hcopied
  have hn₁ : Holds g₁ i n F := hn.beside_new hmakes.edits
  obtain ⟨g₂, root, E, hrun, hroot, -, hedits, -⟩ := optimizeTree_spec (marksOnly_true s env) hg₁.sound
    hn₁ fun _ _ => trivial
  have hdisjoint : Disjoint D F := by
    rw [Finset.disjoint_left]
    intro x hD hF
    exact Nat.not_le_of_lt (hn.lt x hF) ((hmakes.cells x hD).resolve_left id)
  have hc : Holds g₂ c n.clean D :=
    hmakes.holds.beside hg₁.sound.honest (hedits.beside hn₁) hn.root_mem hdisjoint
  have hsame : g₂.expr c = g.expr i := by rw [hc.expr_eq, Node.expr_clean, hn.expr_eq]
  refine ⟨g₁, c, g₂, root, _, .ofNode n, hcopy, hrun, hsame, hn.expr_eq.symm, ?_, hroot.expr_eq.symm, ?_⟩
  · exact List.append_nil _
  · rw [hsame, hroot.expr_eq, hn.expr_eq]
    rfl

end Graph

namespace LiveExpr

theorem value_optimize (s : Settings Float) (env : Environment Float) (e : LiveExpr) :
    (e.optimize s env).value = (!e.expr.equals 0.0 (e.root.optimizeTree s env).value.expr,
      ofNode (e.root.optimizeTree s env).value) := rfl

/-- **The answer tells changes, but for NaN.**  The answer is that an expression has
changed exactly if the result is another expression, or a constant of it is NaN; and
what is another expression has another form, so it differs in more than the values of
constants.  Optimized once more, the result stays as it is, and again the answer is
that it has changed exactly if a constant of it is NaN. -/
theorem optimize_reports_changes (s : Settings Float) (env : Environment Float) (e : LiveExpr) :
    ((e.optimize s env).value.1 = true ↔
        (e.optimize s env).value.2.expr ≠ e.expr ∨ e.expr.HasNaN) ∧
      ((e.optimize s env).value.2.expr ≠ e.expr →
        (e.optimize s env).value.2.expr.skeleton ≠ e.expr.skeleton) ∧
      ((e.optimize s env).value.2.optimize s env).value.2.expr = (e.optimize s env).value.2.expr ∧
      (((e.optimize s env).value.2.optimize s env).value.1 = true ↔
        (e.optimize s env).value.2.expr.HasNaN) := by
  have hagain := Node.value_optimizeTree_twice s s env env e.root
  have hanswer : ∀ e : LiveExpr, (e.optimize s env).value.1 = true ↔
      (e.optimize s env).value.2.expr ≠ e.expr ∨ e.expr.HasNaN := by
    intro e
    have hsame := not_congr (Node.equals_optimizeTree_iff s env e.root)
    rw [not_and_or, not_not] at hsame
    rw [value_optimize, Bool.not_eq_true', ← Bool.not_eq_true]
    exact hsame
  refine ⟨hanswer e, fun hne heq => hne (Node.expr_optimizeTree_of_skeleton heq), ?_, ?_⟩
  · exact congrArg Node.expr hagain
  · rw [hanswer]
    exact or_iff_right (not_not_intro (congrArg Node.expr hagain))

/-- **NaN is said to have changed.**  The constant NaN stays as it is when it is
optimized, and the answer is that it has changed. -/
theorem optimize_misreports :
    ((ofNode (.const .fresh (0 / 0))).optimize .default .empty).value.1 = true ∧
      ((ofNode (.const .fresh (0 / 0))).optimize .default .empty).value.2.expr = .const (0 / 0) := by
  decide +kernel

end LiveExpr

end Formula
