/-
Formula/Proofs/Graph/Variables.lean

The variables of what the optimizer gives.  It makes no variable, so the names in the
result occur in the tree it was run on, whatever the settings and the bindings
(`optimizeTree_vars`).

The names that are listed are those of the leaves, however the nodes are walked
(`mem_vars_iff_mem_nodes`), and an expression fails to have a value only at a name
without one (`eval_cases`).  So where the tree has a value, the result has one.
-/
import Formula.Proofs.Graph.Incremental
import Formula.Proofs.Simplify.Folding

namespace Formula

universe u

namespace Expr

variable {α : Type u} {e f : Expr α} {x : String} {p : Path}

/-! ### The names that are listed -/

/-- What occurs is a part with that name. -/
theorem mem_vars_iff_exists_at? : x ∈ e.vars ↔ ∃ p, e.at? p = some (var x) := by
  constructor
  · intro hx
    induction e with
    | hole | const => cases hx
    | var y => exact ⟨[], by rw [List.mem_singleton.mp hx]; rfl⟩
    | unary op y ih =>
        obtain ⟨p, hp⟩ := ih hx
        exact ⟨.operand :: p, hp⟩
    | binary op l r ihl ihr =>
        rcases mem_vars_binary.mp hx with hx | hx
        · obtain ⟨p, hp⟩ := ihl hx
          exact ⟨.left :: p, hp⟩
        · obtain ⟨p, hp⟩ := ihr hx
          exact ⟨.right :: p, hp⟩
  · rintro ⟨p, hp⟩
    exact mem_vars_of_at? hp (List.mem_singleton.mpr rfl)

theorem mem_operands_of_operand? {s : Slot} (h : e.operand? s = some f) (hf : f ≠ hole) :
    f ∈ e.operands := by
  have hshown : (!f.isHole) = true := by cases f <;> first | rfl | exact absurd rfl hf
  cases e <;> cases s <;> cases h <;> simp [operands, hshown]

/-- A walk passes all parts of what is pending, but for empty slots. -/
theorem mem_walk_of_at? {order : TraversalOrder} {pending : List (Expr α)} (he : e ∈ pending)
    (hat : e.at? p = some f) (hf : f ≠ hole) : f ∈ walk order pending := by
  obtain ⟨hpending, hclosed⟩ := (visits_walk order pending).mem_of_mem_pending
  replace he := hpending e he
  induction p generalizing e with
  | nil =>
      obtain rfl := Option.some.inj hat
      exact he
  | cons s p ih =>
      obtain ⟨b, hb, hat⟩ := Option.bind_eq_some_iff.mp hat
      have hshown : b ≠ hole := by
        rintro rfl
        cases p <;> cases hat
        exact hf rfl
      exact ih hat (hclosed e he b (mem_operands_of_operand? hb hshown))

/-- The names are those of the variables that a walk passes. -/
theorem mem_vars_iff_mem_nodes (order : TraversalOrder) : x ∈ e.vars ↔ var x ∈ e.nodes order := by
  rw [mem_vars_iff_exists_at?]
  constructor
  · rintro ⟨p, hp⟩
    exact mem_walk_of_at? (List.mem_singleton.mpr rfl) hp nofun
  · intro h
    obtain ⟨a, ha, hp⟩ := exists_at?_of_mem_walk h
    rwa [List.mem_singleton.mp ha] at hp

/-! ### Names without a value -/

variable [Arithmetic α] {env : Environment α}

/-- An expression without empty slots has a value, or it fails at one of its names that
has none. -/
theorem eval_cases (he : e.isFilled) :
    (∃ v, e.eval env = .ok v) ∨ ∃ x ∈ e.vars, env x = none ∧ e.eval env = .error (.undefinedVariable x) := by
  induction e with
  | hole => cases he
  | const v => exact .inl ⟨v, rfl⟩
  | var x =>
      cases hx : env x with
      | some v => exact .inl ⟨v, by rw [eval, hx]⟩
      | none => exact .inr ⟨x, List.mem_singleton.mpr rfl, hx, by rw [eval, hx]⟩
  | unary op y ih =>
      rcases ih he with ⟨v, hv⟩ | ⟨x, hx, hnone, hfail⟩
      · exact .inl ⟨_, by rw [eval, hv]; rfl⟩
      · exact .inr ⟨x, hx, hnone, by rw [eval, hfail]; rfl⟩
  | binary op l r ihl ihr =>
      obtain ⟨hl, hr⟩ := Bool.and_eq_true_iff.mp he
      rcases ihl hl with ⟨v, hv⟩ | ⟨x, hx, hnone, hfail⟩
      · rcases ihr hr with ⟨w, hw⟩ | ⟨x, hx, hnone, hfail⟩
        · exact .inl ⟨_, by rw [eval, hv, hw]; rfl⟩
        · exact .inr ⟨x, mem_vars_binary.mpr (.inr hx), hnone, by rw [eval, hv, hfail]; rfl⟩
      · exact .inr ⟨x, mem_vars_binary.mpr (.inl hx), hnone, by rw [eval, hfail]; rfl⟩

end Expr

namespace Graph

variable {α : Type} [Arithmetic α] [Numeral α] {g : Graph α} {i : Nat}

/-- **The optimizer makes no variable.**  On a well-formed tree of a reachable graph it
succeeds, with all settings and bindings.  The names in the result, listed in either
order, are names in the tree.  So the result has a value in every environment in which
the tree does not fail at a name without one. -/
theorem optimizeTree_vars (hg : Reachable g) (hi : g.isWellFormed i = true) (s : Settings α)
    (env : Environment α) :
    ∃ g' root events, g.optimizeTree s env i = ⟨(g', .ok root), events⟩ ∧
      g'.isWellFormed root = true ∧ (g'.expr root).vars ⊆ (g.expr i).vars ∧
      (∀ x order, .var x ∈ (g'.expr root).nodes order → .var x ∈ (g.expr i).nodes order) ∧
      ∀ env' : Environment α, (∀ x, (g.expr i).eval env' ≠ .error (.undefinedVariable x)) →
        ∃ v, (g'.expr root).eval env' = .ok v := by
  obtain ⟨n, F, hn⟩ := isWellFormed_iff.mp hi
  obtain ⟨g', root, E, hrun, hroot, -⟩ := optimizeTree_spec (marksOnly_true s env) hg.sound hn
    fun _ _ => trivial
  have hvars : (g'.expr root).vars ⊆ (g.expr i).vars := by
    intro x hx
    rw [hroot.expr_eq] at hx
    rw [hn.expr_eq]
    exact Expr.mem_vars_of_reflTransGen (Node.rewrites_optimizeTree s env n) hx
  refine ⟨g', root, _, hrun, isWellFormed_iff.mpr ⟨_, _, hroot⟩, hvars, ?_, ?_⟩
  · intro x order hx
    rw [← Expr.mem_vars_iff_mem_nodes] at hx ⊢
    exact hvars hx
  · intro env' hdefined
    have hfilled : (g.expr i).isFilled := by
      rw [hn.expr_eq]
      exact n.isFilled_expr
    have hfilled' : (g'.expr root).isFilled := by
      rw [hroot.expr_eq]
      exact Node.isFilled_expr _
    have hcases : (∃ v, (g.expr i).eval env' = .ok v) ∨ _ := Expr.eval_cases hfilled
    obtain hvalue | ⟨x, -, -, hfail⟩ := hcases
    · have hbound := (Expr.exists_eval_iff hfilled).mp hvalue
      exact (Expr.exists_eval_iff hfilled').mpr fun x hx => hbound x (hvars hx)
    · exact absurd hfail (hdefined x)

/-- The product of `x` and zero, plus `y`. -/
def sumWithZeroProduct : Graph Float :=
  ((((empty.add (.var "x")).1.add (.const 0)).1.newBinary .mul (some 0) (some 1)).1.add
    (.var "y")).1.newBinary .add (some 2) (some 3) |>.1

/-- What becomes of the sum has a value where `x` and `y` have one. -/
theorem optimizeTree_vars_sumWithZeroProduct :
    ∃ g' root events, sumWithZeroProduct.optimizeTree .default .empty 4 = ⟨(g', .ok root), events⟩ ∧
      g'.isWellFormed root = true ∧ (g'.expr root).vars ⊆ ["x", "y"] ∧
      ∃ v, (g'.expr root).eval (fun _ => some 1) = .ok v := by
  have hreachable : Reachable sumWithZeroProduct :=
    .newBinary _ _ _ <| .newVar _ <| .newBinary _ _ _ <| .newConst _ <| .newVar _ .empty
  have hexpr : sumWithZeroProduct.expr 4 =
      .binary .add (.binary .mul (.var "x") (.const 0)) (.var "y") := by decide +kernel
  obtain ⟨g', root, events, hrun, hwell, hvars, -, heval⟩ :=
    optimizeTree_vars hreachable (i := 4) (by decide +kernel) .default .empty
  rw [hexpr] at hvars heval
  exact ⟨g', root, events, hrun, hwell, hvars, heval _ fun x hx => by cases hx⟩

end Graph

end Formula
