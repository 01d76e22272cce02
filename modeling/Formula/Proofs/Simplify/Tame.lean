/-
Formula/Proofs/Simplify/Tame.lean

Values that parts of a tree have.  An expression is tame, for a property of values,
if all its parts that have a value have one with the property; its constants are then
values with the property (`Tame.constants`).

Folding keeps an expression tame: a part is folded to a value that it has.  So it is a
rule that is to blame if the optimizer makes a wild tree of a tame one, and the rule
is in the report of the run (`Node.keeps_optimizeTree`).  Either what the rule makes
is wild, or it has a value although what the rule is applied to has none, so that an
operator above it may get a value too.
-/
import Formula.Proofs.Simplify.Folding
import Formula.Proofs.Simplify.Respecting

namespace Formula

universe u

variable {α : Type u}

namespace Expr

variable [Arithmetic α] {env : Environment α} {P : α → Prop} {e f l r x : Expr α} {v : α}

/-- All parts that have a value have one with the property. -/
def Tame (env : Environment α) (P : α → Prop) (e : Expr α) : Prop :=
  ∀ p f v, e.at? p = some f → f.eval env = .ok v → P v

theorem tame_iff : e.Tame env P ↔ (∀ v, e.eval env = .ok v → P v) ∧
    ∀ s x, e.operand? s = some x → x.Tame env P := by
  constructor
  · intro h
    refine ⟨fun v hv => h [] e v rfl hv, fun s x hx p f v hp => ?_⟩
    apply h (s :: p) f v
    rw [at?_cons, hx, Option.bind_some, hp]
  · rintro ⟨hv, hx⟩ p f v hp hf
    cases p with
    | nil =>
        obtain rfl := Option.some.inj hp
        exact hv v hf
    | cons s p =>
        obtain ⟨x, hs, hp⟩ := Option.bind_eq_some_iff.mp hp
        exact hx s x hs p f v hp hf

namespace Tame

theorem eval (h : e.Tame env P) (hv : e.eval env = .ok v) : P v := (tame_iff.mp h).1 v hv

theorem operand {s : Slot} (h : e.Tame env P) (hx : e.operand? s = some x) : x.Tame env P :=
  (tame_iff.mp h).2 s x hx

/-- A leaf is tame if its value, if it has one, has the property. -/
theorem leaf (he : ∀ s, e.operand? s = none) (hv : ∀ v, e.eval env = .ok v → P v) : e.Tame env P := by
  refine tame_iff.mpr ⟨hv, fun s x hx => ?_⟩
  rw [he s] at hx
  cases hx

theorem unary {op : UnaryOp} (hx : x.Tame env P)
    (hv : ∀ v, (Expr.unary op x).eval env = .ok v → P v) : (Expr.unary op x).Tame env P := by
  refine tame_iff.mpr ⟨hv, ?_⟩
  rintro (_ | _ | _) y hy <;> cases hy
  exact hx

theorem binary {op : BinaryOp} (hl : l.Tame env P) (hr : r.Tame env P)
    (hv : ∀ v, (Expr.binary op l r).eval env = .ok v → P v) : (Expr.binary op l r).Tame env P := by
  refine tame_iff.mpr ⟨hv, ?_⟩
  rintro (_ | _ | _) y hy <;> cases hy
  exacts [hl, hr]

/-- The constants of a tame expression have the property. -/
theorem constants (h : e.Tame env P) : ∀ v ∈ e.constants, P v := by
  intro v hv
  obtain ⟨p, hp⟩ := exists_at?_of_mem_constants hv
  exact h p _ v hp rfl

end Tame

/-- Whether the value has the property, if there is one. -/
instance decidableValue (env : Environment α) (P : α → Prop) [DecidablePred P] (e : Expr α) :
    Decidable (∀ v, e.eval env = .ok v → P v) :=
  match h : e.eval env with
  | .ok v => decidable_of_iff (P v) (by simp)
  | .error _ => .isTrue nofun

instance decidableTame (env : Environment α) (P : α → Prop) [DecidablePred P] :
    DecidablePred (Tame env P)
  | hole => .isTrue (.leaf (fun _ => rfl) nofun)
  | const c => decidable_of_iff (∀ v, (const c).eval env = .ok v → P v)
      ⟨.leaf fun _ => rfl, fun h _ => h.eval⟩
  | var x => decidable_of_iff (∀ v, (var x).eval env = .ok v → P v)
      ⟨.leaf fun _ => rfl, fun h _ => h.eval⟩
  | unary op x =>
    have := decidableTame env P x
    decidable_of_iff (x.Tame env P ∧ ∀ v, (unary op x).eval env = .ok v → P v)
      ⟨fun h => .unary h.1 h.2, fun h => ⟨h.operand (s := .operand) rfl, fun _ => h.eval⟩⟩
  | binary op l r =>
    have := decidableTame env P l
    have := decidableTame env P r
    decidable_of_iff (l.Tame env P ∧ r.Tame env P ∧ ∀ v, (binary op l r).eval env = .ok v → P v)
      ⟨fun h => .binary h.1 h.2.1 h.2.2,
        fun h => ⟨h.operand (s := .left) rfl, h.operand (s := .right) rfl, fun _ => h.eval⟩⟩

/-- What is made of a tame expression is tame and has a value only if the expression
has it. -/
def Keeps (env : Environment α) (P : α → Prop) (e f : Expr α) : Prop :=
  e.Tame env P → f.Tame env P ∧ ∀ v, f.eval env = .ok v → e.eval env = .ok v

namespace Keeps

theorem refl (e : Expr α) : e.Keeps env P e := fun he => ⟨he, fun _ hv => hv⟩

theorem trans {g : Expr α} (h : e.Keeps env P f) (h' : f.Keeps env P g) : e.Keeps env P g := by
  intro he
  obtain ⟨hf, hef⟩ := h he
  obtain ⟨hg, hfg⟩ := h' hf
  exact ⟨hg, fun v hv => hef v (hfg v hv)⟩

theorem unary (op : UnaryOp) {x y : Expr α} (h : x.Keeps env P y) :
    (Expr.unary op x).Keeps env P (.unary op y) := by
  intro he
  obtain ⟨hy, hxy⟩ := h (he.operand (s := .operand) rfl)
  have hv : ∀ v, (Expr.unary op y).eval env = .ok v → (Expr.unary op x).eval env = .ok v := by
    intro v hv
    obtain ⟨a, ha, rfl⟩ := eval_unary_eq_ok.mp hv
    exact eval_unary_eq_ok.mpr ⟨a, hxy a ha, rfl⟩
  exact ⟨.unary hy fun v h => he.eval (hv v h), hv⟩

theorem binary (op : BinaryOp) {l' r' : Expr α} (hl : l.Keeps env P l') (hr : r.Keeps env P r') :
    (Expr.binary op l r).Keeps env P (.binary op l' r') := by
  intro he
  obtain ⟨hl', hll⟩ := hl (he.operand (s := .left) rfl)
  obtain ⟨hr', hrr⟩ := hr (he.operand (s := .right) rfl)
  have hv : ∀ v, (Expr.binary op l' r').eval env = .ok v → (Expr.binary op l r).eval env = .ok v := by
    intro v hv
    obtain ⟨a, b, ha, hb, rfl⟩ := eval_binary_eq_ok.mp hv
    exact eval_binary_eq_ok.mpr ⟨a, b, hll a ha, hrr b hb, rfl⟩
  exact ⟨.binary hl' hr' fun v h => he.eval (hv v h), hv⟩

/-- A part is folded to a value that it has. -/
theorem fold (hv : e.eval env = .ok v) : e.Keeps env P (.const v) := by
  intro he
  have heval : ∀ w, (Expr.const v).eval env = .ok w → e.eval env = .ok w := by
    intro w hw
    obtain rfl := Except.ok.inj hw
    exact hv
  exact ⟨.leaf (fun _ => rfl) fun w hw => he.eval (heval w hw), heval⟩

end Keeps

end Expr

/-! ### Runs -/

variable [Arithmetic α]

/-- If the event is that a rule is applied to a tame expression, then what it makes is
tame, and has no value. -/
def Event.Keeps (env : Environment α) (P : α → Prop) : Event α → Prop
  | .applied _ before after =>
      before.Tame env P → after.Tame env P ∧ ∀ v, after.eval env ≠ .ok v
  | _ => True

instance (env : Environment α) (P : α → Prop) [DecidablePred P] : DecidablePred (Event.Keeps env P)
  | .applied _ before after => inferInstanceAs (Decidable (before.Tame env P → after.Tame env P ∧
      ∀ v, after.eval env = .ok v → False))
  | .optimized _ _ | .passLimit _ => .isTrue trivial

theorem Event.Keeps.expr {env : Environment α} {P : α → Prop} {rule : Rule} {e f : Expr α}
    (h : (Event.applied rule e f).Keeps env P) : e.Keeps env P f := by
  intro he
  obtain ⟨hf, hvalueless⟩ := h he
  exact ⟨hf, fun v hv => absurd hv (hvalueless v)⟩

/-- Steps keep an expression tame, except for rules that do not. -/
theorem stepRelation_keeps (s : Settings α) (env : Environment α) (P : α → Prop) :
    StepRelation s env (Event.Keeps env P) (Expr.Keeps env P) where
  refl := .refl
  trans := .trans
  unary := .unary
  binary op _ _ _ _ hl hr := hl.binary op hr
  rule _ _ h := h.expr
  fractions h _ := h.expr
  fold := .fold

/-- **A rule is to blame if a tame tree gets wild.** -/
theorem Node.keeps_optimizeTree {s : Settings α} {env : Environment α} {P : α → Prop} {n : Node α}
    (h : ∀ e ∈ (n.optimizeTree s env).trace, e.Keeps env P) :
    n.expr.Keeps env P (n.optimizeTree s env).value.expr := by
  apply (stepRelation_keeps s env P).optimizeWithin n.expr.weight n
  intro e he
  exact h e (List.mem_append_left _ he)

end Formula
