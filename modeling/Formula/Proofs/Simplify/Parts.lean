/-
Formula/Proofs/Simplify/Parts.lean

Parts of trees.  Two paths are apart if neither is a prefix of the other; the
parts at their ends then have no node in common.  `put` changes what is at a
path and below it, leaves all parts alone that are apart from it, and forgets
the tag of the root unless the path is empty.

The nodes that a walk lists are parts, the constants among them
(`Expr.exists_at?_of_mem_constants`).

`sk.Puts q r` says that the sketch puts the part at `q` to the place `r` of the
new tree.
-/
import Formula.Proofs.Traversal.Basic
import Formula.Simplify.Sketch
import Mathlib.Data.List.Infix

namespace Formula

universe u

/-! ### Apart -/

/-- Neither of two paths leads through the end of the other. -/
def Path.Apart (p q : Path) : Prop := ¬p <+: q ∧ ¬q <+: p

namespace Path.Apart

variable {p q r : Path}

theorem symm (h : Apart p q) : Apart q p := ⟨h.2, h.1⟩

theorem ne (h : Apart p q) : p ≠ q := fun heq => h.1 (heq ▸ List.prefix_rfl)

theorem ne_nil (h : Apart p q) : p ≠ [] := by
  rintro rfl
  exact h.1 List.nil_prefix

theorem append_left_iff : Apart (r ++ p) (r ++ q) ↔ Apart p q := by
  simp [Apart, List.prefix_append_right_inj]

theorem cons_iff {s : Slot} : Apart (s :: p) (s :: q) ↔ Apart p q := append_left_iff (r := [s])

theorem of_ne {s t : Slot} (h : s ≠ t) (p q : Path) : Apart (s :: p) (t :: q) := by
  simp [Apart, List.cons_prefix_cons, h, h.symm]

/-- Longer paths are apart if shorter ones are. -/
theorem append (h : Apart p q) (a b : Path) : Apart (p ++ a) (q ++ b) := by
  have hnot : ∀ {p q a b : Path}, Apart p q → ¬p ++ a <+: q ++ b := by
    intro p q a b h hpre
    have hp : p <+: q ++ b := (List.prefix_append p a).trans hpre
    rcases List.prefix_or_prefix_of_prefix hp (List.prefix_append q b) with h' | h'
    · exact h.1 h'
    · exact h.2 h'
  exact ⟨hnot h, hnot h.symm⟩

end Path.Apart

open Path (Apart)

namespace Node

variable {α : Type u}

/-! ### Parts -/

theorem part_of_at? {n a : Node α} {p : Path} (h : n.at? p = some a) : n.part p = a := by
  simp [part, h]

/-- The tree has a part wherever its expression has one. -/
theorem isSome_at?_expr (n : Node α) (p : Path) : (n.expr.at? p).isSome = (n.at? p).isSome := by
  rw [expr_at?, Option.isSome_map]

theorem exists_at?_of_expr {n : Node α} {p : Path} {e : Expr α} (h : n.expr.at? p = some e) :
    ∃ a, n.at? p = some a ∧ a.expr = e := by
  rw [expr_at?] at h
  exact Option.map_eq_some_iff.mp h

/-! ### Putting -/

/-- Below the place of a new part there is what is below it. -/
theorem at?_put_append {n a : Node α} {p : Path} (h : n.at? p = some a) (m : Node α) (q : Path) :
    (n.put p m).at? (p ++ q) = m.at? q := by
  induction p generalizing n with
  | nil => simp
  | cons s p ih =>
      obtain ⟨b, hb, ha⟩ := Option.bind_eq_some_iff.mp h
      cases n <;> cases s <;> simp only [operand?, Option.some.injEq, reduceCtorEq] at hb <;>
        subst hb <;> simp [put, at?_cons, operand?, ih ha]

theorem at?_put_self {n a : Node α} {p : Path} (h : n.at? p = some a) (m : Node α) :
    (n.put p m).at? p = some m := by
  simpa using at?_put_append h m []

/-- Apart from the place of a new part everything is as it was. -/
theorem at?_put_of_apart (n m : Node α) {p q : Path} (h : Apart p q) :
    (n.put p m).at? q = n.at? q := by
  induction p generalizing n q with
  | nil => exact absurd rfl h.ne_nil
  | cons s p ih =>
      cases q with
      | nil => exact absurd rfl h.symm.ne_nil
      | cons t q =>
          by_cases hst : s = t
          · subst hst
            have hih := ih (h := Path.Apart.cons_iff.mp h)
            cases n <;> cases s <;> simp [put, at?_cons, operand?, hih]
          · cases n <;> cases s <;> cases t <;> first | rfl | exact absurd rfl hst

theorem at?_withTag (n : Node α) (t : Tag) {p : Path} (h : p ≠ []) :
    (n.withTag t).at? p = n.at? p := by
  cases p with
  | nil => exact absurd rfl h
  | cons s p => cases n <;> cases s <;> rfl

/-- The tag of the root is forgotten. -/
theorem put_withTag {n a : Node α} {p : Path} (h : n.at? p = some a) (m : Node α) (t : Tag) :
    (n.withTag t).put p m = n.put p m := by
  cases p with
  | nil => simp
  | cons s p => cases n <;> cases s <;> first | rfl | simp [at?_cons, operand?] at h

end Node

/-! ### Parts of expressions -/

namespace Expr

variable {α : Type u}

/-- The part in a slot of a part. -/
theorem at?_concat {e f : Expr α} {p : Path} (hp : e.at? p = some f) (s : Slot) :
    e.at? (p ++ [s]) = f.operand? s := by
  rw [at?_append, hp]
  cases h : f.operand? s <;> simp [at?_cons, h]

/-- A part is no deeper than what its place leaves of the depth. -/
theorem length_add_depth_le {e a : Expr α} {p : Path} (h : e.at? p = some a) :
    p.length + a.depth ≤ e.depth := by
  induction p generalizing e with
  | nil =>
      obtain rfl := Option.some.inj h
      rw [List.length_nil, Nat.zero_add]
  | cons s p ih =>
      obtain ⟨x, hx, hat⟩ := Option.bind_eq_some_iff.mp h
      have hlen := ih hat
      cases e <;> cases s <;> simp only [operand?, Option.some.injEq, reduceCtorEq] at hx <;>
        subst hx <;> simp only [List.length_cons, depth] <;> omega

/-! ### Walks -/

theorem exists_operand?_of_mem_operands {e x : Expr α} (h : x ∈ e.operands) :
    ∃ s, e.operand? s = some x := by
  cases e with
  | hole | const | var => cases h
  | unary op y =>
      obtain rfl := List.mem_singleton.mp (List.mem_filter.mp h).1
      exact ⟨.operand, rfl⟩
  | binary op l r =>
      rcases List.mem_pair.mp (List.mem_filter.mp h).1 with rfl | rfl
      exacts [⟨.left, rfl⟩, ⟨.right, rfl⟩]

/-- A walk leads to parts of what was pending. -/
theorem exists_at?_of_mem_walk {order : TraversalOrder} {pending : List (Expr α)} {a : Expr α}
    (h : a ∈ walk order pending) : ∃ e ∈ pending, ∃ p, e.at? p = some a := by
  refine (visits_walk order pending).forall_mem (P := fun b => ∃ e ∈ pending, ∃ p, e.at? p = some b)
    ?_ (fun e he => ⟨e, he, [], rfl⟩) a h
  rintro b ⟨e, he, p, hp⟩ c hc
  obtain ⟨s, hs⟩ := exists_operand?_of_mem_operands hc
  exact ⟨e, he, p ++ [s], (at?_concat hp s).trans hs⟩

theorem exists_at?_of_mem_constants {e : Expr α} {v : α} (h : v ∈ e.constants) :
    ∃ p, e.at? p = some (const v) := by
  obtain ⟨a, ha, hv⟩ := List.mem_filterMap.mp h
  obtain ⟨f, hf, p, hp⟩ := exists_at?_of_mem_walk ha
  obtain rfl := List.mem_singleton.mp hf
  cases a <;> cases hv
  exact ⟨p, hp⟩

end Expr

/-! ### Sketches -/

namespace Sketch

variable {α : Type u}

/-- The sketch puts the part at the first path to the second one. -/
inductive Puts : Sketch α → Path → Path → Prop
  | part {p : Path} : Puts (.part p) p []
  | operand {op : UnaryOp} {x : Sketch α} {p q : Path} : Puts x p q →
      Puts (.unary op x) p (.operand :: q)
  | left {op : BinaryOp} {l r : Sketch α} {p q : Path} : Puts l p q →
      Puts (.binary op l r) p (.left :: q)
  | right {op : BinaryOp} {l r : Sketch α} {p q : Path} : Puts r p q →
      Puts (.binary op l r) p (.right :: q)

/-- What a sketch puts to a place is found there. -/
theorem Puts.at?_build {sk : Sketch α} {p q : Path} (h : sk.Puts p q) (n : Node α) :
    (n.build sk).at? q = some (n.part p) := by
  induction h with
  | part => rfl
  | operand _ ih => exact ih
  | left _ ih => exact ih
  | right _ ih => exact ih

/-- The parts that a sketch uses are there, and no two of them overlap. -/
structure Fits (sk : Sketch α) (e : Expr α) : Prop where
  isSome : ∀ p ∈ sk.parts, (e.at? p).isSome
  apart : sk.parts.Pairwise Apart

theorem fits_const (v : α) (e : Expr α) : (const v).Fits e :=
  ⟨by simp [parts], by simp [parts]⟩

/-- The parts of a tree that a sketch of its expression uses. -/
theorem Fits.exists_at? {sk : Sketch α} {n : Node α} (h : sk.Fits n.expr) {p : Path}
    (hp : p ∈ sk.parts) : ∃ a, n.at? p = some a :=
  Option.isSome_iff_exists.mp (n.isSome_at?_expr p ▸ h.isSome p hp)

end Sketch

end Formula
