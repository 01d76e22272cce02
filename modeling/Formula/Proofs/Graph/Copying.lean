/-
Formula/Proofs/Graph/Copying.lean

Work beside all trees.  What a run of edits does to new cells leaves every old
tree as it was (`Holds.beside_new`).  Copies are made of new cells only, and
remember nothing (`copy_spec`).
-/
import Formula.Proofs.Graph.Making
import Formula.Proofs.Graph.Memory
import Formula.Proofs.Graph.Regions

namespace Formula

open Graph

namespace Editing.Runs

variable {α β : Type} {g g' : Graph α} {v : β} {t : List (Event α)}

theorem of_make {f : Graph α → Graph α × β} (h : (Editing.make f).Runs g t g' v) :
    f g = (g', v) := by
  simp only [Runs, Editing.make, Traced.mk.injEq, Prod.mk.injEq, Except.ok.injEq] at h
  exact Prod.ext h.1.1 h.1.2

theorem make {f : Graph α → Graph α × β} (h : f g = (g', v)) :
    (Editing.make f).Runs g [] g' v := by
  simp [Runs, Editing.make, h]

theorem size (i : Nat) : (Editing.size i).Runs g [] (g.size i).1 (g.size i).2 := rfl

end Editing.Runs

namespace Graph

variable {α : Type} {K : Graph α → Nat → Prop} {R S old : Nat → Prop} {g g' g'' : Graph α}
  {i x y : Nat} {n m a b : Node α} {p q : Path} {E F : Finset Nat}

/-! ### New cells -/

/-- Old trees stand. -/
theorem Holds.beside_new (hm : Holds g i m E) (h : Edits K (g.cellCount ≤ ·) g g') :
    Holds g' i m E := by
  have hold : ∀ c ∈ E, Untouched g g' c := fun c hc => h.old (hm.lt c hc)
  exact hm.congr (fun c hc => (hold c hc).content) (fun c hc => (hold c hc).mark)
    (fun c hc _ => (hold c hc).parent)

/-! ### Copies -/

/-- What has been made of new cells has been made anew. -/
theorem Makes.after (h : Makes K R S old g' g'' y m E) (hkeeps : Keeps (fun _ => False) g g')
    (hedits : Edits K R g g') (hS : ∀ c, S c → g.cellCount ≤ c)
    (hold : ∀ c, old c → g.cellCount ≤ c) :
    Makes K R (fun _ => False) (fun _ => False) g g'' y m E where
  holds := h.holds
  cells c hc := .inr ((h.cells c hc).elim (hold c) hkeeps.count.trans)
  keeps := (hkeeps.trans h.keeps).mono fun c hlt hc =>
    Nat.not_le_of_lt hlt (hS c (hc.resolve_left id))
  edits := hedits.trans h.edits

/-- An operator of two trees that have been made anew. -/
theorem newBinary_after (op : BinaryOp) {g₁ g₂ : Graph α}
    (hnew : ∀ c, g.cellCount ≤ c → R c)
    (h₁ : Makes K R (fun _ => False) (fun _ => False) g g₁ x a E)
    (h₂ : Makes K R (fun _ => False) (fun _ => False) g₁ g₂ y b F) :
    ∃ g' D, (Editing.newBinary op x y).Runs g₂ [] g' g₂.cellCount ∧
      Makes K R (fun _ => False) (fun _ => False) g g' g₂.cellCount (Node.newBinary op a b) D := by
  have hE : ∀ c ∈ E, g.cellCount ≤ c := fun c hc => (h₁.cells c hc).resolve_left id
  have hF : ∀ c ∈ F, g₁.cellCount ≤ c := fun c hc => (h₂.cells c hc).resolve_left id
  have hF' : ∀ c ∈ F, g.cellCount ≤ c := fun c hc => h₁.keeps.count.trans (hF c hc)
  have hcount := h₁.keeps.count.trans h₂.keeps.count
  have hEF : Disjoint E F := by
    rw [Finset.disjoint_left]
    intro c hcE hcF
    exact Nat.not_le_of_lt (h₁.holds.lt c hcE) (hF c hcF)
  obtain ⟨g', D, hrun, hmakes, -⟩ := newBinary_spec (K := K) op
    (h₂.keeps.holds h₁.holds fun _ _ hc => hc.elim) h₂.holds hEF
    (fun c hc => hnew c (hE c hc)) (fun c hc => hnew c (hF' c hc)) (fun c hc => hnew c (hcount.trans hc))
  refine ⟨g', D, hrun, hmakes.after ?_ (h₁.edits.trans h₂.edits) ?_ ?_⟩
  · exact (h₁.keeps.trans h₂.keeps).mono fun _ _ hc => hc.elim id id
  · rintro c (rfl | rfl)
    · exact hE _ h₁.holds.root_mem
    · exact hF' _ h₂.holds.root_mem
  · rintro c (hc | hc)
    · exact hE c hc
    · exact hF' c hc

theorem build_spec (n : Node α) (hnew : ∀ c, g.cellCount ≤ c → R c) :
    ∃ g' y E, g.build n.expr = (g', some y) ∧
      Makes K R (fun _ => False) (fun _ => False) g g' y n.clean E := by
  induction n generalizing g with
  | const t v =>
      obtain ⟨g', E, hrun, hmakes⟩ := newConst_spec (K := K) (R := R) (g := g) v
      exact ⟨g', _, E, by simp [build, Node.expr, hrun.of_make], hmakes⟩
  | var t x =>
      have hadd : NewCell g (.var x) (g.add (.var x)).1 := newCell_add rfl
      have h := Holds.var hadd.content_self
      rw [hadd.tag (by simp [Content.operands, Content.slots])] at h
      exact ⟨_, _, _, rfl, makes_add rfl h⟩
  | unary t op a ih =>
      obtain ⟨g₁, x, E, hbuild, h₁⟩ := ih hnew
      have hE : ∀ c ∈ E, g.cellCount ≤ c := fun c hc => (h₁.cells c hc).resolve_left id
      obtain ⟨g', D, hrun, hmakes, -⟩ := newUnary_spec (K := K) op h₁.holds
        (fun c hc => hnew c (hE c hc)) (fun c hc => hnew c (h₁.keeps.count.trans hc))
      refine ⟨g', _, D, by simp [build, Node.expr, hbuild, hrun.of_make], hmakes.after h₁.keeps h₁.edits ?_ hE⟩
      rintro c rfl
      exact hE _ h₁.holds.root_mem
  | binary t op a b iha ihb =>
      obtain ⟨g₁, x, E, hbuild₁, h₁⟩ := iha hnew
      obtain ⟨g₂, y, F, hbuild₂, h₂⟩ := ihb fun c hc =>
        hnew c (h₁.keeps.count.trans hc)
      obtain ⟨g', D, hrun, hmakes⟩ := newBinary_after op hnew h₁ h₂
      exact ⟨g', _, D, by simp [build, Node.expr, hbuild₁, hbuild₂, hrun.of_make], hmakes⟩

/-- A part is copied. -/
theorem copy_spec (hn : Holds g i n F) (hat : n.at? p = some a)
    (hnew : ∀ c, g.cellCount ≤ c → R c) :
    ∃ g' y E, (Editing.copy i p).Runs g [] g' y ∧
      Makes K R (fun _ => False) (fun _ => False) g g' y a.clean E := by
  obtain ⟨x, A, hx, hA, -⟩ := hn.follow_of_at? hat
  obtain ⟨g', y, E, hbuild, hmakes⟩ := build_spec (K := K) a hnew
  have hcopy : g.copy x = (g', some y) := by rw [Graph.copy, hA.expr_eq, hbuild]
  exact ⟨g', y, E, .silent (.locate hx) ((Editing.Runs.make hcopy).silent .pure), hmakes⟩

/-- A product of copies of two parts is made. -/
theorem productOfCopies_spec (hn : Holds g i n F) (ha : n.at? p = some a)
    (hb : n.at? q = some b) (hnew : ∀ c, g.cellCount ≤ c → R c) :
    ∃ g' y E, (Editing.productOfCopies i p q).Runs g [] g' y ∧
      Makes K R (fun _ => False) (fun _ => False) g g' y (.newBinary .mul a.clean b.clean) E := by
  obtain ⟨g₁, x, E₁, hrun₁, h₁⟩ := copy_spec (K := K) hn ha hnew
  obtain ⟨g₂, y, E₂, hrun₂, h₂⟩ := copy_spec (K := K)
    (h₁.keeps.holds hn fun _ _ hc => hc.elim) hb fun c hc => hnew c (h₁.keeps.count.trans hc)
  obtain ⟨g', E, hrun, hmakes⟩ := newBinary_after .mul hnew h₁ h₂
  exact ⟨g', _, E, hrun₁.silent (hrun₂.silent hrun), hmakes⟩

end Graph

end Formula
