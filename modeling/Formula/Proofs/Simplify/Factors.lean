/-
Formula/Proofs/Simplify/Factors.lean

The factors of a product or quotient, and which of them takes up a minus sign.
Any nesting of products and quotients has its factors in a row from left to right
(`factors`); what stands there is no product and no quotient
(`exists_of_mem_factors`).  The search for a factor that takes up a sign, and the
way down to the leftmost factor, go by that row
(`signAbsorber?_eq_firstAbsorber?`, `head?_factors`).  So a sign that is pushed into
a product changes one factor, and it is known which one and how
(`takesSign_signChange`).
-/
import Formula.Proofs.Simplify.Tally

namespace Formula

universe u

namespace Expr

variable {α : Type u} {e x : Expr α} {p : Path}

/-- The factors of a nest of products and quotients, from left to right. -/
def factors : Expr α → List Path
  | binary op l r =>
    if op = .mul || op = .div then
      l.factors.map (.left :: ·) ++ r.factors.map (.right :: ·)
    else [[]]
  | _ => [[]]

/-- Whether a factor takes up a minus sign without getting a negation. -/
def absorbsSign : Expr α → Bool
  | const _ => true
  | e => e.isNegation

/-- The first factor that takes up a minus sign without getting a negation. -/
def firstAbsorber? (e : Expr α) : Option Path := e.factors.find? fun p => (e.at? p).any absorbsSign

/-! ### The row of factors -/

/-- A factor is a part that is no product and no quotient. -/
theorem exists_of_mem_factors (h : p ∈ e.factors) : ∃ f, e.at? p = some f ∧ f.isFactored = false := by
  induction e generalizing p with
  | binary op l r ihl ihr =>
      rw [factors] at h
      split at h
      · rcases List.mem_append.mp h with h | h
        · obtain ⟨q, hq, rfl⟩ := List.mem_map.mp h
          exact ihl hq
        · obtain ⟨q, hq, rfl⟩ := List.mem_map.mp h
          exact ihr hq
      · next hop =>
        obtain rfl := List.mem_singleton.mp h
        exact ⟨_, rfl, by simpa [isFactored, hasOp] using hop⟩
  | hole | const | var | unary =>
      obtain rfl := List.mem_singleton.mp h
      exact ⟨_, rfl, rfl⟩

theorem head?_factors (e : Expr α) : e.factors.head? = some e.leftmostFactor := by
  induction e with
  | binary op l r ihl ihr =>
      rw [factors, leftmostFactor]
      split
      · simp [List.head?_append, List.head?_map, ihl]
      · rfl
  | _ => rfl

/-- The search for a factor that takes up a sign goes from left to right. -/
theorem signAbsorber?_eq_firstAbsorber? (e : Expr α) : e.signAbsorber? = e.firstAbsorber? := by
  induction e with
  | binary op l r ihl ihr =>
      rw [signAbsorber?, firstAbsorber?, factors]
      split
      · -- below an operand the search sees what it sees in the operand alone
        have hl : (l.factors.map (.left :: ·)).find? (fun p => ((binary op l r).at? p).any absorbsSign) =
            l.firstAbsorber?.map (.left :: ·) := List.find?_map
        have hr : (r.factors.map (.right :: ·)).find? (fun p => ((binary op l r).at? p).any absorbsSign) =
            r.firstAbsorber?.map (.right :: ·) := List.find?_map
        rw [ihl, ihr, List.find?_append, hl, hr]
        cases l.firstAbsorber? <;> rfl
      · rfl
  | unary op x => cases op <;> rfl
  | _ => rfl

/-! ### Taking up a sign -/

/-- Putting changes the size by the difference of the parts. -/
theorem size_put (h : e.at? p = some x) (f : Expr α) :
    (e.put p f).size + x.size = e.size + f.size := by
  simpa only [tally_nodes] using tally_put (w := .nodes α) h f

variable [Arithmetic α]

/-- How a nest of products and quotients takes up a minus sign: one factor is
changed, and the size by the number given. -/
inductive TakesSign (e : Expr α) (p : Path) : Int → Expr α → Prop
  /-- The first factor that can take up the sign is a constant and gets the
  opposite value. -/
  | flip {v : α} : e.firstAbsorber? = some p → e.at? p = some (const v) →
      TakesSign e p 0 (e.put p (const (Arithmetic.unary .neg v)))
  /-- The first factor that can take up the sign is a negation and goes. -/
  | unwrap {x : Expr α} : e.firstAbsorber? = some p → e.at? p = some (unary .neg x) →
      TakesSign e p (-1) (e.put p x)
  /-- No factor can take up the sign, and the leftmost one gets a negation. -/
  | wrap {f : Expr α} : e.firstAbsorber? = none → e.factors.head? = some p →
      e.at? p = some f → TakesSign e p 1 (e.put p (unary .neg f))

theorem TakesSign.size_eq {d : Int} (h : TakesSign e p d x) : (x.size : Int) = e.size + d := by
  cases h with
  | @flip v _ hv =>
      have hsize := size_put hv (const (Arithmetic.unary .neg v))
      simp only [size] at hsize
      omega
  | @unwrap x _ hx =>
      have hsize := size_put hx x
      simp only [size] at hsize
      omega
  | @wrap f _ _ hf =>
      have hsize := size_put hf (unary .neg f)
      simp only [size] at hsize
      omega

/-- The search finds the factor that takes up the sign. -/
theorem takesSign_signChange (e : Expr α) :
    ∃ d, TakesSign e e.signChange.1 d (e.rebuildAt e.signChange.1 e.signChange.2.sketch) := by
  obtain ⟨f, habsorbs⟩ := exists_absorbs e
  rw [rebuildAt, part_of_at? habsorbs.at?]
  generalize e.signChange.1 = p, e.signChange.2 = change at habsorbs
  cases habsorbs with
  | flip hp hv => exact ⟨0, .flip (e.signAbsorber?_eq_firstAbsorber? ▸ hp) hv⟩
  | unwrap hp hx => exact ⟨-1, .unwrap (e.signAbsorber?_eq_firstAbsorber? ▸ hp) hx⟩
  | wrap hp hf => exact ⟨1, .wrap (e.signAbsorber?_eq_firstAbsorber? ▸ hp) (head?_factors e) hf⟩

end Expr

end Formula
