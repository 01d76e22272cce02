/-
Formula/Proofs/Simplify/Performing.lean

Carrying out moves that fit does not increase the weight (`Expr.weight_perform`), by
one lemma for each kind of move.  For the tags it matters where the parts are after
a splice, and that a root can be turned into a power first (`Node.normalized_spec`).
-/
import Formula.Proofs.Simplify.Putting

namespace Formula

universe u

open Path (Apart)

variable {α : Type u} [Arithmetic α] {e : Expr α} {m : Move α}

omit [Arithmetic α] in
theorem SignChange.weight_build {change : SignChange α} {f : Expr α} (h : change.Fits f) :
    (f.build change.sketch).weight ≤ f.weight + 2 := by
  cases change with
  | flip v =>
      obtain ⟨w, rfl⟩ := h
      simp [sketch, Expr.build, Expr.weight]
  | unwrap =>
      obtain ⟨y, rfl⟩ := h
      simp [sketch, Expr.build, Expr.part, Expr.at?_cons, Expr.operand?, Expr.weight]
      omega
  | wrap =>
      simp [sketch, Expr.build, Expr.part, Expr.weight]
      omega

namespace Expr

variable {a b f k l r t x y : Expr α} {op : BinaryOp} {kind : ChainKind} {kept removed p : Path}
  {sp : Splice α}

/-- A minus sign goes, and a factor takes it up. -/
theorem weight_pushSign {change : SignChange α} (hf : x.at? p = some f) (hfits : change.Fits f) :
    ((unary .neg x).perform (.pushSign (.operand :: p) change)).weight ≤ (unary .neg x).weight := by
  have hput := weight_put hf (f.build change.sketch)
  have hbuild := SignChange.weight_build hfits
  rw [perform_pushSign hf]
  simp [weight]
  omega

/-- One term of a chain goes, but for one, and another one is changed. -/
theorem weight_put_splice (hrem : Removable kind e kept removed) (hk : e.at? kept = some k)
    (ht : e.at? removed = some t) (hsp : e.splice? kind removed = some sp) (f : Expr α) :
    ((e.put kept f).splice sp).weight + t.weight + k.weight ≤ e.weight + f.weight + 1 := by
  have hput := weight_put hk f
  have hsplice := weight_splice_add (e := e.put kept f) (by rw [splice?_put hrem.apart.symm, hsp])
    (by rw [at?_put_of_apart hrem.apart.symm, ht])
  omega

/-- One factor of a product goes with an operator, and another one is changed. -/
theorem weight_put_splice_product (hrem : Removable .multiplicative e kept removed)
    (hk : e.at? kept = some k) (ht : e.at? removed = some t)
    (hsp : e.splice? .multiplicative removed = some sp) (hplace : sp.place ≠ removed) (f : Expr α) :
    ((e.put kept f).splice sp).weight + t.weight + k.weight + 1 ≤ e.weight + f.weight := by
  have hput := weight_put hk f
  have hsplice := weight_splice_product (chainPath_put (f := f) hrem.chain hrem.apart.symm)
    (by rw [splice?_put hrem.apart.symm, hsp]) (by rw [at?_put_of_apart hrem.apart.symm, ht]) hplace
  omega

/-- One constant gets another value, and the other one is taken out with its operator. -/
theorem weight_collapse {w : α} (he : e.isFilled) (hkept : e.at? kept = some (.const w))
    (hrem : Removable kind e kept removed) (v : α) :
    (e.perform (.collapse kind kept v removed)).weight ≤ e.weight := by
  obtain ⟨t, ht⟩ := Option.isSome_iff_exists.mp hrem.isSome
  obtain ⟨sp, hsp⟩ := hrem.exists_splice (Option.isSome_of_eq_some hkept)
  have hmerge := weight_put_splice hrem hkept ht hsp (.const v)
  have hgone := one_le_weight (isFilled_part he ht)
  simp only [perform, hsp]
  simp only [weight] at hmerge
  omega

/-- The argument of a logarithm moves to another one, and the logarithm goes. -/
theorem weight_joinLogarithms {slot s : Slot} (hop : op ≠ .root)
    (hkept : e.at? (kept ++ [slot]) = some a) (hrem : Removable .additive e kept removed)
    (ht : e.at? removed = some t) (hb : t.operand? s = some b) (hw : b.weight + 2 ≤ t.weight) :
    (e.perform (.joinLogarithms op kept slot (removed ++ [s]) removed)).weight ≤ e.weight := by
  obtain ⟨k, hk, hslot⟩ := Option.bind_eq_some_iff.mp ((at?_append e kept [slot]).symm.trans hkept)
  have ha : k.operand? slot = some a := by simpa [at?_cons] using hslot
  obtain ⟨sp, hsp⟩ := hrem.exists_splice (Option.isSome_of_eq_some hk)
  have hpart : e.part (removed ++ [s]) = b :=
    part_of_at? (by rw [at?_append, ht, Option.bind_some, at?_cons, hb]; rfl)
  rw [perform_joinLogarithms hk ha hrem hsp, hpart]
  have hargument := weight_put hslot (.binary op a b)
  have hmerge := weight_put_splice hrem hk ht hsp (k.put [slot] (.binary op a b))
  simp only [weight, if_neg hop] at hargument
  omega

/-- A root turned into a power weighs the same. -/
theorem exists_power_weight {fromRoot : Bool}
    (h : e.at? p = some (.binary (if fromRoot then .root else .pow) l r)) :
    ∃ b y, (if fromRoot then e.rebuildAt p rootAsPower else e).at? p = some (.binary .pow b y) ∧
      (binary .pow b y).weight = (binary (if fromRoot then .root else .pow) l r).weight := by
  cases fromRoot with
  | false => exact ⟨l, r, h, rfl⟩
  | true =>
      refine ⟨r, .binary .div (.const Arithmetic.one) l, ?_, ?_⟩
      · rw [if_pos rfl, rebuildAt, at?_put_self h, part_of_at? h]
        rfl
      · simp [weight]
        omega

/-- The exponent of a factor moves to a power, and the factor goes. -/
theorem weight_joinPowers {fromRoot : Bool} {exponent : Sketch α} (hop : op ≠ .root)
    (hkept : e.at? kept = some (.binary (if fromRoot then .root else .pow) l r))
    (hrem : Removable .multiplicative e kept removed)
    (hplace : ∀ sp, e.splice? .multiplicative removed = some sp → sp.place ≠ removed)
    (ht : e.at? removed = some t) (hw : (t.build exponent).weight ≤ t.weight) :
    (e.perform (.joinPowers op kept fromRoot exponent removed)).weight ≤ e.weight := by
  obtain ⟨sp, hsp⟩ := hrem.exists_splice (Option.isSome_of_eq_some hkept)
  obtain ⟨b, y, hpower, hsame⟩ := exists_power_weight hkept
  rw [perform_joinPowers hpower hrem ht hsp]
  have hmerge := weight_put_splice_product hrem hkept ht hsp (hplace sp hsp)
    (.binary .pow b (.binary op y (t.build exponent)))
  rw [← hsame] at hmerge
  simp [weight, hop] at hmerge ⊢
  omega

/-- Carrying out a move that fits does not increase the weight. -/
theorem weight_perform (he : e.isFilled) (h : m.Fits e) : (e.perform m).weight ≤ e.weight := by
  cases h with
  | rebuild hsk => exact hsk.weight
  | pushSign heq hf hfits =>
      subst heq
      exact weight_pushSign hf hfits
  | collapse hkept hrem => exact weight_collapse he hkept hrem _
  | joinLogarithms hop hkept hrem ht hb hw => exact weight_joinLogarithms hop hkept hrem ht hb hw
  | joinPowers hop hkept hrem hplace ht _ hw => exact weight_joinPowers hop hkept hrem hplace ht hw

end Expr

/-- The part that stays and its slots, after the splice. -/
theorem Node.at?_splice_kept {n a : Node α} {kind : ChainKind} {kept removed : Path} {s : Slot}
    {sp : Splice α} (h : Removable kind n.expr kept removed)
    (hsp : n.expr.splice? kind removed = some sp) (hkept : n.at? (kept ++ [s]) = some a) :
    (n.splice sp).at? (sp.shift kept ++ [s]) = some a := by
  rw [at?_append] at hkept
  have hsome := Option.isSome_of_isSome_bind (Option.isSome_of_eq_some hkept)
  have hremoved := h.isSome
  rw [isSome_at?_expr] at hremoved
  rw [at?_append, at?_splice_shift (Expr.splices_of_splice? hsp h.isSome) hremoved hsome h.apart,
    hkept]

namespace Node

/-- Beside a root that becomes a power everything is as it was. -/
theorem at?_normalized {n : Node α} {kept q : Path} {fromRoot : Bool}
    (h : Apart kept q ∨ q = kept ∧ fromRoot = false) :
    (n.normalized fromRoot kept).at? q = n.at? q := by
  cases fromRoot with
  | false => rfl
  | true => exact at?_put_of_apart _ _ (h.resolve_right (by simp))

/-- After a root has been turned into a power there is a power, and all else is
as before. -/
theorem normalized_spec {n : Node α} {kept removed : Path} {fromRoot : Bool} {l r : Expr α}
    (hkept : n.expr.at? kept = some (.binary (if fromRoot then .root else .pow) l r))
    (h : Removable .multiplicative n.expr kept removed) :
    (∃ a, (n.normalized fromRoot kept).at? (kept ++ [.right]) = some a) ∧
      (n.normalized fromRoot kept).at? removed = n.at? removed ∧
      (n.normalized fromRoot kept).expr.splice? .multiplicative removed
        = n.expr.splice? .multiplicative removed ∧
      Removable .multiplicative (n.normalized fromRoot kept).expr kept removed := by
  obtain ⟨a, ha, hae⟩ := exists_at?_of_expr hkept
  cases fromRoot with
  | false =>
      have hright : ∃ b, a.operand? .right = some b := by
        cases a <;> simp [expr] at hae
        exact ⟨_, rfl⟩
      obtain ⟨b, hb⟩ := hright
      refine ⟨⟨b, ?_⟩, rfl, rfl, h⟩
      simp [normalized, at?_append, ha, at?_cons, hb]
  | true =>
      simp only [normalized, if_true] at hkept ⊢
      have hat : (n.rebuildAt kept Expr.rootAsPower).at? removed = n.at? removed :=
        at?_put_of_apart _ _ h.apart.symm
      refine ⟨⟨_, at?_put_append ha _ [.right]⟩, hat, ?_, ⟨?_, ?_, h.apart⟩⟩
      · rw [expr_rebuildAt]
        exact Expr.splice?_put h.apart.symm
      · rw [expr_rebuildAt]
        exact Expr.chainPath_put h.chain h.apart.symm
      · rw [isSome_at?_expr, hat, ← isSome_at?_expr]
        exact h.isSome

end Node

end Formula
