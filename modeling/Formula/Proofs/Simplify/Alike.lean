/-
Formula/Proofs/Simplify/Alike.lean

Trees that differ in tags only.  `Alike rel n n'` says that the two trees have
the same expression and that the tags of each node are related by `rel`, which
may depend on the expression below the node.  For `AlikeBelow` the tags of the
roots do not matter.

What a move does to a tree depends on the tags only in so far as it carries
them along, and the tag of the root is not even carried along
(`AlikeBelow.perform`).  With the right relation this says that a move does not
look at the tag of the root (`perform_withTag`), or that it marks nothing
(`Justified.perform`).
-/
import Formula.Proofs.Simplify.Performing

namespace Formula

universe u

namespace Node

variable {α : Type u} {rel : Expr α → Tag → Tag → Prop} {n n' m m' a : Node α} {t t' : Tag} {p : Path}

/-! ### Tags of roots -/

@[simp] theorem withTag_withTag (n : Node α) (t t' : Tag) : (n.withTag t).withTag t' = n.withTag t' := by
  cases n <;> rfl

@[simp] theorem withTag_tag (n : Node α) : n.withTag n.tag = n := by
  cases n <;> rfl

@[simp] theorem tag_withTag (n : Node α) (t : Tag) : (n.withTag t).tag = t := by
  cases n <;> rfl

theorem tag_clean (n : Node α) : n.clean.tag = .fresh := by
  cases n <;> rfl

/-- A part of a tree without marks is a part of the tree, without marks. -/
theorem at?_clean (n : Node α) (p : Path) : n.clean.at? p = (n.at? p).map clean := by
  induction p generalizing n with
  | nil => rfl
  | cons s p ih => cases n <;> cases s <;> first | rfl | exact ih _

/-! ### Trees with other tags -/

/-- The trees differ in tags only, and their tags are related. -/
inductive Alike (rel : Expr α → Tag → Tag → Prop) : Node α → Node α → Prop
  | const {t t' : Tag} {v : α} : rel (.const v) t t' → Alike rel (.const t v) (.const t' v)
  | var {t t' : Tag} {x : String} : rel (.var x) t t' → Alike rel (.var t x) (.var t' x)
  | unary {t t' : Tag} {op : UnaryOp} {x x' : Node α} : rel (.unary op x.expr) t t' →
      Alike rel x x' → Alike rel (.unary t op x) (.unary t' op x')
  | binary {t t' : Tag} {op : BinaryOp} {l l' r r' : Node α} :
      rel (.binary op l.expr r.expr) t t' → Alike rel l l' → Alike rel r r' →
      Alike rel (.binary t op l r) (.binary t' op l' r')

/-- The trees below the roots differ in tags only. -/
def AlikeBelow (rel : Expr α → Tag → Tag → Prop) (n n' : Node α) : Prop :=
  Alike rel (n.withTag .fresh) (n'.withTag .fresh)

/-- The relation allows nodes to be new in both trees. -/
def AllowsFresh (rel : Expr α → Tag → Tag → Prop) : Prop := ∀ e, rel e .fresh .fresh

namespace Alike

theorem refl (h : ∀ e t, rel e t t) (n : Node α) : Alike rel n n := by
  induction n with
  | const => exact .const (h _ _)
  | var => exact .var (h _ _)
  | unary _ _ _ ih => exact .unary (h _ _) ih
  | binary _ _ _ _ ihl ihr => exact .binary (h _ _) ihl ihr

theorem expr_eq (h : Alike rel n n') : n'.expr = n.expr := by
  induction h with
  | const => rfl
  | var => rfl
  | unary _ _ ih => simp only [expr, ih]
  | binary _ _ _ ihl ihr => simp only [expr, ihl, ihr]

theorem tag_rel (h : Alike rel n n') : rel n.expr n.tag n'.tag := by
  cases h <;> assumption

/-- If related tags are equal, trees that are alike are. -/
theorem eq_of_eq (h : Alike (fun _ => Eq) n n') : n = n' := by
  induction h with
  | const ht => rw [ht]
  | var ht => rw [ht]
  | unary ht _ ih => rw [ht, ih]
  | binary ht _ _ ihl ihr => rw [ht, ihl, ihr]

/-- The roots may be tagged anew. -/
theorem withTag (h : Alike rel n n') (ht : rel n.expr t t') :
    Alike rel (n.withTag t) (n'.withTag t') := by
  cases h with
  | const => exact .const ht
  | var => exact .var ht
  | unary _ hx => exact .unary ht hx
  | binary _ hl hr => exact .binary ht hl hr

theorem belowRoot (h : Alike rel n n') (hrel : AllowsFresh rel) : AlikeBelow rel n n' :=
  h.withTag (hrel _)

theorem at? (h : Alike rel n n') (ha : n.at? p = some a) : ∃ a', n'.at? p = some a' ∧ Alike rel a a' := by
  induction p generalizing n n' with
  | nil =>
      obtain rfl := Option.some.inj ha
      exact ⟨n', rfl, h⟩
  | cons s p ih =>
      cases h with
      | const | var => cases s <;> cases ha
      | unary _ hx =>
          cases s with
          | operand => exact ih hx ha
          | left | right => cases ha
      | binary _ hl hr =>
          cases s with
          | left => exact ih hl ha
          | right => exact ih hr ha
          | operand => cases ha

theorem part (h : Alike rel n n') (ha : (n.at? p).isSome) : Alike rel (n.part p) (n'.part p) := by
  obtain ⟨a, ha⟩ := Option.isSome_iff_exists.mp ha
  obtain ⟨a', ha', halike⟩ := h.at? ha
  rwa [part_of_at? ha, part_of_at? ha']

theorem newUnary (hrel : AllowsFresh rel) (h : Alike rel n n') (op : UnaryOp) :
    Alike rel (Node.newUnary op n) (Node.newUnary op n') := .unary (hrel _) h

theorem newBinary (hrel : AllowsFresh rel) (h : Alike rel n n') (h' : Alike rel m m') (op : BinaryOp) :
    Alike rel (Node.newBinary op n m) (Node.newBinary op n' m') := .binary (hrel _) h h'

/-- What is made of parts that are alike is alike. -/
theorem build {sk : Sketch α} (hrel : AllowsFresh rel) (h : ∀ p ∈ sk.parts, Alike rel (n.part p) (n'.part p)) :
    Alike rel (n.build sk) (n'.build sk) := by
  induction sk with
  | part p => exact h p (by simp [Sketch.parts])
  | const v => exact .const (hrel _)
  | unary op x ih => exact (ih h).newUnary hrel op
  | binary op l r ihl ihr =>
      simp only [Sketch.parts, List.mem_append] at h
      exact (ihl fun p hp => h p (.inl hp)).newBinary hrel (ihr fun p hp => h p (.inr hp)) op

theorem put (hrel : AllowsFresh rel) (h : Alike rel n n') (hm : Alike rel m m') :
    Alike rel (n.put p m) (n'.put p m') := by
  induction p generalizing n n' with
  | nil => simpa using hm
  | cons s p ih =>
      cases h with
      | const ht => cases s <;> exact .const ht
      | var ht => cases s <;> exact .var ht
      | unary ht hx =>
          cases s with
          | operand => exact .unary (hrel _) (ih hx)
          | left | right => exact .unary ht hx
      | binary ht hl hr =>
          cases s with
          | left => exact .binary (hrel _) (ih hl) hr
          | right => exact .binary (hrel _) hl (ih hr)
          | operand => exact .binary ht hl hr

end Alike

namespace AlikeBelow

theorem expr_eq (h : AlikeBelow rel n n') : n'.expr = n.expr := by
  simpa using Alike.expr_eq h

theorem of_withTag (h : ∀ e t, rel e t t) (n : Node α) (t : Tag) :
    AlikeBelow rel n (n.withTag t) := by
  rw [AlikeBelow, withTag_withTag]
  exact .refl h _

theorem at? (h : AlikeBelow rel n n') (hp : p ≠ []) (ha : n.at? p = some a) :
    ∃ a', n'.at? p = some a' ∧ Alike rel a a' := by
  rw [← at?_withTag n .fresh hp] at ha
  obtain ⟨a', ha', halike⟩ := Alike.at? h ha
  rw [at?_withTag n' .fresh hp] at ha'
  exact ⟨a', ha', halike⟩

theorem part (h : AlikeBelow rel n n') (hp : p ≠ []) (ha : (n.at? p).isSome) :
    Alike rel (n.part p) (n'.part p) := by
  obtain ⟨a, ha⟩ := Option.isSome_iff_exists.mp ha
  obtain ⟨a', ha', halike⟩ := h.at? hp ha
  rwa [part_of_at? ha, part_of_at? ha']

/-- A part of a part below the root. -/
theorem part_part {q : Path} (h : AlikeBelow rel n n') (ha : n.at? p = some a) (hq : (a.at? q).isSome)
    (hne : p ++ q ≠ []) : Alike rel ((n.part p).part q) ((n'.part p).part q) := by
  obtain ⟨b, hb⟩ := Option.isSome_iff_exists.mp hq
  have hb' : n.at? (p ++ q) = some b := by rw [at?_append, ha, Option.bind_some, hb]
  obtain ⟨c, hc, halike⟩ := h.at? hne hb'
  rw [at?_append] at hc
  obtain ⟨a', ha', hc⟩ := Option.bind_eq_some_iff.mp hc
  rwa [part_of_at? ha, part_of_at? ha', part_of_at? hb, part_of_at? hc]

theorem build {sk : Sketch α} (hrel : AllowsFresh rel) (h : AlikeBelow rel n n')
    (hsk : ∀ p ∈ sk.parts, p ≠ [] ∧ (n.at? p).isSome) : Alike rel (n.build sk) (n'.build sk) :=
  Alike.build hrel fun p hp => h.part (hsk p hp).1 (hsk p hp).2

theorem put (hrel : AllowsFresh rel) (h : AlikeBelow rel n n') (hp : (n.at? p).isSome) (hm : Alike rel m m') :
    Alike rel (n.put p m) (n'.put p m') := by
  obtain ⟨a, ha⟩ := Option.isSome_iff_exists.mp hp
  have ha' : (n'.at? p).isSome := by
    rw [← isSome_at?_expr, h.expr_eq, isSome_at?_expr, ha]
    rfl
  obtain ⟨a', ha'⟩ := Option.isSome_iff_exists.mp ha'
  rw [← put_withTag ha m .fresh, ← put_withTag ha' m' .fresh]
  exact Alike.put hrel h hm

theorem rebuildAt {sk : Sketch α} (hrel : AllowsFresh rel) (h : AlikeBelow rel n n') (ha : n.at? p = some a)
    (hsk : ∀ q ∈ sk.parts, p ++ q ≠ [] ∧ (a.at? q).isSome) :
    Alike rel (n.rebuildAt p sk) (n'.rebuildAt p sk) :=
  h.put hrel (Option.isSome_of_eq_some ha)
    (Alike.build hrel fun q hq => h.part_part ha (hsk q hq).2 (hsk q hq).1)

theorem splice {sp : Splice α} (hrel : AllowsFresh rel) (h : AlikeBelow rel n n') (hsp : Splices n.expr p sp) :
    Alike rel (n.splice sp) (n'.splice sp) := by
  cases hsp with
  | @promote p op l r s survivor k hat hs =>
      obtain ⟨a, ha, hae⟩ := exists_at?_of_expr hat
      refine h.rebuildAt hrel ha fun q hq => ?_
      obtain rfl : q = [survivor] := by simpa [Splice.sketch, Sketch.parts] using hq
      refine ⟨by simp, ?_⟩
      rw [← isSome_at?_expr, hae]
      rcases hs with ⟨-, rfl⟩ | ⟨-, rfl⟩ <;> rfl
  | @negate p op l r k hat =>
      obtain ⟨a, ha, hae⟩ := exists_at?_of_expr hat
      refine h.rebuildAt hrel ha fun q hq => ?_
      obtain rfl : q = [.right] := by simpa [Splice.sketch, Sketch.parts] using hq
      refine ⟨by simp, ?_⟩
      rw [← isSome_at?_expr, hae]
      rfl
  | @fill p v k hat =>
      rw [isSome_at?_expr] at hat
      obtain ⟨a, ha⟩ := Option.isSome_iff_exists.mp hat
      exact h.rebuildAt hrel ha (by simp [Splice.sketch, Sketch.parts])

variable [Arithmetic α]

theorem normalized {fromRoot : Bool} {l r : Expr α} (hrel : AllowsFresh rel)
    (h : AlikeBelow rel n n')
    (hp : n.expr.at? p = some (.binary (if fromRoot then .root else .pow) l r)) :
    AlikeBelow rel (n.normalized fromRoot p) (n'.normalized fromRoot p) := by
  cases fromRoot with
  | false => exact h
  | true =>
      obtain ⟨a, ha, hae⟩ := exists_at?_of_expr hp
      refine (h.rebuildAt hrel ha fun q hq => ?_).belowRoot hrel
      rw [← isSome_at?_expr, hae]
      have hq' : q = [.right] ∨ q = [.left] := by simpa [Expr.rootAsPower, Sketch.parts] using hq
      rcases hq' with rfl | rfl <;> exact ⟨by simp, rfl⟩

/-- A factor that takes up a minus sign. -/
theorem signChange {f : Expr α} {s : Slot} {change : SignChange α} (hrel : AllowsFresh rel)
    (h : AlikeBelow rel n n') (hf : n.expr.at? (.operand :: s :: p) = some f) (hfits : change.Fits f) :
    Alike rel (n.perform (.pushSign (.operand :: s :: p) change))
      (n'.perform (.pushSign (.operand :: s :: p) change)) := by
  obtain ⟨a, ha, rfl⟩ := exists_at?_of_expr hf
  have hrebuilt : Alike rel (n.rebuildAt (.operand :: s :: p) change.sketch)
      (n'.rebuildAt (.operand :: s :: p) change.sketch) := by
    refine h.rebuildAt hrel ha fun q hq => ⟨by simp, ?_⟩
    cases change with
    | flip v => simp [SignChange.sketch, Sketch.parts] at hq
    | wrap =>
        obtain rfl : q = [] := by simpa [SignChange.sketch, Sketch.parts] using hq
        rfl
    | unwrap =>
        obtain rfl : q = [.operand] := by simpa [SignChange.sketch, Sketch.parts] using hq
        obtain ⟨y, hy⟩ := hfits
        rw [← isSome_at?_expr, hy]
        rfl
  refine hrebuilt.part ?_
  -- the operand is above the factor
  have hbuilt := at?_put_self ha ((n.part (.operand :: s :: p)).build change.sketch)
  have hsplit : (.operand :: s :: p : Path) = [.operand] ++ s :: p := rfl
  rw [hsplit, at?_append] at hbuilt
  exact Option.isSome_of_isSome_bind (Option.isSome_of_eq_some hbuilt)

/-- Two constants of a chain that become one. -/
theorem collapse {kind : ChainKind} {kept removed : Path} {w : α} (hrel : AllowsFresh rel)
    (h : AlikeBelow rel n n') (hkept : n.expr.at? kept = some (.const w))
    (hrem : Removable kind n.expr kept removed) (v : α) :
    Alike rel (n.perform (.collapse kind kept v removed)) (n'.perform (.collapse kind kept v removed)) := by
  obtain ⟨sp, hsp⟩ := hrem.exists_splice (Option.isSome_of_eq_some hkept)
  simp only [Node.perform, h.expr_eq, hsp]
  have hput := h.put (p := kept) (m := newConst v) hrel (by rw [← isSome_at?_expr, hkept]; rfl)
    (.const (hrel _))
  have hsp' : (n.put kept (newConst v)).expr.splice? kind removed = some sp := by
    rw [expr_put, Expr.splice?_put hrem.apart.symm, hsp]
  refine (hput.belowRoot hrel).splice hrel (Expr.splices_of_splice? hsp' ?_)
  rw [expr_put, Expr.at?_put_of_apart hrem.apart.symm]
  exact hrem.isSome

/-- A logarithm that joins another one. -/
theorem joinLogarithms {kept removed : Path} {slot s : Slot} {x y t : Expr α} (hrel : AllowsFresh rel)
    (h : AlikeBelow rel n n') (hkept : n.expr.at? (kept ++ [slot]) = some x)
    (hrem : Removable .additive n.expr kept removed) (ht : n.expr.at? removed = some t)
    (hy : t.operand? s = some y) (op : BinaryOp) :
    Alike rel (n.perform (.joinLogarithms op kept slot (removed ++ [s]) removed))
      (n'.perform (.joinLogarithms op kept slot (removed ++ [s]) removed)) := by
  obtain ⟨a, ha, -⟩ := exists_at?_of_expr hkept
  have hkeptSome : (n.expr.at? kept).isSome := by
    rw [Expr.at?_append] at hkept
    exact Option.isSome_of_isSome_bind (Option.isSome_of_eq_some hkept)
  obtain ⟨sp, hsp⟩ := hrem.exists_splice hkeptSome
  have hspliced := h.splice hrel (Expr.splices_of_splice? hsp hrem.isSome)
  have hat := Option.isSome_of_eq_some (at?_splice_kept hrem hsp ha)
  have harg : (n.at? (removed ++ [s])).isSome := by
    rw [← isSome_at?_expr, Expr.at?_append, ht, Option.bind_some, Expr.at?_cons, hy]
    rfl
  simp only [Node.perform, h.expr_eq, hsp, graft]
  exact (hspliced.belowRoot hrel).put hrel hat ((hspliced.part hat).newBinary hrel (h.part (by simp) harg) op)

/-- A factor that joins a power. -/
theorem joinPowers {kept removed : Path} {fromRoot : Bool} {exponent : Sketch α} {l r t : Expr α}
    (hrel : AllowsFresh rel) (h : AlikeBelow rel n n')
    (hkept : n.expr.at? kept = some (.binary (if fromRoot then .root else .pow) l r))
    (hrem : Removable .multiplicative n.expr kept removed) (ht : n.expr.at? removed = some t)
    (hfits : exponent.Fits t) (op : BinaryOp) :
    Alike rel (n.perform (.joinPowers op kept fromRoot exponent removed))
      (n'.perform (.joinPowers op kept fromRoot exponent removed)) := by
  obtain ⟨⟨a, ha⟩, hat, hsplice?, hrem'⟩ := normalized_spec hkept hrem
  obtain ⟨sp, hsp⟩ := hrem.exists_splice (Option.isSome_of_eq_some hkept)
  have hsp' := hsplice?.trans hsp
  have hspliced := (h.normalized hrel hkept).splice hrel (Expr.splices_of_splice? hsp' hrem'.isSome)
  have hright := Option.isSome_of_eq_some (at?_splice_kept hrem' hsp' ha)
  obtain ⟨u, hu, rfl⟩ := exists_at?_of_expr ht
  have hexponent : Alike rel ((n.part removed).build exponent) ((n'.part removed).build exponent) := by
    refine Alike.build hrel fun q hq => h.part_part hu ?_ ?_
    · rw [← isSome_at?_expr]
      exact hfits.isSome q hq
    · simp [hrem.apart.ne_nil]
  simp only [Node.perform, h.expr_eq, hsp, graft]
  exact (hspliced.belowRoot hrel).put hrel hright ((hspliced.part hright).newBinary hrel hexponent op)

/-- Trees that are alike below their roots are alike after a move. -/
theorem perform {move : Move α} (hrel : AllowsFresh rel) (h : AlikeBelow rel n n') (hm : move.Fits n.expr) :
    Alike rel (n.perform move) (n'.perform move) := by
  cases hm with
  | rebuild hsk =>
      exact h.build hrel fun p hp => ⟨hsk.proper p hp, by rw [← isSome_at?_expr]; exact hsk.isSome p hp⟩
  | pushSign hx hf hfits => exact h.signChange hrel (by rw [hx]; exact hf) hfits
  | collapse hkept hrem => exact h.collapse hrel hkept hrem _
  | joinLogarithms _ hkept hrem ht hb _ => exact h.joinLogarithms hrel hkept hrem ht hb _
  | joinPowers _ hkept hrem _ ht hfits _ => exact h.joinPowers hrel hkept hrem ht hfits _

end AlikeBelow

/-- A move does not look at the tag of the root. -/
theorem perform_withTag [Arithmetic α] {move : Move α} (hm : move.Fits n.expr) (t : Tag) :
    (n.withTag t).perform move = n.perform move :=
  ((AlikeBelow.of_withTag (fun _ _ => rfl) n t).perform (fun _ => rfl) hm).eq_of_eq.symm

/-! ### Justified marks -/

/-- Marked parts have the property. -/
def Justified (J : Expr α → Prop) (n : Node α) : Prop :=
  Alike (fun e t _ => t.settled = true → J e) n n

namespace Justified

variable {J : Expr α → Prop} {op : UnaryOp} {op' : BinaryOp}

theorem allowsFresh : AllowsFresh fun (e : Expr α) t _ => t.settled = true → J e :=
  fun _ h => Bool.noConfusion h

theorem holds_of_settled (h : Justified J n) (ht : n.tag.settled = true) : J n.expr :=
  h.tag_rel ht

theorem operand (h : Justified J (.unary t op n)) : Justified J n := by
  cases h with | unary _ h => exact h

theorem left (h : Justified J (.binary t op' n m)) : Justified J n := by
  cases h with | binary _ h _ => exact h

theorem right (h : Justified J (.binary t op' n m)) : Justified J m := by
  cases h with | binary _ _ h => exact h

theorem newConst (v : α) : Justified J (newConst v) := .const (allowsFresh _)

theorem newUnary (h : Justified J n) (op : UnaryOp) : Justified J (newUnary op n) :=
  Alike.newUnary allowsFresh h op

theorem newBinary (h : Justified J n) (h' : Justified J m) (op : BinaryOp) :
    Justified J (newBinary op n m) := Alike.newBinary allowsFresh h h' op

theorem settle (h : Justified J n) (hn : J n.expr) : Justified J n.settle := h.withTag fun _ => hn

/-- In a tree without marks nothing is to be justified. -/
theorem clean (n : Node α) : Justified J n.clean := by
  induction n with
  | const => exact .const (allowsFresh _)
  | var => exact .var (allowsFresh _)
  | unary _ _ _ ih => exact .unary (allowsFresh _) ih
  | binary _ _ _ _ ihl ihr => exact .binary (allowsFresh _) ihl ihr

/-- It is enough to look at all parts. -/
theorem of_parts (h : ∀ p m, n.at? p = some m → m.tag.settled = true → J m.expr) : Justified J n := by
  induction n with
  | const => exact .const (h [] _ rfl)
  | var => exact .var (h [] _ rfl)
  | unary _ _ _ ih => exact .unary (h [] _ rfl) (ih fun p => h (.operand :: p))
  | binary _ _ _ _ ihl ihr =>
      exact .binary (h [] _ rfl) (ihl fun p => h (.left :: p)) (ihr fun p => h (.right :: p))

theorem imp {J' : Expr α → Prop} (h : Justified J n) (hJ : ∀ m : Node α, J m.expr → J' m.expr) :
    Justified J' n := by
  induction n with
  | const t v => cases h with | const ht => exact .const fun hs => hJ (.const t v) (ht hs)
  | var t x => cases h with | var ht => exact .var fun hs => hJ (.var t x) (ht hs)
  | unary t op x ih =>
      cases h with | unary ht hx => exact .unary (fun hs => hJ (.unary t op x) (ht hs)) (ih hx)
  | binary t op l r ihl ihr =>
      cases h with | binary ht hl hr =>
      exact .binary (fun hs => hJ (.binary t op l r) (ht hs)) (ihl hl) (ihr hr)

/-- A move marks nothing. -/
theorem perform [Arithmetic α] {move : Move α} (h : Justified J n) (hm : move.Fits n.expr) :
    Justified J (n.perform move) := (h.belowRoot allowsFresh).perform allowsFresh hm

end Justified

end Node

end Formula
