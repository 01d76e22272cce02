/-
Formula/Proofs/Row.lean

`Segment.resolve` finds the tree of a row of segments exactly if the row is a
phrase of the grammar.

Soundness follows the classes.  `Covers level row links` says that `links` is
what has become of `row`: every operand among the links is the tree of a
stretch of the row, a phrase of the category `level`.  Applying the unary
operators establishes it for the unary class, and joining a class carries it
from the class just tighter to the class.

For completeness the links of a phrase are seen as a chain, a first operand
and then operators with the operand behind each.  On chains `join` cannot fail
and is `merge`, and merging all classes down to a phrase's own leaves nothing
but its tree.
-/
import Formula.Proofs.Grammar

namespace Formula

universe u v

variable {α : Type u}

/-- A computation succeeds if its first part does, and then the rest of it. -/
theorem bind_eq_ok {ε : Type u} {β γ : Type v} {x : Except ε β} {f : β → Except ε γ} {r : γ} :
    (x >>= f) = .ok r ↔ ∃ a, x = .ok a ∧ f a = .ok r := by
  cases x with
  | error => simp [bind, Except.bind]
  | ok => simp [bind, Except.bind]

/-- A computation fails if its first part does, or the rest of it. -/
theorem bind_eq_error {ε : Type u} {β γ : Type v} {x : Except ε β} {f : β → Except ε γ} {err : ε} :
    (x >>= f) = .error err ↔ x = .error err ∨ ∃ a, x = .ok a ∧ f a = .error err := by
  cases x with
  | error => simp [bind, Except.bind]
  | ok => simp [bind, Except.bind]

/-- Renaming errors leaves results as they are. -/
theorem eq_ok_of_mapError {ε ε' : Type u} {β : Type v} {f : ε → ε'} {w : Except ε β} {r : β}
    (h : w.mapError f = .ok r) : w = .ok r := by
  cases w with
  | error e => cases h
  | ok r' => exact congrArg Except.ok (Except.ok.inj h)

/-- Errors can be renamed in the parts of a computation. -/
theorem mapError_bind {ε ε' : Type u} {β γ : Type v} (f : ε → ε') (x : Except ε β)
    (g : β → Except ε γ) :
    (x >>= g).mapError f = x.mapError f >>= fun b => (g b).mapError f := by
  cases x <;> rfl

/-! ### Soundness -/

/-- The links are what has become of the row, with phrases of a category made
into operands. -/
inductive Covers (level : Precedence) : List (Segment α) → List (Link α) → Prop
  | nil : Covers level [] []
  | operand {r row : List (Segment α)} {e : Expr α} {links : List (Link α)} :
      RowDerives level r e → Covers level row links →
      Covers level (r ++ row) (.operand e :: links)
  | operator {op : BinaryOp} {row : List (Segment α)} {links : List (Link α)} :
      Covers level row links → Covers level (.binary op :: row) (.operator op :: links)

/-- A run of unary operators in front of a phrase, applied innermost first. -/
theorem rowDerives_run (run : List UnaryOp) {row : List (Segment α)} {e : Expr α}
    (h : RowDerives .unary row e) :
    RowDerives .unary ((run.map .unary).reverse ++ row)
      (run.foldl (fun x op => .unary op x) e) := by
  induction run generalizing row e with
  | nil => exact h
  | cons op run ih => simpa using ih (.unary h : RowDerives .unary (.unary op :: row) _)

theorem covers_applyUnary (run : List UnaryOp) (row : List (Segment α)) (links : List (Link α))
    (h : Segment.applyUnary run row = .ok links) :
    Covers .unary ((run.map .unary).reverse ++ row) links := by
  fun_induction Segment.applyUnary run row generalizing links with
  | case1 =>
      obtain rfl := Except.ok.inj h
      exact .nil
  | case2 => cases h
  | case3 run op rest ih => simpa using ih links h
  | case4 run e rest ih =>
      obtain ⟨links', hrest, h⟩ := bind_eq_ok.mp h
      obtain rfl := Except.ok.inj h
      rw [List.append_cons]
      exact .operand (rowDerives_run run (.tighter (.operand e))) (ih links' hrest)
  | case5 op rest ih =>
      obtain ⟨links', hrest, h⟩ := bind_eq_ok.mp h
      obtain rfl := Except.ok.inj h
      exact .operator (ih links' hrest)
  | case6 => cases h

/-- Joining a class.  `before` is the stretch of the row that the operand in
front of the links stands for. -/
theorem covers_join (level : Precedence) (left : Option (Expr α)) (links links' : List (Link α))
    (before : List (Segment α)) {row : List (Segment α)}
    (hleft : match left with
      | none => before = []
      | some a => RowDerives level before a)
    (hcovers : Covers level.tighter row links) (h : Link.join level left links = .ok links') :
    Covers level (before ++ row) links' := by
  -- `before` are the segments of the operand that is still being joined
  fun_induction Link.join level left links generalizing links' before row with
  | case1 left =>
      cases hcovers
      obtain rfl := Except.ok.inj h
      cases left with
      | none => subst hleft; exact .nil
      | some a => exact .operand hleft .nil
  | case2 left e rest ih =>
      cases hcovers with
      | @operand r row _ _ he hrest =>
      obtain ⟨links'', hjoin, h⟩ := bind_eq_ok.mp h
      obtain rfl := Except.ok.inj h
      have hcovered := ih links'' r (.tighter he) hrest hjoin
      cases left with
      | none => subst hleft; exact hcovered
      | some a => exact .operand hleft hcovered
  | case3 => cases h
  | case4 op hop l r rest ih =>
      cases hcovers with
      | operator hcovers =>
      cases hcovers with
      | @operand r' row _ _ hr hrest =>
      subst hop
      rw [← List.cons_append, ← List.append_assoc]
      exact ih links' _ (.binary hleft hr) hrest h
  | case5 => cases h
  | case6 left op rest hop ih =>
      cases hcovers with
      | @operator _ row _ hrest =>
      obtain ⟨links'', hjoin, h⟩ := bind_eq_ok.mp h
      obtain rfl := Except.ok.inj h
      -- an operator of another level ends the operand and is left for that level
      have hcovered : Covers level (.binary op :: row) (.operator op :: links'') :=
        .operator (ih links'' [] rfl hrest hjoin)
      cases left with
      | none => subst hleft; exact hcovered
      | some a => exact .operand hleft hcovered

/-- The row of a single operand is its phrase. -/
theorem Covers.single {level : Precedence} {row : List (Segment α)} {e : Expr α}
    (h : Covers level row [.operand e]) : RowDerives level row e := by
  cases h with
  | operand he hrest =>
      cases hrest
      simpa using he

theorem Link.eq_of_single {links : List (Link α)} {e : Expr α} (h : single links = .ok e) :
    links = [.operand e] := by
  unfold single at h
  split at h
  · obtain rfl := Except.ok.inj h
    rfl
  · cases h
  · cases h

/-- What `resolve` finds is the tree of the row. -/
theorem rowDerives_of_resolve {row : List (Segment α)} {e : Expr α}
    (h : Segment.resolve row = .ok e) : RowDerives .extremum row e := by
  unfold Segment.resolve at h
  obtain ⟨links, hunary, h⟩ := bind_eq_ok.mp h
  simp only [Link.levels, List.foldlM_cons, List.foldlM_nil] at h
  obtain ⟨joined, hjoined, hsingle⟩ := bind_eq_ok.mp h
  obtain ⟨powers, hpowers, hjoined⟩ := bind_eq_ok.mp hjoined
  obtain ⟨products, hproducts, hjoined⟩ := bind_eq_ok.mp hjoined
  obtain ⟨sums, hsums, hjoined⟩ := bind_eq_ok.mp hjoined
  obtain ⟨extrema, hextrema, hjoined⟩ := bind_eq_ok.mp hjoined
  obtain rfl := Except.ok.inj hjoined
  have hcovers := covers_applyUnary [] row links hunary
  have hcovers := covers_join .power none links powers [] rfl hcovers hpowers
  have hcovers := covers_join .multiplicative none powers products [] rfl hcovers hproducts
  have hcovers := covers_join .additive none products sums [] rfl hcovers hsums
  have hcovers := covers_join .extremum none sums extrema [] rfl hcovers hextrema
  obtain rfl := Link.eq_of_single hsingle
  exact hcovers.single

/-! ### Completeness -/

/-- The binary classes from the tightest one down to a given one. -/
def Precedence.downTo : Precedence → List Precedence
  | .leaf | .unary => []
  | .power => [.power]
  | .multiplicative => [.power, .multiplicative]
  | .additive => [.power, .multiplicative, .additive]
  | .extremum => [.power, .multiplicative, .additive, .extremum]

theorem downTo_precedence (op : BinaryOp) :
    op.precedence.downTo = op.precedence.tighter.downTo ++ [op.precedence] := by
  cases op <;> rfl

theorem precedence_notMem_downTo (op : BinaryOp) :
    op.precedence ∉ op.precedence.tighter.downTo := by
  cases op <;> decide

/-- An operand and then operators, each with the operand behind it. -/
abbrev Chain (α : Type u) := Expr α × List (BinaryOp × Expr α)

namespace Link

/-- The links of a chain. -/
def ofChain (c : Chain α) : List (Link α) :=
  .operand c.1 :: c.2.flatMap fun y => [.operator y.1, .operand y.2]

/-- A chain with the operators of a class joined. -/
def merge (level : Precedence) : Expr α → List (BinaryOp × Expr α) → Chain α
  | x, [] => (x, [])
  | x, (op, y) :: rest =>
    if op.precedence = level then merge level (.binary op x y) rest
    else (x, (op, (merge level y rest).1) :: (merge level y rest).2)

/-- A chain with the operators of some classes joined, one class at a time. -/
def mergeAll (levels : List Precedence) (c : Chain α) : Chain α :=
  levels.foldl (fun c level => merge level c.1 c.2) c

/-- On the rest of a chain `join` cannot fail. -/
theorem join_rest (level : Precedence) (x : Expr α) (rest : List (BinaryOp × Expr α)) :
    join level (some x) (rest.flatMap fun y => [.operator y.1, .operand y.2])
      = .ok (ofChain (merge level x rest)) := by
  fun_induction merge level x rest with
  | case1 x => rfl
  | case2 x op y rest hop ih => simp [join, hop, ih]
  | case3 x op y rest hop ih => simp [join, hop, ih, ofChain, pure, Except.pure, bind, Except.bind]

theorem join_ofChain (level : Precedence) (c : Chain α) :
    join level none (ofChain c) = .ok (ofChain (merge level c.1 c.2)) := by
  simp [ofChain, join, join_rest, pure, Except.pure, bind, Except.bind]

theorem foldlM_join_ofChain (levels : List Precedence) (c : Chain α) :
    levels.foldlM (fun links level => join level none links) (ofChain c)
      = .ok (ofChain (mergeAll levels c)) := by
  induction levels generalizing c with
  | nil => rfl
  | cons level levels ih => simp [mergeAll, join_ofChain, ih, bind, Except.bind]

/-- Joining a class works on both sides of an operator of another class. -/
theorem merge_append_of_ne {level : Precedence} {op : BinaryOp} (h : op.precedence ≠ level)
    (x y : Expr α) (left right : List (BinaryOp × Expr α)) :
    merge level x (left ++ (op, y) :: right)
      = ((merge level x left).1, (merge level x left).2
          ++ (op, (merge level y right).1) :: (merge level y right).2) := by
  fun_induction merge level x left with
  | case1 x => simp [merge, h]
  | case2 x op' z rest hop ih => simp [merge, hop, ih]
  | case3 x op' z rest hop ih => simp [merge, hop, ih]

theorem mergeAll_append {levels : List Precedence} {op : BinaryOp} (h : op.precedence ∉ levels)
    (x y : Expr α) (left right : List (BinaryOp × Expr α)) :
    mergeAll levels (x, left ++ (op, y) :: right)
      = ((mergeAll levels (x, left)).1, (mergeAll levels (x, left)).2
          ++ (op, (mergeAll levels (y, right)).1) :: (mergeAll levels (y, right)).2) := by
  induction levels generalizing x y left right with
  | nil => rfl
  | cons level levels ih =>
      obtain ⟨hlevel, hlevels⟩ : op.precedence ≠ level ∧ op.precedence ∉ levels := by
        simpa using h
      simp only [mergeAll, List.foldl_cons, merge_append_of_ne hlevel] at ih ⊢
      exact ih hlevels _ _ _ _

/-- An operator behind a chain that its class joins to one operand takes that
operand. -/
theorem merge_concat {level : Precedence} {op : BinaryOp} (h : op.precedence = level)
    {x a : Expr α} {left : List (BinaryOp × Expr α)} (ha : merge level x left = (a, []))
    (b : Expr α) : merge level x (left ++ [(op, b)]) = (.binary op a b, []) := by
  fun_induction merge level x left with
  | case1 x => simp_all [merge]
  | case2 x op' z rest hop ih => simp [merge, hop, ih ha]
  | case3 => simp at ha

/-- Two chains with an operator between them, which its class and the tighter
ones join to one operand each. -/
theorem mergeAll_binary {op : BinaryOp} {c d : Chain α} {a b : Expr α}
    (ha : mergeAll op.precedence.downTo c = (a, []))
    (hb : mergeAll op.precedence.tighter.downTo d = (b, [])) :
    mergeAll op.precedence.downTo (c.1, c.2 ++ (op, d.1) :: d.2) = (.binary op a b, []) := by
  rw [downTo_precedence, mergeAll, List.foldl_append] at ha ⊢
  change merge _ (mergeAll op.precedence.tighter.downTo _).1
    (mergeAll op.precedence.tighter.downTo _).2 = _ at ha
  change merge _ (mergeAll op.precedence.tighter.downTo _).1
    (mergeAll op.precedence.tighter.downTo _).2 = _
  rw [mergeAll_append (precedence_notMem_downTo op), hb]
  exact merge_concat rfl ha b

end Link

/-- The unary operators of two stretches around a binary operator are applied
apart. -/
theorem applyUnary_append {run : List UnaryOp} {l r : List (Segment α)} {op : BinaryOp}
    {left right : List (Link α)} (hl : Segment.applyUnary run l = .ok left)
    (hr : Segment.applyUnary [] r = .ok right) :
    Segment.applyUnary run (l ++ .binary op :: r) = .ok (left ++ .operator op :: right) := by
  fun_induction Segment.applyUnary run l generalizing left with
  | case1 =>
      obtain rfl := Except.ok.inj hl
      simp [Segment.applyUnary, hr, pure, Except.pure, bind, Except.bind]
  | case2 => cases hl
  | case3 run op rest ih => simpa [Segment.applyUnary] using ih hl
  | case4 run e rest ih =>
      obtain ⟨links, hrest, hl⟩ := bind_eq_ok.mp hl
      obtain rfl := Except.ok.inj hl
      simp [Segment.applyUnary, ih hrest, pure, Except.pure, bind, Except.bind]
  | case5 op rest ih =>
      obtain ⟨links, hrest, hl⟩ := bind_eq_ok.mp hl
      obtain rfl := Except.ok.inj hl
      simp [Segment.applyUnary, ih hrest, pure, Except.pure, bind, Except.bind]
  | case6 => cases hl

/-- A phrase of the unary category is one operand under a run of operators. -/
theorem applyUnary_of_rowDerives {level : Precedence} {row : List (Segment α)} {e : Expr α}
    (h : RowDerives level row e) (hlevel : level = .unary ∨ level = .leaf) (run : List UnaryOp) :
    Segment.applyUnary run row = .ok [.operand (run.foldl (fun x op => .unary op x) e)] := by
  induction h generalizing run with
  | operand e => simp [Segment.applyUnary, pure, Except.pure, bind, Except.bind]
  | unary _ ih => simpa [Segment.applyUnary] using ih (.inl rfl) (_ :: run)
  | @binary op => cases op <;> simp [BinaryOp.precedence] at hlevel
  | @tighter level _ _ _ ih =>
      refine ih ?_ run
      rcases hlevel with rfl | rfl <;> exact .inr rfl

/-- Behind the unary pass a phrase is a chain that its own class and the
tighter ones join to its tree. -/
theorem exists_chain_of_rowDerives {level : Precedence} {row : List (Segment α)} {e : Expr α}
    (h : RowDerives level row e) :
    ∃ c : Chain α, Segment.applyUnary [] row = .ok (Link.ofChain c) ∧
      Link.mergeAll level.downTo c = (e, []) := by
  induction h with
  | operand e => exact ⟨(e, []), applyUnary_of_rowDerives (.operand e) (.inr rfl) [], rfl⟩
  | @unary op row e h _ =>
      exact ⟨(.unary op e, []), applyUnary_of_rowDerives (.unary h) (.inl rfl) [], rfl⟩
  | @binary op l r a b _ _ ihl ihr =>
      obtain ⟨c, hl, ha⟩ := ihl
      obtain ⟨d, hr, hb⟩ := ihr
      refine ⟨(c.1, c.2 ++ (op, d.1) :: d.2), ?_, Link.mergeAll_binary ha hb⟩
      rw [applyUnary_append hl hr]
      simp [Link.ofChain]
  | @tighter level row e _ ih =>
      obtain ⟨c, hrow, he⟩ := ih
      refine ⟨c, hrow, ?_⟩
      -- a tighter row is merged by one level more
      cases level with
      | leaf => exact he
      | unary => exact he
      | power => exact congrArg (fun c => Link.merge .power c.1 c.2) he
      | multiplicative => exact congrArg (fun c => Link.merge .multiplicative c.1 c.2) he
      | additive => exact congrArg (fun c => Link.merge .additive c.1 c.2) he
      | extremum => exact congrArg (fun c => Link.merge .extremum c.1 c.2) he

/-- A row resolves to a tree exactly if it is a phrase with that tree. -/
theorem resolve_eq_ok_iff {row : List (Segment α)} {e : Expr α} :
    Segment.resolve row = .ok e ↔ RowDerives .extremum row e := by
  refine ⟨rowDerives_of_resolve, fun h => ?_⟩
  obtain ⟨c, hrow, he⟩ := exists_chain_of_rowDerives h
  have hjoined := Link.foldlM_join_ofChain Link.levels c
  rw [show Link.mergeAll Link.levels c = (e, []) from he] at hjoined
  refine bind_eq_ok.mpr ⟨_, hrow, bind_eq_ok.mpr ⟨_, hjoined, rfl⟩⟩

end Formula
