/-
Formula/Proofs/Columns.lean

Evaluation on columns is evaluation row by row.

Every operator does to whole columns, one arithmetic operation after the other,
what it does to the values in each row (`Column.unary_eq_map`,
`Column.binary_eq_zipWith`), and its symbol finds it.  So the columns of a filled
expression whose variables are all listed are the columns of one function of the
row, and this function is the value of the expression (`exists_rowValue`).

A variable that is not listed is found on the way, from left to right, with or
without rows: the first one is the error of either evaluation
(`evalRows_of_undefined`, `eval_of_undefined`).
-/
import Formula.Proofs.Row
import Formula.Proofs.Simplify.Folding
import Formula.Solver.LiveExpr

namespace Formula

/-! ### Operators on columns -/

namespace Column

/-- A unary operator takes the elements of a column one by one. -/
theorem unary_eq_map (op : UnaryOp) (xs : List Float) :
    unary op xs = xs.map (Arithmetic.unary op) := by
  cases op with
  | round => exact List.map_map
  | neg | cos | sin | tan | ln | ceil | floor => rfl

/-- A binary operator takes the elements of two columns pair by pair. -/
theorem binary_eq_zipWith (op : BinaryOp) (xs ys : List Float) :
    binary op xs ys = List.zipWith (Arithmetic.binary op) xs ys := by
  cases op with
  | root =>
      rw [binary, List.zipWith_comm, List.zipWith_map_left]
      rfl
  | log =>
      rw [binary, List.zipWith_comm, List.zipWith_map]
      rfl
  | add | sub | mul | div | pow | max | min => rfl

theorem applyUnary_symbol (op : UnaryOp) (xs : List Float) :
    applyUnary op.symbol xs = .ok (xs.map (Arithmetic.unary op)) := by
  rw [applyUnary, unaryOperator, UnaryOp.ofSymbol?_symbol, ← unary_eq_map]
  rfl

theorem applyBinary_symbol (op : BinaryOp) (xs ys : List Float) :
    applyBinary op.symbol xs ys = .ok (List.zipWith (Arithmetic.binary op) xs ys) := by
  rw [applyBinary, binaryOperator, BinaryOp.ofSymbol?_symbol, ← binary_eq_zipWith]
  rfl

end Column

/-! ### Evaluation of all rows at once -/

namespace Expr

variable {names : List String} {e : Expr Float} {x : String}

/-- The first variable of a kind is looked for on the left first. -/
theorem find?_vars_binary (p : String → Bool) (op : BinaryOp) (l r : Expr Float) :
    (binary op l r).vars.find? p = (l.vars.find? p).or (r.vars.find? p) := by
  rw [vars, List.find?_append, List.find?_filter]
  cases hl : l.vars.find? p with
  | some y => rfl
  | none =>
      rw [Option.none_or, Option.none_or]
      -- a name that also stands on the left has failed there
      have hright : (fun y => decide ((!l.vars.contains y) = true ∧ p y = true)) = p := by
        funext y
        cases hy : p y with
        | false => simp
        | true =>
            have hnot : y ∉ l.vars := fun hmem => List.find?_eq_none.mp hl y hmem hy
            simp [hnot]
      rw [hright]

/-- A filled expression in listed variables has one value in each row, and its
column is the column of these values. -/
theorem exists_rowValue (he : e.isFilled) (hvars : ∀ x ∈ e.vars, x ∈ names) :
    ∃ value : List Float → Float, (∀ rows, e.evalRows names rows = .ok (rows.map value)) ∧
      ∀ row, row.length = names.length →
        e.eval (Bindings.environment ⟨names, some row⟩) = .ok (value row) := by
  induction e with
  | hole => cases he
  | const v =>
      refine ⟨fun _ => v, fun rows => ?_, fun row _ => rfl⟩
      rw [evalRows, Column.ofConst, List.map_const']
  | var x =>
      obtain ⟨i, hi, hlt⟩ := Bindings.exists_idxOf? (hvars x (List.mem_singleton_self x))
      refine ⟨fun row => row.getD i 0.0, fun rows => ?_, fun row hrow => ?_⟩
      · rw [evalRows, hi]
        rfl
      · rw [eval, Bindings.environment_of_idxOf? hi, List.getElem?_eq_getElem (hrow ▸ hlt)]
        simp [List.getElem?_eq_getElem (hrow ▸ hlt)]
  | unary op y ih =>
      obtain ⟨value, hrows, hrow⟩ := ih he hvars
      refine ⟨fun row => Arithmetic.unary op (value row), fun rows => ?_, fun row hlength => ?_⟩
      · rw [evalRows, hrows]
        exact (congrArg (Except.mapError _) (Column.applyUnary_symbol op _)).trans
          (congrArg Except.ok List.map_map)
      · rw [eval, hrow row hlength]
        rfl
  | binary op l r ihl ihr =>
      obtain ⟨hl, hr⟩ := Bool.and_eq_true_iff.mp he
      obtain ⟨left, hlrows, hlrow⟩ := ihl hl fun x hx => hvars x (mem_vars_binary.mpr (.inl hx))
      obtain ⟨right, hrrows, hrrow⟩ := ihr hr fun x hx => hvars x (mem_vars_binary.mpr (.inr hx))
      refine ⟨fun row => Arithmetic.binary op (left row) (right row), fun rows => ?_,
        fun row hlength => ?_⟩
      · -- two columns of functions of the row are one column of a function of the row
        have hzip : List.zipWith (Arithmetic.binary op) (rows.map left) (rows.map right) =
            rows.map fun row => Arithmetic.binary op (left row) (right row) := by
          rw [List.zipWith_map, List.zipWith_self]
        rw [evalRows, hlrows, hrrows, ← hzip]
        exact congrArg (Except.mapError _) (Column.applyBinary_symbol op _ _)
      · rw [eval, hlrow row hlength, hrrow row hlength]
        rfl

/-! ### Variables that are not listed -/

/-- The evaluation of one row stops at the first variable without a value. -/
theorem eval_of_undefined {env : Environment Float} (he : e.isFilled)
    (h : e.vars.find? (fun y => (env y).isNone) = some x) :
    e.eval env = .error (.undefinedVariable x) := by
  induction e with
  | hole => cases he
  | const v => cases h
  | var y =>
      have hnone := List.find?_some h
      obtain rfl := List.mem_singleton.mp (List.mem_of_find?_eq_some h)
      rw [eval, Option.isNone_iff_eq_none.mp hnone]
  | unary op y ih =>
      rw [eval, ih he h]
      rfl
  | binary op l r ihl ihr =>
      obtain ⟨hl, hr⟩ := Bool.and_eq_true_iff.mp he
      rw [find?_vars_binary] at h
      cases hfirst : l.vars.find? fun y => (env y).isNone with
      | some y =>
          rw [hfirst] at h
          obtain rfl := Option.some.inj h
          rw [eval, ihl hl hfirst]
          rfl
      | none =>
          have hbound : ∀ y ∈ l.vars, ∃ v, env y = some v := fun y hy =>
            Option.ne_none_iff_exists'.mp (by simpa using List.find?_eq_none.mp hfirst y hy)
          obtain ⟨v, hv⟩ := (exists_eval_iff hl).mpr hbound
          rw [eval, hv, ihr hr (by rwa [hfirst, Option.none_or] at h)]
          rfl

/-- The evaluation of all rows stops at the first variable that is not listed. -/
theorem evalRows_of_undefined (he : e.isFilled) (h : e.vars.find? (· ∉ names) = some x)
    (rows : List (List Float)) : e.evalRows names rows = .error (.undefinedVariable x) := by
  induction e with
  | hole => cases he
  | const v => cases h
  | var y =>
      have hnot := List.find?_some h
      obtain rfl := List.mem_singleton.mp (List.mem_of_find?_eq_some h)
      rw [evalRows, List.idxOf?_eq_none_iff.mpr (by simpa using hnot)]
  | unary op y ih =>
      rw [evalRows, ih he h]
      rfl
  | binary op l r ihl ihr =>
      obtain ⟨hl, hr⟩ := Bool.and_eq_true_iff.mp he
      rw [find?_vars_binary] at h
      cases hfirst : l.vars.find? (· ∉ names) with
      | some y =>
          rw [hfirst] at h
          obtain rfl := Option.some.inj h
          rw [evalRows, ihl hl hfirst]
          rfl
      | none =>
          obtain ⟨value, hvalue, -⟩ := exists_rowValue hl fun y hy => by
            simpa using List.find?_eq_none.mp hfirst y hy
          rw [evalRows, hvalue, ihr hr (by rwa [hfirst, Option.none_or] at h)]
          rfl

end Expr

/-! ### Grids -/

/-- **Rows are evaluated like bindings.**  For a grid with a column for each of
some distinct names, an expression in these names has one value for each row, and
it is the value under the bindings of the names to the row.  For an expression
with another variable there are no values, whatever the rows, and the first such
variable is reported, as it is under any bindings of the names. -/
theorem evalGrid_eq_eval (e : LiveExpr) {names : List String} (hnames : names.Nodup)
    {rows : List (List Float)} (hrows : ∀ row ∈ rows, row.length = names.length) :
    ((∀ x ∈ e.expr.vars, x ∈ names) →
        ∃ vs, e.evalGrid names (.ofRows names.length rows hrows) = .ok vs ∧
          vs.length = rows.length ∧
          ∀ (i : Nat) (row : List Float), rows[i]? = some row →
            ∃ b v, Bindings.make names (some row) = .ok b ∧
              e.expr.eval b.environment = .ok v ∧ vs[i]? = some v) ∧
      ((∃ x ∈ e.expr.vars, x ∉ names) →
        ∃ x, e.expr.vars.find? (· ∉ names) = some x ∧
          e.evalGrid names (.ofRows names.length rows hrows) = .error (.eval (.undefinedVariable x)) ∧
          ∀ values : List Float, values.length = names.length →
            ∃ b, Bindings.make names (some values) = .ok b ∧
              e.expr.eval b.environment = .error (.undefinedVariable x)) := by
  have hfilled : e.expr.isFilled := e.root.isFilled_expr
  have hgrid : e.evalGrid names (.ofRows names.length rows hrows) =
      (e.expr.evalRows names rows).mapError .eval := by
    rw [LiveExpr.evalGrid, Grid.rows_ofRows hrows]
    rfl
  rw [hgrid]
  constructor
  · intro hvars
    obtain ⟨value, hall, hone⟩ := Expr.exists_rowValue hfilled hvars
    refine ⟨rows.map value, by rw [hall]; rfl, List.length_map _, fun i row hrow => ?_⟩
    have hlength := hrows row (List.mem_of_getElem? hrow)
    exact ⟨_, value row, Bindings.make_eq_ok hnames hlength, hone row hlength,
      by rw [List.getElem?_map, hrow]; rfl⟩
  · rintro ⟨y, hy, hnot⟩
    have hsome : (e.expr.vars.find? (· ∉ names)).isSome :=
      List.find?_isSome.mpr ⟨y, hy, decide_eq_true hnot⟩
    obtain ⟨x, hx⟩ := Option.isSome_iff_exists.mp hsome
    refine ⟨x, hx, by rw [Expr.evalRows_of_undefined hfilled hx]; rfl, fun values hvalues => ?_⟩
    have hmake := Bindings.make_eq_ok hnames hvalues
    refine ⟨_, hmake, Expr.eval_of_undefined hfilled ?_⟩
    rw [← hx]
    congr 1
    funext y
    rw [Bool.eq_iff_iff, Option.isNone_iff_eq_none, Bindings.environment_eq_none_iff hmake]
    simp [Bindings.contains]

/-- Two rows of degrees and radicands have a root each, and without a column of
radicands there is none, even of no rows. -/
theorem evalGrid_root_eq_eval :
    ∃ e : LiveExpr, e.expr = .binary .root (.var "n") (.var "x") ∧
      (∃ vs b v,
        e.evalGrid ["x", "n"] (.ofRows 2 [[9.0, 2.0], [8.0, 3.0]] (by decide)) = .ok vs ∧
          vs.length = 2 ∧ Bindings.make ["x", "n"] (some [8.0, 3.0]) = .ok b ∧
          e.expr.eval b.environment = .ok v ∧ vs[1]? = some v) ∧
      e.evalGrid ["n", "y"] (.ofRows 2 [] (by decide)) = .error (.eval (.undefinedVariable "x")) := by
  let e : LiveExpr := .ofNode (.binary .fresh .root (.var .fresh "n") (.var .fresh "x"))
  refine ⟨e, rfl, ?_, ?_⟩
  · have hnames : ["x", "n"].Nodup := by decide
    have hrows : ∀ row ∈ [[9.0, 2.0], [8.0, 3.0]], row.length = ["x", "n"].length := by decide
    obtain ⟨vs, hvs, hlength, hrows⟩ := (evalGrid_eq_eval e hnames hrows).1 (by decide)
    obtain ⟨b, v, hb, hv, hat⟩ := hrows 1 _ rfl
    exact ⟨vs, b, v, hvs, hlength, hb, hv, hat⟩
  · have hnames : ["n", "y"].Nodup := by decide
    have hrows : ∀ row ∈ ([] : List (List Float)), row.length = ["n", "y"].length := by decide
    obtain ⟨x, hx, herror, -⟩ :=
      (evalGrid_eq_eval e hnames hrows).2 ⟨"x", by decide, by decide⟩
    obtain rfl : "x" = x := Option.some.inj hx
    exact herror

end Formula
