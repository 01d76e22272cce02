/-
Formula/Samples.lean

Tables of numbers as they are given: one number, or lists nested to any depth.
A table has a shape if lists at the same depth have the same length; its
numbers in reading order are its entries.  Shape and entries together are a grid,
and a grid of two levels is a list of rows.
-/
import Formula.Decimal.Layout
import Formula.Text.Quoted

namespace Formula

/-- A number or a list of such. -/
inductive Samples
  | item (value : Float)
  | list (items : List Samples)

/-- How far a table is regular: its shape, or the regular part of it. -/
structure Shape where
  lengths : List Nat
  regular : Bool

/-- The beginning that two lists share. -/
def commonStart : List Nat → List Nat → List Nat
  | a :: as, b :: bs => if a = b then a :: commonStart as bs else []
  | _, _ => []

/-- The shape of a row of tables, given the shapes of these. -/
def Shape.ofItems : List Shape → Shape
  | [] => ⟨[0], true⟩
  | first :: rest =>
    { lengths := (rest.length + 1) :: rest.foldl (fun s t => commonStart s t.lengths) first.lengths
      regular := first.regular && rest.all fun t => t.regular && t.lengths = first.lengths }

/-- The lengths as a tuple. -/
def Shape.tuple : List Nat → String
  | [n] => s!"({n},)"
  | lengths => "(" ++ ", ".intercalate (lengths.map toString) ++ ")"

/-- What is wrong with a table. -/
inductive SampleError
  | ragged (regularPart : List Nat)
  | wrongShape (columns : Nat) (shape : List Nat)

def SampleError.message : SampleError → String
  | ragged part =>
    "setting an array element with a sequence. The requested array has an inhomogeneous shape after "
      ++ s!"{part.length} dimensions. The detected shape was {Shape.tuple part} + inhomogeneous part."
  | wrongShape columns shape =>
    s!"Expected a (n_samples, {columns}) array, got shape {Shape.tuple shape}"

namespace Samples

mutual

/-- The numbers of a table in reading order. -/
def entries : Samples → List Float
  | item v => [v]
  | list items => entriesOfItems items

def entriesOfItems : List Samples → List Float
  | [] => []
  | t :: rest => t.entries ++ entriesOfItems rest

end

mutual

/-- The shape of a table. -/
def shape : Samples → Shape
  | item _ => ⟨[], true⟩
  | list items => Shape.ofItems (shapesOfItems items)

def shapesOfItems : List Samples → List Shape
  | [] => []
  | t :: rest => t.shape :: shapesOfItems rest

end

mutual

/-- A table as messages show it. -/
def text : Samples → String
  | item v => Decimal.fullText v
  | list items => Text.bracketed (textsOfItems items)

def textsOfItems : List Samples → List String
  | [] => []
  | t :: rest => t.text :: textsOfItems rest

end

/-! ### Regular tables -/

theorem length_shapesOfItems (items : List Samples) :
    (shapesOfItems items).length = items.length := by
  induction items with
  | nil => rfl
  | cons t rest ih => rw [shapesOfItems, List.length_cons, List.length_cons, ih]

end Samples

theorem commonStart_self (lengths : List Nat) : commonStart lengths lengths = lengths := by
  induction lengths with
  | nil => rfl
  | cons n lengths ih => rw [commonStart, if_pos rfl, ih]

/-- A regular list of tables has as many levels as its tables, and one more. -/
theorem Shape.lengths_ofItems {first : Shape} {rest : List Shape}
    (h : (Shape.ofItems (first :: rest)).regular) :
    (Shape.ofItems (first :: rest)).lengths = (rest.length + 1) :: first.lengths ∧
      ∀ s ∈ first :: rest, s.regular ∧ s.lengths = first.lengths := by
  simp only [ofItems, Bool.and_eq_true, List.all_eq_true, decide_eq_true_eq] at h
  obtain ⟨hfirst, hrest⟩ := h
  refine ⟨congrArg (_ :: ·) ?_, List.forall_mem_cons.mpr ⟨⟨hfirst, rfl⟩, hrest⟩⟩
  clear hfirst
  induction rest with
  | nil => rfl
  | cons s rest ih =>
      obtain ⟨hs, hrest⟩ := List.forall_mem_cons.mp hrest
      rw [List.foldl_cons, hs.2, commonStart_self]
      exact ih hrest

namespace Samples

mutual

/-- A regular table has a number at each of its places. -/
theorem length_entries : ∀ (t : Samples), t.shape.regular →
    t.entries.length = t.shape.lengths.foldr (· * ·) 1
  | item _, _ => rfl
  | list [], _ => rfl
  | list (t :: rest), h => by
      obtain ⟨hlengths, hitems⟩ := Shape.lengths_ofItems h
      rw [entries, shape, shapesOfItems, hlengths, List.foldr_cons, length_shapesOfItems]
      exact length_entriesOfItems (t :: rest) t.shape.lengths hitems

theorem length_entriesOfItems : ∀ (items : List Samples) (lengths : List Nat),
    (∀ s ∈ shapesOfItems items, s.regular ∧ s.lengths = lengths) →
    (entriesOfItems items).length = items.length * lengths.foldr (· * ·) 1
  | [], _, _ => (Nat.zero_mul _).symm
  | t :: rest, lengths, h => by
      obtain ⟨⟨hregular, hlengths⟩, hrest⟩ := List.forall_mem_cons.mp h
      rw [entriesOfItems, List.length_append, length_entries t hregular, hlengths,
        length_entriesOfItems rest lengths hrest, List.length_cons, Nat.succ_mul, Nat.add_comm]

end

end Samples

/-- Numbers in reading order, and how many there are on each level of the lists
they are nested in. -/
structure Grid where
  lengths : List Nat
  entries : List Float
  complete : entries.length = lengths.foldr (· * ·) 1

namespace Samples

/-- The grid of a regular table. -/
def grid (t : Samples) : Except SampleError Grid :=
  if h : t.shape.regular then .ok ⟨t.shape.lengths, t.entries, t.length_entries h⟩
  else .error (.ragged t.shape.lengths)

/-- The numbers of a regular table. -/
def flatten (t : Samples) : Except SampleError (List Float) := do return (← t.grid).entries

end Samples

/-! ### Rows -/

namespace Grid

/-- The grid of rows of one length. -/
def ofRows (columns : Nat) (rows : List (List Float)) (h : ∀ row ∈ rows, row.length = columns) :
    Grid where
  lengths := [rows.length, columns]
  entries := rows.flatten
  complete := by
    have hlengths : rows.map List.length = List.replicate rows.length columns := by
      rw [List.eq_replicate_iff]
      exact ⟨List.length_map _, by simpa using h⟩
    simp [List.length_flatten, hlengths]

/-- Cuts a list into `count` rows of the given length. -/
def chunks (columns : Nat) : Nat → List Float → List (List Float)
  | 0, _ => []
  | count + 1, vs => vs.take columns :: chunks columns count (vs.drop columns)

/-- The shape that a grid takes as rows: a single number is a list of one, and a
list is one column if there is only one, and else one row. -/
def rowShape (columns : Nat) : List Nat → List Nat
  | [] => [1, 1]
  | [n] => if columns = 1 then [n, 1] else [1, n]
  | lengths => lengths

/-- The rows of a grid with the given number of columns. -/
def rows (columns : Nat) (g : Grid) : Except SampleError (List (List Float)) :=
  match rowShape columns g.lengths with
  | [count, width] =>
    if width = columns then .ok (chunks columns count g.entries)
    else .error (.wrongShape columns [count, width])
  | shape => .error (.wrongShape columns shape)

theorem chunks_flatten {columns : Nat} {rows : List (List Float)}
    (h : ∀ row ∈ rows, row.length = columns) : chunks columns rows.length rows.flatten = rows := by
  induction rows with
  | nil => rfl
  | cons row rows ih =>
      obtain ⟨hrow, hrows⟩ := List.forall_mem_cons.mp h
      rw [List.length_cons, chunks, List.flatten_cons, List.take_left' hrow, List.drop_left' hrow,
        ih hrows]

/-- The rows of a grid of rows are these. -/
theorem rows_ofRows {columns : Nat} {rows : List (List Float)}
    (h : ∀ row ∈ rows, row.length = columns) : (ofRows columns rows h).rows columns = .ok rows := by
  simp only [Grid.rows, rowShape, ofRows, if_true, chunks_flatten h]

end Grid

end Formula
