/-
Formula/Datum.lean

Untyped data, as configuration fields and variable names are given before they
have been checked, and how messages show them.
-/
import Formula.Decimal.Layout
import Formula.Text.Quoted

namespace Formula

/-- A value of unknown type. -/
inductive Datum
  | null
  | bool (b : Bool)
  | integer (i : Int)
  | number (v : Float)
  | text (s : String)
  | list (items : List Datum)
  | record (fields : List (String × Datum))

namespace Datum

mutual

/-- A value as messages show it. -/
def shown : Datum → String
  | null => "None"
  | bool b => if b then "True" else "False"
  | integer i => toString i
  | number v => Decimal.fullText v
  | text s => Text.quoted s
  | list items => Text.bracketed (shownItems items)
  | record fields => "\x7b" ++ ", ".intercalate (shownFields fields) ++ "\x7d"

def shownItems : List Datum → List String
  | [] => []
  | d :: rest => d.shown :: shownItems rest

def shownFields : List (String × Datum) → List String
  | [] => []
  | (key, d) :: rest => (Text.quoted key ++ ": " ++ d.shown) :: shownFields rest

end

end Datum

end Formula
