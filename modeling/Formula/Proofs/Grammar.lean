/-
Formula/Proofs/Grammar.lean

The grammar of expressions, as rules that say which tokens stand for which
tree.  There is a category for every binding class, loosest first; every
binary class associates to the left:

    extremum        ::=  extremum (max | min) additive  |  additive
    additive        ::=  additive (+ | -) multiplicative  |  multiplicative
    multiplicative  ::=  multiplicative (* | /) power
                      |  multiplicative power      (side by side)
                      |  power
    power           ::=  power (^ | r | log) unary  |  unary
    unary           ::=  (- | cos | sin | …) unary  |  leaf
    leaf            ::=  NUMBER  |  IDENTIFIER  |  ( extremum )

Two operands stand side by side if the first one ends in a value and the
second one starts with one, and not both with a number.  So a minus behind a
value is never a negation: no operand that follows another one directly starts
with a minus.  And a minus elsewhere is never a subtraction: every operand
ends in a value (`Derives.endsValue`).

`RowDerives` is the same grammar on a row of segments, where the leaves are
finished operands and the multiplications between neighbours are written out.
-/
import Formula.Parsing.Scope

namespace Formula

universe u

/-- The class that binds just tighter; the tightest category is that of the
leaves. -/
def Precedence.tighter : Precedence → Precedence
  | .extremum => .additive
  | .additive => .multiplicative
  | .multiplicative => .power
  | .power => .unary
  | .unary | .leaf => .leaf

namespace Token

/-- What a token completes as the last one of a level. -/
def ended : Token → Ended
  | number _ => .number
  | identifier _ => .name
  | closeParen => .group
  | _ => .nothing

/-- Whether a value starts with the token. -/
def startsValue : Token → Bool
  | number _ | identifier _ | openParen => true
  | _ => false

/-- Whether the token is a number. -/
def isNumber : Token → Bool
  | number _ => true
  | _ => false

end Token

/-- What the last token of a level has completed. -/
def endOf (tokens : List Token) : Ended := (tokens.getLast?.map Token.ended).getD .nothing

/-- Two operands may stand side by side: the last token of the first one ends
a value, the first token of the second one starts a value, and they are not
both numbers. -/
def SideBySide (left right : List Token) : Prop :=
  endOf left ≠ .nothing ∧
    ∃ t ∈ right.head?, t.startsValue ∧ ¬(endOf left = .number ∧ t.isNumber)

variable {α : Type u}

/-- `Derives known level tokens e`: the tokens are a phrase of the category
`level`, and `e` is its tree.  `known` tells the names of variables. -/
inductive Derives [Numeral α] (known : String → Bool) : Precedence → List Token → Expr α → Prop
  | number {s : String} {v : α} : Numeral.ofText? s = some v →
      Derives known .leaf [.number s] (.const v)
  | name {x : String} : known x → Derives known .leaf [.identifier x] (.var x)
  | group {ts : List Token} {e : Expr α} : Derives known .extremum ts e →
      Derives known .leaf (.openParen :: (ts ++ [.closeParen])) e
  | function {t : Token} {op : UnaryOp} {ts : List Token} {e : Expr α} : t.role = .function op →
      Derives known .unary ts e → Derives known .unary (t :: ts) (.unary op e)
  | negation {ts : List Token} {e : Expr α} :
      Derives known .unary ts e → Derives known .unary (.minus :: ts) (.unary .neg e)
  | binary {t : Token} {op : BinaryOp} {l r : List Token} {a b : Expr α} : t.role = .binary op →
      Derives known op.precedence l a → Derives known op.precedence.tighter r b →
      Derives known op.precedence (l ++ t :: r) (.binary op a b)
  | subtraction {l r : List Token} {a b : Expr α} :
      Derives known .additive l a → Derives known .multiplicative r b →
      Derives known .additive (l ++ .minus :: r) (.binary .sub a b)
  | juxtaposition {l r : List Token} {a b : Expr α} : SideBySide l r →
      Derives known .multiplicative l a → Derives known .power r b →
      Derives known .multiplicative (l ++ r) (.binary .mul a b)
  | tighter {level : Precedence} {ts : List Token} {e : Expr α} :
      Derives known level.tighter ts e → Derives known level ts e

/-- The grammar on the row of segments of one level. -/
inductive RowDerives : Precedence → List (Segment α) → Expr α → Prop
  | operand (e : Expr α) : RowDerives .leaf [.operand e] e
  | unary {op : UnaryOp} {row : List (Segment α)} {e : Expr α} :
      RowDerives .unary row e → RowDerives .unary (.unary op :: row) (.unary op e)
  | binary {op : BinaryOp} {l r : List (Segment α)} {a b : Expr α} :
      RowDerives op.precedence l a → RowDerives op.precedence.tighter r b →
      RowDerives op.precedence (l ++ .binary op :: r) (.binary op a b)
  | tighter {level : Precedence} {row : List (Segment α)} {e : Expr α} :
      RowDerives level.tighter row e → RowDerives level row e

/-! ### What phrases end in -/

@[simp] theorem endOf_nil : endOf [] = .nothing := rfl

@[simp] theorem endOf_concat (ts : List Token) (t : Token) : endOf (ts ++ [t]) = t.ended := by
  simp [endOf]

@[simp] theorem endOf_singleton (t : Token) : endOf [t] = t.ended := rfl

/-- The end of a row of tokens is that of its last part. -/
theorem endOf_append (l : List Token) {r : List Token} (h : r ≠ []) :
    endOf (l ++ r) = endOf r := by
  simp [endOf, List.getLast?_append, List.getLast?_eq_some_getLast h]

theorem endOf_cons (t : Token) {ts : List Token} (h : ts ≠ []) : endOf (t :: ts) = endOf ts :=
  endOf_append [t] h

theorem Derives.ne_nil [Numeral α] {known : String → Bool} {level : Precedence}
    {ts : List Token} {e : Expr α} (h : Derives known level ts e) : ts ≠ [] := by
  induction h with
  | juxtaposition _ _ _ ih _ => simp [ih]
  | tighter _ ih => exact ih
  | _ => simp

/-- Every phrase ends in a value. -/
theorem Derives.endsValue [Numeral α] {known : String → Bool} {level : Precedence}
    {ts : List Token} {e : Expr α} (h : Derives known level ts e) : endOf ts ≠ .nothing := by
  induction h with
  | number => simp [Token.ended]
  | name => simp [Token.ended]
  | @group ts _ _ _ =>
      rw [← List.cons_append, endOf_concat]
      simp [Token.ended]
  | function _ h ih => rwa [endOf_cons _ h.ne_nil]
  | negation h ih => rwa [endOf_cons _ h.ne_nil]
  | @binary t _ l r _ _ _ _ h _ ih =>
      rwa [List.append_cons, endOf_append _ h.ne_nil]
  | @subtraction l r _ _ _ h _ ih => rwa [List.append_cons, endOf_append _ h.ne_nil]
  | juxtaposition _ _ h _ ih => rwa [endOf_append _ h.ne_nil]
  | tighter _ ih => exact ih

/-- The class of an operator may be known under its name. -/
theorem RowDerives.binary_of {op : BinaryOp} {level : Precedence} {l r : List (Segment α)}
    {a b : Expr α} (h : op.precedence = level) (hl : RowDerives level l a)
    (hr : RowDerives level.tighter r b) : RowDerives level (l ++ .binary op :: r) (.binary op a b) := by
  subst h
  exact .binary hl hr

theorem RowDerives.ne_nil {level : Precedence} {row : List (Segment α)} {e : Expr α}
    (h : RowDerives level row e) : row ≠ [] := by
  induction h with
  | tighter _ ih => exact ih
  | _ => simp

end Formula
