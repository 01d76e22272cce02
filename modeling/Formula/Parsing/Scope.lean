/-
Formula/Parsing/Scope.lean

From tokens to an expression.  Tokens are taken one by one into the innermost
open parenthesis level; a closing parenthesis resolves the level and hands its
expression to the level around it.

Side by side, values are multiplied: where a number, an identifier or an
opening parenthesis follows a number, an identifier or a closing parenthesis,
a multiplication is put in between.  Two numbers may not stand side by side.
A minus is a subtraction right behind a value and a negation elsewhere.
-/
import Formula.Numeral
import Formula.Parsing.Segment
import Formula.Token.Basic

namespace Formula

universe u

/-- What the last token of a level has completed: a value of one of three
kinds, or no value. -/
inductive Ended
  | nothing | number | name | group
  deriving DecidableEq

/-- An open parenthesis level: its segments in reverse, and how it ends. -/
structure Scope (α : Type u) where
  reversed : List (Segment α)
  ended : Ended

namespace Scope

variable {α : Type u}

/-- The level before its first token. -/
def start : Scope α := ⟨[], .nothing⟩

/-- Puts a multiplication behind a value. -/
def juxtapose (s : Scope α) : Scope α :=
  match s.ended with
  | .nothing => s
  | _ => ⟨.binary .mul :: s.reversed, .nothing⟩

/-- Adds a value. -/
def value (s : Scope α) (e : Expr α) (ended : Ended) : Scope α :=
  ⟨.operand e :: s.juxtapose.reversed, ended⟩

/-- Adds an operator. -/
def operator (s : Scope α) (segment : Segment α) : Scope α :=
  ⟨segment :: s.reversed, .nothing⟩

/-- A minus is a subtraction right behind a value, and else a negation. -/
def minus (s : Scope α) : Scope α :=
  s.operator (match s.ended with
    | .nothing => .unary .neg
    | _ => .binary .sub)

/-- The expression of a finished level; `ifEmpty` is what is wrong with an
empty one. -/
def finish (s : Scope α) (ifEmpty : ParseError) : Except ParseError (Expr α) :=
  match s.reversed with
  | [] => .error ifEmpty
  | reversed => Segment.resolve reversed.reverse

end Scope

/-- The innermost open level and the levels around it. -/
structure ParseState (α : Type u) where
  scope : Scope α
  outer : List (Scope α)

namespace ParseState

variable {α : Type u} [Numeral α]

/-- Before the first token. -/
def start : ParseState α := ⟨.start, []⟩

/-- Takes one token; `known` tells the names of variables. -/
def step (known : String → Bool) (s : ParseState α) (t : Token) :
    Except ParseError (ParseState α) :=
  match t.role with
  | .number text =>
    if s.scope.ended = .number then .error (.consecutiveNumbers text)
    else match Numeral.ofText? text with
      | some v => .ok { s with scope := s.scope.value (.const v) .number }
      | none => .error (.notANumber text)
  | .name x =>
    if known x then .ok { s with scope := s.scope.value (.var x) .name }
    else .error (.unrecognizedVariable x)
  | .opening => .ok ⟨.start, s.scope.juxtapose :: s.outer⟩
  | .closing =>
    match s.outer with
    | [] => .error .unmatchedClosing
    | around :: outer => do
      let e ← s.scope.finish .emptyGroup
      return ⟨⟨.operand e :: around.reversed, .group⟩, outer⟩
  | .minus => .ok { s with scope := s.scope.minus }
  | .binary op => .ok { s with scope := s.scope.operator (.binary op) }
  | .function op => .ok { s with scope := s.scope.operator (.unary op) }

/-- The expression behind the last token. -/
def finish (s : ParseState α) : Except ParseError (Expr α) :=
  match s.outer with
  | [] => s.scope.finish .emptyExpression
  | _ :: _ => .error .missingClosing

end ParseState

/-- The expression that a list of tokens stands for. -/
def parse {α : Type u} [Numeral α] (known : String → Bool) (tokens : List Token) :
    Except ParseError (Expr α) := do
  (← tokens.foldlM (ParseState.step known) .start).finish

/-- Every identifier is a variable. -/
def anyName : String → Bool := fun _ => true

end Formula
