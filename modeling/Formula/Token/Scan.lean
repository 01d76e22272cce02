/-
Formula/Token/Scan.lean

From text to tokens in one pass.  White space separates tokens and is
dropped.  An identifier starts with a letter and goes on with letters, digits
of any kind, points and underscores; a number is a run of ASCII digits and
points outside identifiers, and may hold one point if it holds a digit.

The scan carries the token that is still open.  A character of another class
closes it, and closing a number is where a malformed one is found; so a
character that no token can hold is reported before the number it follows.
-/
import Formula.Token.Basic
import Formula.Text.Letter
import Formula.Text.Digit
import Formula.Text.Blank
import Formula.Text.Quoted

namespace Formula

namespace Scan

/-- Why a text has no tokens; positions count characters from zero. -/
inductive Fault
  | unrecognized (character : Char) (position : Nat)
  | manyPoints (lexeme : String) (position : Nat)
  | noDigits (position : Nat)
  deriving DecidableEq

/-- What a character can be at its place. -/
inductive CharClass
  | symbol (token : Token)
  | word
  | numeral
  | blank
  deriving DecidableEq

/-- The token that is still open, its characters in reverse. -/
inductive Pending
  | none
  | number (start : Nat) (reversed : List Char)
  | word (reversed : List Char)

/-- Whether the open token is an identifier or keyword. -/
def Pending.isWord : Pending → Bool
  | word _ => true
  | _ => false

/-- The characters that continue an identifier, letters apart. -/
def continuesWord (c : Char) : Bool := Text.isDigit c || c = '.' || c = '_'

/-- The class of a character, given whether an identifier is open. -/
def classify? (inWord : Bool) (c : Char) : Option CharClass :=
  match Token.ofSymbol? c with
  | some t => some (.symbol t)
  | none =>
    if Text.isLetter c then some .word
    else if inWord && continuesWord c then some .word
    else if c = '.' || c.isDigit then some .numeral
    else if Text.isBlank c then some .blank
    else none

/-- The token of a run of digits and points. -/
def numberToken (start : Nat) (cs : List Char) : Except Fault Token :=
  if 1 < cs.count '.' then .error (.manyPoints (String.ofList cs) start)
  else if cs = ['.'] then .error (.noDigits start)
  else .ok (.number (String.ofList cs))

/-- Closes the open token. -/
def Pending.close : Pending → Except Fault (List Token)
  | none => .ok []
  | number start cs => (fun t => [t]) <$> numberToken start cs.reverse
  | word cs => .ok [Token.ofWord (String.ofList cs.reverse)]

/-- The tokens of the characters from `position` on, the open token first. -/
def scanFrom (position : Nat) (pending : Pending) : List Char → Except Fault (List Token)
  | [] => pending.close
  | c :: rest =>
    match classify? pending.isWord c, pending with
    | none, _ => .error (.unrecognized c position)
    | some .word, .word cs => scanFrom (position + 1) (.word (c :: cs)) rest
    | some .numeral, .number start cs => scanFrom (position + 1) (.number start (c :: cs)) rest
    | some .word, p => do return (← p.close) ++ (← scanFrom (position + 1) (.word [c]) rest)
    | some .numeral, p => do
      return (← p.close) ++ (← scanFrom (position + 1) (.number position [c]) rest)
    | some (.symbol t), p => do
      return (← p.close) ++ t :: (← scanFrom (position + 1) .none rest)
    | some .blank, p => do return (← p.close) ++ (← scanFrom (position + 1) .none rest)

end Scan

/-- A text that has no tokens. -/
structure LexError where
  fault : Scan.Fault
  text : String

namespace LexError

/-- Where the fault was found: at the character, or where its number starts. -/
def position (e : LexError) : Nat :=
  match e.fault with
  | .unrecognized _ p | .manyPoints _ p | .noDigits p => p

/-- The character that no token can hold, if that is the fault. -/
def character? (e : LexError) : Option Char :=
  match e.fault with
  | .unrecognized c _ => some c
  | _ => none

def message (e : LexError) : String :=
  let cause := match e.fault with
    | .unrecognized c p => s!"Unrecognized character {Text.quoted c.toString} at position {p}"
    | .manyPoints s _ => s!"Malformed number {Text.quoted s}: more than one decimal point"
    | .noDigits _ => "Malformed number '.': no digits"
  s!"{cause} (in {Text.quoted e.text})"

end LexError

/-- The tokens of a text. -/
def tokenize (text : String) : Except LexError (List Token) :=
  (Scan.scanFrom 0 .none text.toList).mapError (⟨·, text⟩)

end Formula
