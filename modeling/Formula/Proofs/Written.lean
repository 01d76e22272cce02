/-
Formula/Proofs/Written.lean

The written form of an expression as tokens.  Behind every name, number and word
of it there is a space or a parenthesis, or nothing.  So the scan finds the tokens
of an expression by its structure (`Expr.lexes_text`), and these are a phrase of
the grammar with the expression for its tree (`Expr.derives_tokens`).  Since the
parser finds the one tree of every phrase, it reads the expression back
(`Expr.parse_tokenize_text`).

Every binary operator is a group, so all that has to be said of classes is that an
operand binds as tightly as a unary operator.  A minus in front of an operand is a
negation, because it does not stand behind a value.
-/
import Formula.Expr.Printing
import Formula.Proofs.Decimal.ConstantText
import Formula.Proofs.Lexing
import Formula.Proofs.Parser

namespace Formula

universe u

/-! ### The tokens of an expression -/

/-- The token that a binary operator is written as. -/
def BinaryOp.token : BinaryOp → Token
  | add => .plus
  | sub => .minus
  | mul => .times
  | div => .divide
  | pow => .power
  | root => .root
  | log => .log
  | max => .max
  | min => .min

/-- The token that a unary operator is written as. -/
def UnaryOp.token : UnaryOp → Token
  | neg => .minus
  | cos => .cos
  | sin => .sin
  | tan => .tan
  | ln => .ln
  | round => .round
  | ceil => .ceil
  | floor => .floor

theorem BinaryOp.tokenize_symbol (op : BinaryOp) : tokenize op.symbol = .ok [op.token] := by
  cases op <;> rfl

theorem UnaryOp.tokenize_symbol {op : UnaryOp} (h : op ≠ .neg) : tokenize op.symbol = .ok [op.token] := by
  cases op <;> first | exact absurd rfl h | rfl

theorem BinaryOp.role_token {op : BinaryOp} (h : op ≠ .sub) : op.token.role = .binary op := by
  cases op <;> first | exact absurd rfl h | rfl

theorem UnaryOp.role_token {op : UnaryOp} (h : op ≠ .neg) : op.token.role = .function op := by
  cases op <;> first | exact absurd rfl h | rfl

namespace Expr

variable {α : Type u} [Numeral α] {known : String → Bool} {good : α → Prop} {e : Expr α}

/-- The tokens that an expression is written as. -/
def tokens : Expr α → List Token
  | hole => []
  | const v => [.number (Numeral.text v)]
  | var x => [.identifier x]
  | unary op x =>
    if op = .neg then .minus :: x.tokens
    else if x.isBracketed then op.token :: x.tokens
    else op.token :: .openParen :: (x.tokens ++ [.closeParen])
  | binary op l r => .openParen :: (l.tokens ++ op.token :: r.tokens ++ [.closeParen])

/-- Expressions that are built by operators from constants of a kind and from
variables with names. -/
inductive IsBuilt (good : α → Prop) : Expr α → Prop
  | const {v : α} : good v → IsBuilt good (const v)
  | var {x : String} : Scan.IsName x → IsBuilt good (var x)
  | unary {op : UnaryOp} {x : Expr α} : IsBuilt good x → IsBuilt good (unary op x)
  | binary {op : BinaryOp} {l r : Expr α} : IsBuilt good l → IsBuilt good r →
      IsBuilt good (binary op l r)

open Scan

omit [Numeral α] in
theorem isBracketed_iff : e.isBracketed = true ↔ ∃ op l r, e = binary op l r := by
  cases e <;> simp [isBracketed]

/-- The written form of an expression is scanned to its tokens. -/
theorem lexes_text (he : e.IsBuilt good)
    (hgood : ∀ v, good v → Lexes (Numeral.text v).toList [.number (Numeral.text v)]) :
    Lexes e.text.toList e.tokens := by
  induction he with
  | const hv => exact hgood _ hv
  | var hx => exact lexes_name hx
  | @unary op x _ ih =>
      simp only [text, tokens]
      split_ifs with hneg hbracketed
      · rw [String.toList_append]
        exact Lexes.symbol (c := '-') rfl ih
      · have hends : EndsToken x.text.toList := by
          obtain ⟨op, l, r, rfl⟩ := isBracketed_iff.mp hbracketed
          simp only [text, String.toList_append, List.append_assoc]
          exact endsToken_openParen _
        rw [String.toList_append]
        exact (Lexes.of_tokenize (op.tokenize_symbol hneg)).append hends ih
      · simp only [String.toList_append, List.append_assoc]
        exact (Lexes.of_tokenize (op.tokenize_symbol hneg)).append (endsToken_openParen _)
          (.symbol rfl (ih.append (endsToken_closeParen []) (.symbol rfl .nil)))
  | @binary op l r _ _ ihl ihr =>
      simp only [text, tokens, String.toList_append, List.append_assoc]
      refine .symbol rfl (ihl.append (endsToken_space _) (.blank classify?_space ?_))
      refine (Lexes.of_tokenize op.tokenize_symbol).append (endsToken_space _) (.blank classify?_space ?_)
      exact ihr.append (endsToken_closeParen []) (.symbol rfl .nil)

/-- An operand stands in every class. -/
theorem derives_of_unary {level : Precedence} {ts : List Token} (h : Derives known .unary ts e)
    (hlevel : level ≠ .leaf) : Derives known level ts e := by
  cases level with
  | leaf => exact absurd rfl hlevel
  | unary => exact h
  | power => exact .tighter h
  | multiplicative => exact .tighter (.tighter h)
  | additive => exact .tighter (.tighter (.tighter h))
  | extremum => exact .tighter (.tighter (.tighter (.tighter h)))

/-- What is derived in the class of an operator is derived in the loosest one. -/
theorem derives_of_precedence {op : BinaryOp} {ts : List Token} (h : Derives known op.precedence ts e) :
    Derives known .extremum ts e := by
  cases op with
  | max | min => exact h
  | add | sub => exact .tighter h
  | mul | div => exact .tighter (.tighter h)
  | pow | root | log => exact .tighter (.tighter (.tighter h))

/-- An operator between two operands. -/
theorem derives_between (op : BinaryOp) {l r : Expr α} {ts us : List Token}
    (hl : Derives known .unary ts l) (hr : Derives known .unary us r) :
    Derives known .extremum (ts ++ op.token :: us) (binary op l r) := by
  have hleft : Derives known op.precedence ts l := derives_of_unary hl (by cases op <;> nofun)
  have hright : Derives known op.precedence.tighter us r :=
    derives_of_unary hr (by cases op <;> nofun)
  have hphrase : Derives known op.precedence (ts ++ op.token :: us) (binary op l r) := by
    by_cases hsub : op = .sub
    · subst hsub
      exact .subtraction hleft hright
    · exact .binary (op.role_token hsub) hleft hright
  exact derives_of_precedence hphrase

/-- The tokens of an expression are a phrase with the expression for its tree. -/
theorem derives_tokens (he : e.IsBuilt good)
    (hgood : ∀ v, good v → Numeral.ofText? (Numeral.text v) = some v) :
    Derives anyName .unary e.tokens e := by
  induction he with
  | const hv => exact .tighter (.number (hgood _ hv))
  | var hx => exact .tighter (.name rfl)
  | @unary op x _ ih =>
      simp only [tokens]
      split_ifs with hneg hbracketed
      · subst hneg
        exact .negation ih
      · exact .function (op.role_token hneg) ih
      · exact .function (op.role_token hneg) (.tighter (.group (derives_of_unary ih nofun)))
  | @binary op l r _ _ ihl ihr =>
      exact .tighter (.group (derives_between op ihl ihr))

/-! ### Reading it back -/

/-- Constants that are written without an exponent, and whose text in full reads back. -/
def IsReadable (v : Float) : Prop :=
  Decimal.IsPlain v ∧ Decimal.ofText? (Decimal.fullText v) = some v

/-- **The written form of an expression is read as the expression.**  The names of
its variables are names of the language, and its constants are zero or positive and
finite and written without an exponent; that a float is read from its text in full
is assumed of these constants, not proved. -/
theorem parse_tokenize_text {e : Expr Float} (he : e.IsBuilt IsReadable) :
    tokenize e.text = .ok e.tokens ∧ parse anyName e.tokens = .ok e := by
  have hlexes : Lexes e.text.toList e.tokens :=
    lexes_text he fun v hv => lexes_numeral (Decimal.isNumeral_constantText hv.1)
  have hderives : Derives anyName .unary e.tokens e :=
    derives_tokens he fun v hv => Decimal.ofText?_constantText hv.1 hv.2
  exact ⟨hlexes.tokenize_eq, parse_eq_ok_iff.mpr (derives_of_unary hderives nofun)⟩

/-- A root of a negated function of a difference, with an integer and a fraction for
its constants. -/
def negatedSine : Expr Float :=
  binary .root (const 3) (unary .neg (unary .sin (binary .sub (var "x1") (const 2.5))))

theorem parse_tokenize_text_negatedSine :
    negatedSine.text = "(3 r -sin(x1 - 2.5))" ∧
      tokenize "(3 r -sin(x1 - 2.5))" = .ok negatedSine.tokens ∧
      parse anyName negatedSine.tokens = .ok negatedSine := by
  have hthree : IsReadable 3 := ⟨⟨⟨_, rfl, .inr ⟨_, rfl⟩⟩, by decide +kernel⟩, by decide +kernel⟩
  have hfraction : IsReadable 2.5 := ⟨⟨⟨_, rfl, .inr ⟨_, rfl⟩⟩, by decide +kernel⟩, by decide +kernel⟩
  have hname : IsName "x1" :=
    ⟨⟨'x', ['1'], rfl, by decide, List.forall_mem_singleton.mpr (by decide)⟩, by decide⟩
  have hbuilt : negatedSine.IsBuilt IsReadable :=
    .binary (.const hthree) (.unary (.unary (.binary (.var hname) (.const hfraction))))
  have htext : negatedSine.text = "(3 r -sin(x1 - 2.5))" := by decide +kernel
  rw [← htext]
  exact ⟨rfl, parse_tokenize_text hbuilt⟩

end Expr

end Formula
