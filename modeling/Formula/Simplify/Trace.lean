/-
Formula/Simplify/Trace.lean

What an optimizer run reports, as data.  A traced value is a value with the
events that led to it, in order; the value never depends on the events.
-/
import Formula.Expr.Printing

namespace Formula

universe u

/-- The rules of the optimizer. -/
inductive Rule
  | simplifyAddition | simplifySubtraction | simplifyMultiplication | simplifyDivision
  | simplifyExponentiation | simplifyRoot | simplifyLogarithm | simplifyNegation
  | simplifyNaturalLog
  | collapseAdditiveConstants | collapseMultiplicativeConstants
  | combineLogarithms | combineExponents | combineFractions
  deriving DecidableEq

/-- The name of a rule in reports. -/
def Rule.name : Rule → String
  | simplifyAddition => "simplify_addition"
  | simplifySubtraction => "simplify_subtraction"
  | simplifyMultiplication => "simplify_multiplication"
  | simplifyDivision => "simplify_division"
  | simplifyExponentiation => "simplify_exponentiation"
  | simplifyRoot => "simplify_root"
  | simplifyLogarithm => "simplify_logarithm"
  | simplifyNegation => "simplify_negation"
  | simplifyNaturalLog => "simplify_natural_log"
  | collapseAdditiveConstants => "collapse_additive_constants"
  | collapseMultiplicativeConstants => "collapse_multiplicative_constants"
  | combineLogarithms => "combine_logarithms"
  | combineExponents => "combine_exponents"
  | combineFractions => "combine_fractions"

/-- An event of an optimizer run. -/
inductive Event (α : Type u)
  | applied (rule : Rule) (before after : Expr α)
  /-- A whole tree was optimized; the numbers are its sizes. -/
  | optimized (before after : Nat)
  /-- The rules still applied after the last pass. -/
  | passLimit (reached : Expr α)

/-- What an event says. -/
def Event.message {α : Type u} [Numeral α] : Event α → String
  | applied rule before after => s!"{rule.name}: {before.text} -> {after.text}"
  | optimized before after => s!"Optimized tree: {before} -> {after} nodes"
  | passLimit reached => s!"Optimizer pass limit reached at {reached.text}"

/-- A value and the events that led to it. -/
structure Traced (ε : Type u) (β : Type u) where
  value : β
  trace : List ε

namespace Traced

variable {ε β γ : Type u}

instance : Monad (Traced ε) where
  pure v := ⟨v, []⟩
  bind x f := ⟨(f x.value).value, x.trace ++ (f x.value).trace⟩

/-- Reports an event. -/
def report (e : ε) : Traced ε PUnit := ⟨⟨⟩, [e]⟩

@[simp] theorem value_pure (v : β) : (pure v : Traced ε β).value = v := rfl

@[simp] theorem value_bind (x : Traced ε β) (f : β → Traced ε γ) :
    (x >>= f).value = (f x.value).value := rfl

@[simp] theorem trace_pure (v : β) : (pure v : Traced ε β).trace = [] := rfl

@[simp] theorem trace_bind (x : Traced ε β) (f : β → Traced ε γ) :
    (x >>= f).trace = x.trace ++ (f x.value).trace := rfl

end Traced

end Formula
