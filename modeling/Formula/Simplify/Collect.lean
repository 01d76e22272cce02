/-
Formula/Simplify/Collect.lean

The chain rules.  Each finds two terms of a chain that can be one, changes the
one that stays and takes the other out; one call merges one pair.

* Constants: the first one is added to the last one, or multiplied into it.
  In a product a pinned constant has to stay, so the last of these stays if
  there is one.
* Logarithms to the same base: the later one joins the earlier one.
* Powers of the same base: a factor joins the first explicit power or root of
  its base.  A bare factor counts as a first power, and can join but not be
  joined.
-/
import Formula.Simplify.Move

namespace Formula

universe u

variable {α : Type u} [Arithmetic α]

open Arithmetic

/-! ### Constants -/

/-- A constant term. -/
structure ConstantTerm (α : Type u) where
  value : α
  flipped : Bool
  pinned : Bool
  path : Path

namespace ConstantTerm

/-- A term that is a constant. -/
def ofTerm? (t : ChainTerm α) : Option (ConstantTerm α) :=
  match t.expr with
  | .const v => some ⟨v, t.flipped, t.pinned, t.path⟩
  | _ => none

/-- What a constant adds to a sum. -/
def signed (c : ConstantTerm α) : α :=
  if c.flipped then Arithmetic.unary .neg c.value else c.value

/-- What a constant contributes to a product. -/
def scaled (c : ConstantTerm α) : α :=
  if c.flipped then Arithmetic.binary .div one c.value else c.value

/-- The constant of a product that stays: the last pinned one, or else the last
one. -/
def survivor? (consts : List (ConstantTerm α)) : Option (ConstantTerm α) :=
  match (consts.filter (·.pinned)).getLast? with
  | some c => some c
  | none => consts.getLast?

end ConstantTerm

namespace Expr

/-- The constants among the terms of a chain. -/
def constantTerms (kind : ChainKind) (e : Expr α) : List (ConstantTerm α) :=
  (e.terms kind).filterMap ConstantTerm.ofTerm?

/-- Adds the first constant of a sum to the last one. -/
def collapseAdditive (e : Expr α) : Option (Move α) :=
  match e.constantTerms .additive with
  | first :: second :: rest =>
    let last := (second :: rest).getLast (by simp)
    let total := Arithmetic.binary .add first.signed last.signed
    let value := if last.flipped then Arithmetic.unary .neg total else total
    some (.collapse .additive last.path value first.path)
  | _ => none

/-- Multiplies the first constant that can be taken out of a product into the
one that stays. -/
def collapseMultiplicative (e : Expr α) : Option (Move α) := do
  let consts := e.constantTerms .multiplicative
  let last ← ConstantTerm.survivor? consts
  let first ← consts.find? fun c => !c.pinned && c.path != last.path
  let product := Arithmetic.binary .mul first.scaled last.scaled
  let value := if last.flipped then Arithmetic.binary .div one product else product
  return .collapse .multiplicative last.path value first.path

end Expr

/-! ### Entries -/

/-- A term that others with its base can join. -/
structure Entry (α : Type u) where
  base : Expr α
  term : ChainTerm α

/-- The first entry whose base is alike. -/
def Entry.lookup? (ε : α) (base : Expr α) (entries : List (Entry α)) : Option (Entry α) :=
  entries.find? fun e => e.base.equals ε base

/-! ### Logarithms -/

namespace Expr

/-- The base of a logarithm. -/
def logBase? : Expr α → Option (Expr α)
  | unary op _ => if op = .ln then some (.const euler) else none
  | binary op l _ => if op = .log then some l else none
  | _ => none

/-- The slot in which a logarithm has its argument. -/
def argumentSlot : Expr α → Slot
  | unary _ _ => .operand
  | _ => .right

end Expr

/-- The first logarithm that has an earlier one to the same base, with that
one. -/
def logPair? (ε : α) : List (Entry α) → List (ChainTerm α) → Option (Entry α × ChainTerm α)
  | _, [] => none
  | entries, t :: rest =>
    match t.expr.logBase? with
    | none => logPair? ε entries rest
    | some base =>
      match Entry.lookup? ε base entries with
      | some e => some (e, t)
      | none => logPair? ε (entries ++ [⟨base, t⟩]) rest

/-- Merges two logarithms to the same base. -/
def Expr.combineLogarithms (s : Settings α) (e : Expr α) : Option (Move α) := do
  let (entry, t) ← logPair? s.epsilon [] (e.terms .additive)
  let op := if entry.term.flipped = t.flipped then .mul else .div
  return .joinLogarithms op entry.term.path entry.term.expr.argumentSlot
    (t.path ++ [t.expr.argumentSlot]) t.path

/-! ### Powers -/

namespace Expr

/-- The base of a power or root. -/
def powerBase? : Expr α → Option (Expr α)
  | binary op l r =>
    if op = .pow then some l
    else if op = .root then some r
    else none
  | _ => none

end Expr

/-- The exponent that a factor has as a power of its base. -/
def Expr.exponent (factor : Expr α) : Sketch α :=
  if factor.hasOp .pow then .part [.right]
  else if factor.hasOp .root then .binary .div (.const one) (.part [.left])
  else .const one

/-- Enters a power or root if it is the first one of its base. -/
def addPower (ε : α) (entries : List (Entry α)) (t : ChainTerm α) : List (Entry α) :=
  match t.expr.powerBase? with
  | none => entries
  | some base =>
    if (Entry.lookup? ε base entries).isSome then entries else entries ++ [⟨base, t⟩]

/-- The first power or root of each base. -/
def powerEntries (ε : α) (terms : List (ChainTerm α)) : List (Entry α) :=
  terms.foldl (addPower ε) []

/-- The entry that a factor can join: one other than itself, with its base. -/
def entryFor? (ε : α) (entries : List (Entry α)) (t : ChainTerm α) : Option (Entry α) :=
  if t.pinned then none
  else Entry.lookup? ε (t.expr.powerBase?.getD t.expr)
    (entries.filter (·.term.path != t.path))

/-- The first factor that can join an entry, with that entry. -/
def powerPair? (ε : α) (entries : List (Entry α)) (terms : List (ChainTerm α)) :
    Option (Entry α × ChainTerm α) :=
  terms.findSome? fun t => (entryFor? ε entries t).map (·, t)

/-- Merges two factors with the same base. -/
def Expr.combineExponents (s : Settings α) (e : Expr α) : Option (Move α) := do
  let terms := e.terms .multiplicative
  let (entry, t) ← powerPair? s.epsilon (powerEntries s.epsilon terms) terms
  let op := if entry.term.flipped = t.flipped then .add else .sub
  return .joinPowers op entry.term.path (entry.term.expr.hasOp .root) t.expr.exponent t.path

end Formula
