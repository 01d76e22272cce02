/-
Formula/Proofs/Separation.lean

White space cuts a text into texts that are scanned on their own.

The scan knows three things at a place of a text: its position, the token that is
open and where this one starts.  A text that stands further to the right is
scanned to the same tokens, and its fault is found as far to the right
(`Scan.scanFrom_shift`).  A blank closes the open token just as the end of a text
does, and leaves none open (`Scan.scanFrom_append_blank`).  So the tokens of two
texts with a blank in between are those of the first and then those of the second,
and it makes no difference whether the first text ends in a number, a name or a
keyword (`tokenize_append_blank`).

The text of a token is scanned to this token alone.  So a list of tokens that came
from a text comes from their texts again, one space between any two.
-/
import Formula.Proofs.LexicalGrammar

namespace Formula

namespace Scan

/-! ### A text that stands further to the right -/

/-- The fault of the same text, `k` characters further to the right. -/
def Fault.shift (k : Nat) : Fault → Fault
  | unrecognized c position => .unrecognized c (position + k)
  | manyPoints lexeme position => .manyPoints lexeme (position + k)
  | noDigits position => .noDigits (position + k)

/-- The same open token, `k` characters further to the right. -/
def Pending.shift (k : Nat) : Pending → Pending
  | none => .none
  | number start reversed => .number (start + k) reversed
  | word reversed => .word reversed

@[simp] theorem Pending.isWord_shift (k : Nat) (p : Pending) : (p.shift k).isWord = p.isWord := by
  cases p <;> rfl

theorem Pending.extend?_shift (k : Nat) (p : Pending) (c : Char) (kind : CharClass) :
    (p.shift k).extend? c kind = (p.extend? c kind).map (Pending.shift k) := by
  cases p <;> cases kind <;> rfl

theorem Pending.close_shift (k : Nat) (p : Pending) :
    (p.shift k).close = p.close.mapError (Fault.shift k) := by
  cases p with
  | none | word => rfl
  | number start reversed =>
      simp only [Pending.shift, Pending.close, numberToken]
      split_ifs <;> rfl

theorem CharClass.opens_shift (k position : Nat) (c : Char) (kind : CharClass) :
    kind.opens (position + k) c =
      ((kind.opens position c).1, (kind.opens position c).2.shift k) := by
  cases kind <;> rfl

/-- What is scanned does not depend on the place, and the place of a fault only on
how far the text stands to the right. -/
theorem scanFrom_shift (k position : Nat) (p : Pending) (cs : List Char) :
    scanFrom (position + k) (p.shift k) cs =
      (scanFrom position p cs).mapError (Fault.shift k) := by
  induction cs generalizing position p with
  | nil => exact p.close_shift k
  | cons c cs ih =>
      have hplace : position + k + 1 = position + 1 + k := Nat.add_right_comm position k 1
      rw [scanFrom_cons, scanFrom_cons, p.isWord_shift]
      cases classify? p.isWord c with
      | none => rfl
      | some kind =>
          simp only [p.extend?_shift]
          cases p.extend? c kind with
          | some p' =>
              simp only [Option.map_some, hplace]
              exact ih (position + 1) p'
          | none =>
              simp only [Option.map_none, hplace, kind.opens_shift, ih, p.close_shift, mapError_bind]
              rfl

/-! ### The scan at a blank -/

/-- A blank closes the open token as the end of a text does, and leaves none open. -/
theorem scanFrom_append_blank {w : Char} (hw : Text.isBlank w) (position : Nat) (p : Pending)
    (cs rest : List Char) :
    scanFrom position p (cs ++ w :: rest) = (do
      let ts ← scanFrom position p cs
      let us ← scanFrom (position + cs.length + 1) .none rest
      return ts ++ us) := by
  induction cs generalizing position p with
  | nil =>
      have hextend : p.extend? w .blank = none := by cases p <;> rfl
      rw [List.nil_append, scanFrom_cons, classify?_of_isBlank hw]
      simp only [hextend]
      rfl
  | cons c cs ih =>
      have hplace : position + (c :: cs).length + 1 = position + 1 + cs.length + 1 := by
        rw [List.length_cons]
        omega
      rw [List.cons_append, scanFrom_cons, scanFrom_cons, hplace]
      cases classify? p.isWord c with
      | none => rfl
      | some kind =>
          cases hextend : p.extend? c kind with
          | some p' =>
              simp only [hextend]
              exact ih (position + 1) p'
          | none => simp only [hextend, ih, bind_assoc, pure_bind, List.append_assoc]

/-! ### The text of a token -/

/-- The text of a token is scanned to this token alone. -/
theorem Munches.lexes_text {cs : List Char} {ts : List Token} (h : Munches cs ts) :
    ∀ t ∈ ts, Lexes t.text.toList [t] := by
  induction h with
  | nil => nofun
  | blank _ _ ih => exact ih
  | symbol hc _ ih =>
      have hall : ∀ s ∈ Token.symbols, s.2.text.toList = [s.1] := by decide
      refine List.forall_mem_cons.mpr ⟨?_, ih⟩
      rw [hall _ hc]
      exact .symbol (ofSymbol?_eq_some_iff.mpr hc) .nil
  | keyword ht _ _ ih =>
      refine List.forall_mem_cons.mpr ⟨?_, ih⟩
      rw [← List.append_nil (Token.text _).toList]
      exact (Munches.keyword ht (stops_nil _) .nil).lexes
  | identifier hx _ _ ih => exact List.forall_mem_cons.mpr ⟨lexes_name hx, ih⟩
  | number hchars hpoint hdigit _ _ ih =>
      exact List.forall_mem_cons.mpr ⟨lexes_numeral (isNumeral_iff.mpr ⟨hchars, hpoint, hdigit⟩), ih⟩

end Scan

/-! ### Texts with a blank in between -/

theorem Scan.Fault.position_shift (k : Nat) (fault : Fault) (text text' : String) :
    LexError.position ⟨fault.shift k, text⟩ = LexError.position ⟨fault, text'⟩ + k := by
  cases fault <;> rfl

theorem Scan.Fault.character?_shift (k : Nat) (fault : Fault) (text text' : String) :
    LexError.character? ⟨fault.shift k, text⟩ = LexError.character? ⟨fault, text'⟩ := by
  cases fault <;> rfl

/-- A text is scanned at a blank as its two parts are. -/
theorem scanFrom_push_append {w : Char} (hw : Text.isBlank w) (a b : String) :
    Scan.scanFrom 0 .none (a.push w ++ b).toList = (do
      let us ← Scan.scanFrom 0 .none a.toList
      let vs ← (Scan.scanFrom 0 .none b.toList).mapError (Scan.Fault.shift (a.length + 1))
      return us ++ vs) := by
  have hcut : (a.push w ++ b).toList = a.toList ++ w :: b.toList := by simp
  have hshift := Scan.scanFrom_shift (a.length + 1) 0 .none b.toList
  rw [show Scan.Pending.none.shift (a.length + 1) = .none from rfl] at hshift
  rw [hcut, Scan.scanFrom_append_blank hw, ← hshift, String.length_toList, Nat.zero_add, Nat.zero_add]

theorem tokenize_eq_error_iff {text : String} {err : LexError} :
    tokenize text = .error err ↔
      err.text = text ∧ Scan.scanFrom 0 .none text.toList = .error err.fault := by
  obtain ⟨fault, whole⟩ := err
  unfold tokenize
  cases Scan.scanFrom 0 .none text.toList with
  | ok ts => simp [Except.mapError]
  | error found =>
      simp only [Except.mapError, Except.error.injEq, LexError.mk.injEq]
      exact ⟨fun ⟨hfound, htext⟩ => ⟨htext.symm, hfound⟩, fun ⟨htext, hfound⟩ => ⟨hfound, htext.symm⟩⟩

theorem scanFrom_eq_ok_iff {text : String} {ts : List Token} :
    Scan.scanFrom 0 .none text.toList = .ok ts ↔ tokenize text = .ok ts := by
  unfold tokenize
  cases Scan.scanFrom 0 .none text.toList <;> simp [Except.mapError]

/-- There are tokens exactly if there are tokens on both sides of the blank. -/
theorem tokenize_push_append {w : Char} (hw : Text.isBlank w) {a b : String} {ts : List Token} :
    tokenize (a.push w ++ b) = .ok ts ↔
      ∃ us vs, tokenize a = .ok us ∧ tokenize b = .ok vs ∧ ts = us ++ vs := by
  rw [← scanFrom_eq_ok_iff, scanFrom_push_append hw]
  constructor
  · intro h
    obtain ⟨us, hus, h⟩ := bind_eq_ok.mp h
    obtain ⟨vs, hvs, h⟩ := bind_eq_ok.mp h
    exact ⟨us, vs, scanFrom_eq_ok_iff.mp hus, scanFrom_eq_ok_iff.mp (eq_ok_of_mapError hvs),
      (Except.ok.inj h).symm⟩
  · rintro ⟨us, vs, hus, hvs, rfl⟩
    rw [scanFrom_eq_ok_iff.mpr hus, scanFrom_eq_ok_iff.mpr hvs]
    rfl

/-- Where tokens lex alone, their texts with spaces in between are scanned to them. -/
theorem tokenize_intercalate {ts : List Token} (h : ∀ t ∈ ts, tokenize t.text = .ok [t]) :
    tokenize (" ".intercalate (ts.map Token.text)) = .ok ts := by
  induction ts with
  | nil => rfl
  | cons t ts ih =>
      obtain ⟨ht, hts⟩ := List.forall_mem_cons.mp h
      cases ts with
      | nil => simpa using ht
      | cons u us =>
          have htext : " ".intercalate ((t :: u :: us).map Token.text)
              = t.text.push ' ' ++ " ".intercalate ((u :: us).map Token.text) := by
            rw [List.map_cons, String.intercalate_cons_of_ne_nil (by simp)]
            rfl
          rw [htext, tokenize_push_append (by decide)]
          exact ⟨[t], u :: us, ht, ih hts, rfl⟩

/-- **White space cuts a text into texts that are scanned on their own.**  With a
blank between them, two texts have tokens exactly if both have, and these are the
tokens of the first and then those of the second.  If only the second has none, its
fault is reported at its place behind the first text and the blank.  And the texts
of the tokens of a text, with spaces in between, have these same tokens. -/
theorem tokenize_append_blank {w : Char} (hw : Text.isBlank w) :
    (∀ a b ts, tokenize (a.push w ++ b) = .ok ts ↔
        ∃ us vs, tokenize a = .ok us ∧ tokenize b = .ok vs ∧ ts = us ++ vs) ∧
      (∀ a b us err, tokenize a = .ok us → tokenize b = .error err →
        ∃ err', tokenize (a.push w ++ b) = .error err' ∧ err'.fault = err.fault.shift (a.length + 1) ∧
          err'.position = err.position + (a.length + 1) ∧ err'.character? = err.character?) ∧
      (∀ text ts, tokenize text = .ok ts →
        tokenize (" ".intercalate (ts.map Token.text)) = .ok ts) := by
  refine ⟨fun a b ts => tokenize_push_append hw, fun a b us err ha hb => ?_, fun text ts h => ?_⟩
  · have hscan : Scan.scanFrom 0 .none (a.push w ++ b).toList
        = .error (err.fault.shift (a.length + 1)) := by
      rw [scanFrom_push_append hw, scanFrom_eq_ok_iff.mpr ha, tokenize_eq_error hb]
      rfl
    exact ⟨⟨err.fault.shift (a.length + 1), a.push w ++ b⟩, tokenize_eq_error_iff.mpr ⟨rfl, hscan⟩, rfl,
      err.fault.position_shift _ _ _, err.fault.character?_shift _ _ _⟩
  · exact tokenize_intercalate fun t ht => ((tokenize_eq_ok_iff.mp h).lexes_text t ht).tokenize_eq

/-- A number and a word in front of the blank, and a fault behind it. -/
theorem tokenize_append_blank_afterTab :
    Text.isBlank '\t' ∧ tokenize "2cos\t.5 x" = .ok [.number "2", .cos, .number ".5", .identifier "x"] ∧
      ∃ err, tokenize "2cos\t7 $" = .error err ∧ err.position = 7 ∧ err.character? = some '$' := by
  have hblank : Text.isBlank '\t' := by decide
  obtain ⟨htokens, hfault, -⟩ := tokenize_append_blank hblank
  have hfirst : tokenize "2cos" = .ok [.number "2", .cos] := rfl
  refine ⟨hblank, (htokens "2cos" ".5 x" _).mpr ⟨_, _, hfirst, rfl, rfl⟩, ?_⟩
  obtain ⟨err, herr, -, hposition, hcharacter⟩ :=
    hfault "2cos" "7 $" _ ⟨.unrecognized '$' 2, "7 $"⟩ hfirst rfl
  exact ⟨err, herr, hposition, hcharacter⟩

end Formula
