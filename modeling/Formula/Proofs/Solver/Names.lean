/-
Formula/Proofs/Solver/Names.lean

The names of a solver.  A list of names is accepted if its entries are texts that
start with letters and are distinct (`variableNames_eq_ok_iff`).  That is less than
the scan asks of an identifier, which takes only letters, digits, points and
underscores and leaves keywords out; so an accepted name is read as a variable
exactly if it is an identifier as a whole (`parse_name_iff`).
-/
import Mathlib.Data.List.Forall2
import Formula.Proofs.Reading
import Formula.Solver.Basic

namespace Formula

universe u v

/-! ### Names -/

/-- The name starts with a letter. -/
def StartsWithLetter (x : String) : Prop :=
  ∃ c rest, x.toList = c :: rest ∧ Text.isLetter c

/-- A list is worked through if each of its entries is. -/
theorem mapM_eq_ok_iff {ε : Type u} {β γ : Type v} {f : β → Except ε γ} {xs : List β}
    {ys : List γ} : xs.mapM f = .ok ys ↔ List.Forall₂ (fun x y => f x = .ok y) xs ys := by
  induction xs generalizing ys with
  | nil => cases ys <;> simp [pure, Except.pure]
  | cons x xs ih =>
      simp only [List.mapM_cons, bind_eq_ok, List.forall₂_cons_left_iff, ih]
      constructor
      · rintro ⟨y, hy, rest, hrest, h⟩
        exact ⟨y, rest, hy, hrest, (Except.ok.inj h).symm⟩
      · rintro ⟨y, rest, hy, hrest, rfl⟩
        exact ⟨y, hy, rest, hrest, rfl⟩

/-- Names are accepted if they are given as texts, start with letters and are
distinct. -/
theorem variableNames_eq_ok_iff {given : List Datum} {names : List String} :
    variableNames given = .ok names ↔
      given = names.map .text ∧ (∀ x ∈ names, StartsWithLetter x) ∧ names.Nodup := by
  simp only [variableNames, bind_eq_ok, mapM_eq_ok_iff]
  constructor
  · rintro ⟨accepted, hentries, h⟩
    split at h
    · next hdistinct =>
        cases h
        have hgiven : List.Forall₂ (fun x d => StartsWithLetter x ∧ d = .text x) names given := by
          refine (hentries.imp fun d x hd => ?_).flip
          split at hd
          · split at hd
            · split at hd
              · next c rest htext hc =>
                  cases hd
                  exact ⟨⟨c, rest, htext, hc⟩, rfl⟩
              · cases hd
            · cases hd
          · cases hd
        obtain ⟨hletters, hgiven⟩ := (List.forall₂_and_left _ _).mp hgiven
        refine ⟨?_, hletters, Bindings.namesAreDistinct_iff.mp hdistinct⟩
        rw [← List.forall₂_eq_eq_eq, List.forall₂_map_right_iff]
        exact hgiven.flip
    · cases h
  · rintro ⟨rfl, hletters, hdistinct⟩
    refine ⟨names, ?_, if_pos (Bindings.namesAreDistinct_iff.mpr hdistinct)⟩
    rw [List.forall₂_map_left_iff, List.forall₂_same]
    intro x hx
    obtain ⟨c, rest, htext, hc⟩ := hletters x hx
    simp only [htext, hc, if_true]

/-! ### New solvers -/

/-- The rest of reporting work is done on what the first part has given. -/
theorem Reported.value_bind {β γ : Type} (x : Reported β) (f : β → Reported γ) :
    (x >>= f).run.value = x.run.value >>= fun v => (f v).run.value := by
  change (ExceptT.bindCont f x.run.value).value = _
  cases x.run.value <;> rfl

namespace Solver

variable {s : Solver} {config : Config} {names : List Datum} {values : Option Samples}

/-- A new solver has accepted names and, if it has been given values, as many of
them. -/
theorem make_cases (h : Solver.make config names values = .ok s) :
    ∃ accepted, variableNames names = .ok accepted ∧
      (values = none ∧
          s = configured config ⟨accepted, if accepted.isEmpty then some [] else none⟩ ∨
        ∃ t vs, values = some t ∧ t.flatten = .ok vs ∧ vs.length = accepted.length ∧
          s = configured config ⟨accepted, some vs⟩) := by
  obtain ⟨accepted, hnames, h⟩ := bind_eq_ok.mp h
  obtain ⟨stored, hstored, h⟩ := bind_eq_ok.mp h
  obtain ⟨bindings, hmake, h⟩ := bind_eq_ok.mp h
  have hnames := eq_ok_of_mapError hnames
  have hmake := eq_ok_of_mapError hmake
  have hdistinct := (variableNames_eq_ok_iff.mp hnames).2.2
  cases h
  refine ⟨accepted, hnames, ?_⟩
  cases values with
  | none =>
      cases hstored
      rw [Bindings.make, if_pos (Bindings.namesAreDistinct_iff.mpr hdistinct)] at hmake
      cases hmake
      exact .inl ⟨rfl, rfl⟩
  | some t =>
      obtain ⟨vs, hflatten, hvs⟩ := bind_eq_ok.mp hstored
      cases hvs
      obtain ⟨rfl, hlength⟩ := Bindings.eq_of_make hmake
      exact .inr ⟨t, vs, rfl, eq_ok_of_mapError hflatten, hlength, rfl⟩

/-! ### Reading a name -/

/-- Without optimization the tree is the one that is read. -/
theorem value_parse (s : Solver) (text : String) :
    (s.parse text (some false)).run.value =
      (Reported.read s.knows text).run.value >>= fun e => (LiveExpr.ofExpr e).mapError .eval := by
  rw [parse, Reported.value_bind]
  congr 1
  funext e
  cases h : LiveExpr.ofExpr e <;> rfl

theorem expr_of_ofExpr {e : Expr Float} {live : LiveExpr} (h : LiveExpr.ofExpr e = .ok live) :
    live.expr = e := by
  unfold LiveExpr.ofExpr at h
  split at h
  · next root hroot =>
      cases h
      exact Node.expr_of_ofExpr? hroot
  · cases h

theorem knows_of_mem {x : String} (hx : x ∈ s.bindings.names) : s.knows x := by
  simp [knows, Bindings.contains, hx]

/-- **An accepted name can be read if it is an identifier.**  The text of an
accepted name is read as the variable of this name exactly if it has only
characters of identifiers and is no keyword. -/
theorem parse_name_iff (h : Solver.make config names values = .ok s) {x : String}
    (hx : .text x ∈ names) :
    (s.parse x (some false)).run.value = .ok (.ofNode (.var .fresh x)) ↔
      (∀ c ∈ x.toList, Text.isLetter c ∨ Scan.continuesWord c) ∧
        ∀ t ∈ Token.keywords, t.text ≠ x := by
  obtain ⟨accepted, haccepted, hs⟩ := make_cases h
  obtain ⟨rfl, hletters, -⟩ := variableNames_eq_ok_iff.mp haccepted
  have hbound : s.bindings.names = accepted := by
    obtain ⟨-, rfl⟩ | ⟨t, vs, -, -, -, rfl⟩ := hs <;> rfl
  obtain ⟨y, hy, ⟨⟩⟩ := List.mem_map.mp hx
  rw [value_parse, bind_eq_ok]
  constructor
  · rintro ⟨e, hread, he⟩
    obtain ⟨ts, htokens⟩ := exists_tokens_of_value_read hread
    have hderives := (value_read_eq_ok_iff htokens).mp hread
    obtain rfl : Expr.var x = e := expr_of_ofExpr (eq_ok_of_mapError he)
    have hname := (tokenize_eq_ok_iff.mp htokens).isName hderives.mem_of_var
    obtain ⟨c, cs, hcs, hc, hmore⟩ := hname.chars
    refine ⟨fun d hd => ?_, hname.notKeyword⟩
    rw [hcs] at hd
    rcases List.mem_cons.mp hd with rfl | hd
    · exact .inl hc
    · exact hmore d hd
  · rintro ⟨hchars, hkeyword⟩
    obtain ⟨c, cs, hcs, hc⟩ := hletters x hy
    rw [hcs] at hchars
    have hname : Scan.IsName x :=
      ⟨⟨c, cs, hcs, hc, (List.forall_mem_cons.mp hchars).2⟩, hkeyword⟩
    have htokens := (Scan.lexes_name hname).tokenize_eq
    refine ⟨.var x, (value_read_eq_ok_iff htokens).mpr ?_, rfl⟩
    exact .tighter (.tighter (.tighter (.tighter (.tighter (.name (knows_of_mem (hbound ▸ hy)))))))

/-- Of these names one is an identifier; the others have a blank or are the sign
of the root. -/
theorem parse_name_three :
    ∃ s, Solver.make {} [.text "x_1.é", .text "x y", .text "r"] none = .ok s ∧
      (s.parse "x_1.é" (some false)).run.value = .ok (.ofNode (.var .fresh "x_1.é")) ∧
      (s.parse "x y" (some false)).run.value ≠ .ok (.ofNode (.var .fresh "x y")) ∧
      (s.parse "r" (some false)).run.value ≠ .ok (.ofNode (.var .fresh "r")) := by
  have hmake : Solver.make {} [.text "x_1.é", .text "x y", .text "r"] none =
      .ok (.configured {} ⟨["x_1.é", "x y", "r"], none⟩) := rfl
  refine ⟨_, hmake, (parse_name_iff hmake (by simp)).mpr ⟨?_, by decide⟩, fun h => ?_, fun h => ?_⟩
  · have hchars : "x_1.é".toList.all fun c => Text.isLetter c || Scan.continuesWord c := by decide
    simpa only [List.all_eq_true, Bool.or_eq_true] using hchars
  · have hblank := ((parse_name_iff hmake (by simp)).mp h).1 ' ' (by decide)
    exact absurd hblank (by decide)
  · exact absurd ((parse_name_iff hmake (by simp)).mp h).2 (by decide)

/-- A keyword is accepted as a name, and cannot be read. -/
theorem accepted_name_unreadable :
    ∃ s, Solver.make {} [.text "r"] none = .ok s ∧ "r" ∈ s.bindings.names ∧
      ∀ e, (s.parse "r" (some false)).run.value ≠ .ok e := by
  refine ⟨.configured {} ⟨["r"], none⟩, rfl, List.mem_singleton_self _, ?_⟩
  have herror : ((Solver.configured {} ⟨["r"], none⟩).parse "r" (some false)).run.value.isOk =
      false := by decide +kernel
  intro e he
  rw [he] at herror
  cases herror

end Solver

end Formula
