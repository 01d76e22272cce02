/-
Formula/Proofs/Solver/Session.lean

What holds of a solver in a session, whatever is called and whether it fails or
not.  Each call that changes a solver is described by what it makes of the
bindings (`after_setVariables`, `after_setValues`, `after_bind`,
`after_setRational`); the other calls change nothing.

Two facts are carried from call to call.  The solver stays `Coherent`: its names
are distinct and start with a letter, values that are present are as many as the
names, and the optimizer reads operands as the configuration says.  And the value
at a place is the one that has been stored there last (`StoredLast`), since a
call that stores nothing there keeps the value as long as the number of names
stays the same.
-/
import Mathlib.Data.List.Induction
import Formula.Proofs.Solver.Atomicity
import Formula.Proofs.Solver.Names

namespace Formula

universe u

namespace Bindings

variable {α : Type u}

/-- The bindings under other names, whose values stay if they are as many. -/
def renamed (b : Bindings α) (names : List String) : Bindings α where
  names := names
  values :=
    if names.length = b.names.length then b.values
    else if names = [] then some [] else none

/-- The value at a place. -/
def at? (b : Bindings α) (i : Nat) : Option α := b.values.bind (·[i]?)

/-- The place of a name among distinct ones. -/
theorem idxOf?_of_getElem? {names : List String} {x : String} {i : Nat} (hdistinct : names.Nodup)
    (hx : names[i]? = some x) : names.idxOf? x = some i := by
  obtain ⟨hi, hx⟩ := List.getElem?_eq_some_iff.mp hx
  rw [List.idxOf?_eq_some_iff]
  refine ⟨hi, hx, fun j hj hxj => ?_⟩
  have hij : j = i := (List.getElem_inj hdistinct).mp (hxj.trans hx.symm)
  omega

/-- A name has the value at its place. -/
theorem get?_eq_at? {b : Bindings α} {x : String} {i : Nat} (hdistinct : b.names.Nodup)
    (hx : b.names[i]? = some x) : b.get? x = b.at? i := by
  rw [get?, idxOf?_of_getElem? hdistinct hx, at?]
  cases b.values <;> rfl

/-- The values that stay are those of as many names as there are now. -/
theorem make_filter_eq_renamed {b : Bindings α} {names : List String}
    (hcomplete : ∀ vs, b.values = some vs → vs.length = b.names.length)
    (hpresent : b.names = [] → b.values ≠ none) (hdistinct : names.Nodup) :
    make names (b.values.filter (·.length == names.length)) = .ok (b.renamed names) := by
  cases hvalues : b.values with
  | none =>
      -- without values there are names, so that an unchanged number of names is not zero
      have hnames : b.names ≠ [] := fun hnil => hpresent hnil hvalues
      have hcount : names.length = b.names.length → names ≠ [] := by
        rintro hcount rfl
        exact hnames (List.length_eq_zero_iff.mp hcount.symm)
      rw [Option.filter_none, make, if_pos (namesAreDistinct_iff.mpr hdistinct)]
      by_cases hcount' : names.length = b.names.length
      · simp [renamed, hvalues, hcount', hcount hcount']
      · simp [renamed, hcount']
  | some vs =>
      have hlength := hcomplete vs hvalues
      by_cases hcount : names.length = b.names.length
      · have hfits : vs.length = names.length := hlength.trans hcount.symm
        rw [Option.filter_some, if_pos (beq_iff_eq.mpr hfits), make_eq_ok hdistinct hfits]
        simp [renamed, hvalues, hcount]
      · have hmisfits : ¬vs.length = names.length := fun h => hcount (h.symm.trans hlength)
        rw [Option.filter_some, if_neg (mt beq_iff_eq.mp hmisfits), make,
          if_pos (namesAreDistinct_iff.mpr hdistinct)]
        simp [renamed, hcount]

end Bindings

namespace Solver

variable {s : Solver} {c : Call} {i : Nat} {v : Float} {x : String}

/-- What holds of a solver between two calls. -/
structure Coherent (s : Solver) : Prop where
  letters : ∀ x ∈ s.bindings.names, StartsWithLetter x
  distinct : s.bindings.names.Nodup
  complete : ∀ vs, s.bindings.values = some vs → vs.length = s.bindings.names.length
  present : s.bindings.names = [] → s.bindings.values ≠ none
  rational : s.settings.rational = s.config.rational

/-! ### What the calls make of a solver -/

namespace Action

variable {β γ : Type}

/-- Work is done on with what a check has found. -/
theorem left_ofExcept_bind_ok {w : Except Error β} {r : β} (f : β → Action γ) (s : Solver)
    (h : w = .ok r) : ((liftM (Reported.ofExcept w) : Action β) >>= f).left s = (f r).left s := by
  subst h
  exact (bind_of_ok f rfl).1

/-- A check that fails ends the work. -/
theorem left_ofExcept_bind_error {w : Except Error β} {e : Error} (f : β → Action γ) (s : Solver)
    (h : w = .error e) : ((liftM (Reported.ofExcept w) : Action β) >>= f).left s = s := by
  subst h
  exact (bind_of_error f rfl).1

theorem left_map (f : β → γ) (a : Action β) (s : Solver) : (f <$> a).left s = a.left s := by
  cases h : a.outcome s with
  | ok r => exact (bind_of_ok (fun r => pure (f r)) h).1
  | error e => exact (bind_of_error (fun r => pure (f r)) h).1

theorem left_setVariables_error {given : List Datum} {e : NamingError}
    (h : variableNames given = .error e) : (setVariables given).left s = s :=
  left_ofExcept_bind_error _ s (congrArg (Except.mapError Error.naming) h)

/-- Names that are accepted take the place of the old ones. -/
theorem left_setVariables_ok (hs : s.Coherent) {given : List Datum} {names : List String}
    (h : variableNames given = .ok names) :
    (setVariables given).left s = { s with bindings := s.bindings.renamed names } := by
  have hmake : Bindings.make names (s.bindings.values.filter (·.length == names.length)) =
      .ok (s.bindings.renamed names) :=
    Bindings.make_filter_eq_renamed hs.complete hs.present (variableNames_eq_ok_iff.mp h).2.2
  rw [setVariables, left_ofExcept_bind_ok _ s (congrArg (Except.mapError Error.naming) h)]
  exact left_ofExcept_bind_ok _ s (congrArg (Except.mapError Error.binding) hmake)

/-- Values are stored if they are as many as the names. -/
theorem left_storeValues (given : Samples) (s : Solver) :
    (storeValues given).left s =
      match given.flatten with
      | .ok vs => if vs.length = s.bindings.names.length then s.withValues vs else s
      | .error _ => s := by
  change ((liftM (Reported.ofExcept (given.flatten.mapError .samples)) : Action (List Float)) >>=
    _).left s = _
  cases h : given.flatten with
  | error e => exact left_ofExcept_bind_error _ s rfl
  | ok vs =>
      rw [left_ofExcept_bind_ok _ s (show Except.mapError Error.samples (.ok vs) = .ok vs from rfl)]
      dsimp only
      split
      · next hlength =>
          exact left_ofExcept_bind_ok _ s (congrArg (Except.mapError Error.binding) (if_pos hlength))
      · next hlength =>
          exact left_ofExcept_bind_error _ s
            (congrArg (Except.mapError Error.binding) (if_neg hlength))

/-- The report of values changes nothing. -/
theorem quiet_reportValues (given : Samples) : Quiet (reportValues given) := by
  cases given with
  | item v => exact fun _ => rfl
  | list items => exact fun _ => rfl

theorem left_setValues (given : Samples) (s : Solver) :
    (setValues given).left s = (storeValues given).left s := by
  cases h : (storeValues given).outcome s with
  | ok u =>
      rw [setValues, (bind_of_ok (fun _ => reportValues given) h).1]
      exact quiet_reportValues given _
  | error e => exact (bind_of_error (fun _ => reportValues given) h).1

/-- A value for a name is stored if there are values already. -/
theorem left_setValue (name : String) (value : Float) (s : Solver) :
    (setValue name value).left s =
      match s.bindings.names.idxOf? name, s.bindings.values with
      | some i, some vs => s.withValues (vs.set i value)
      | _, _ => s := by
  change ((liftM (Reported.ofExcept ((s.bindings.bind name value).mapError .binding)) :
    Action (Bindings Float)) >>= _).left s = _
  cases hname : s.bindings.names.idxOf? name with
  | none =>
      exact left_ofExcept_bind_error _ s (by simp only [Bindings.bind, hname]; rfl)
  | some i =>
      cases hvalues : s.bindings.values with
      | none =>
          exact left_ofExcept_bind_error _ s (by simp only [Bindings.bind, hname, hvalues]; rfl)
      | some vs =>
          exact left_ofExcept_bind_ok _ s (by simp only [Bindings.bind, hname, hvalues]; rfl)

end Action

theorem after_setVariables_error {given : List Datum} {e : NamingError}
    (h : variableNames given = .error e) : s.after (.setVariables given) = s :=
  (Action.left_map _ _ s).trans (Action.left_setVariables_error h)

theorem after_setVariables_ok (hs : s.Coherent) {given : List Datum} {names : List String}
    (h : variableNames given = .ok names) :
    s.after (.setVariables given) = { s with bindings := s.bindings.renamed names } :=
  (Action.left_map _ _ s).trans (Action.left_setVariables_ok hs h)

theorem after_setValues (given : Samples) :
    s.after (.setValues given) =
      match given.flatten with
      | .ok vs => if vs.length = s.bindings.names.length then s.withValues vs else s
      | .error _ => s :=
  (Action.left_map _ _ s).trans ((Action.left_setValues given s).trans
    (Action.left_storeValues given s))

theorem after_bind (name : String) (value : Float) :
    s.after (.bind name value) =
      match s.bindings.names.idxOf? name, s.bindings.values with
      | some i, some vs => s.withValues (vs.set i value)
      | _, _ => s :=
  (Action.left_map _ _ s).trans (Action.left_setValue name value s)

/-- The wish is written into the configuration and into the optimizer. -/
theorem after_setRational (value : Bool) :
    s.after (.setRational value) =
      { s with
        config := { s.config with rational := value }
        settings := { s.settings with rational := value } } :=
  rfl

@[simp] theorem after_parse (text : String) (optimize : Option Bool) :
    s.after (.parse text optimize) = s :=
  (Action.left_map _ _ s).trans (Action.quiet_parse text optimize s)

@[simp] theorem after_eval (e : LiveExpr) : s.after (.eval e) = s :=
  (Action.left_map _ _ s).trans (Action.quiet_eval e s)

@[simp] theorem after_evalText (text : String) : s.after (.evalText text) = s :=
  (Action.left_map _ _ s).trans
    ((Action.quiet_parse text (some false)).bind Action.quiet_eval s)

@[simp] theorem after_evalRows (source : LiveExpr ⊕ String) (rows : Samples) :
    s.after (.evalRows source rows) = s :=
  (Action.left_map _ _ s).trans (Action.quiet_evalRows source rows s)

/-! ### Coherence -/

section New

variable {config : Config} {names : List Datum} {values : Option Samples}

/-- A new solver is coherent. -/
theorem coherent_of_make (h : Solver.make config names values = .ok s) : s.Coherent := by
  obtain ⟨accepted, hnames, ⟨-, rfl⟩ | ⟨t, vs, -, -, hlength, rfl⟩⟩ := make_cases h
  all_goals obtain ⟨-, hletters, hdistinct⟩ := variableNames_eq_ok_iff.mp hnames
  · refine ⟨hletters, hdistinct, fun vs hvs => ?_, ?_, rfl⟩
    · cases accepted with
      | nil => cases hvs; rfl
      | cons => cases hvs
    · rintro rfl
      exact Option.some_ne_none []
  · refine ⟨hletters, hdistinct, ?_, fun _ => Option.some_ne_none vs, rfl⟩
    rintro _ ⟨⟩
    exact hlength

/-- The values of a new solver are those it has been given. -/
theorem given_of_at?_make (h : Solver.make config names values = .ok s)
    (hv : s.bindings.at? i = some v) :
    ∃ t vs, values = some t ∧ t.flatten = .ok vs ∧ vs[i]? = some v := by
  obtain ⟨accepted, -, ⟨-, rfl⟩ | ⟨t, vs, hgiven, hflatten, -, rfl⟩⟩ := make_cases h
  · cases accepted <;> cases hv
  · exact ⟨t, vs, hgiven, hflatten, hv⟩

end New

theorem Coherent.withValues (hs : s.Coherent) {vs : List Float}
    (h : vs.length = s.bindings.names.length) : (s.withValues vs).Coherent where
  letters := hs.letters
  distinct := hs.distinct
  complete := by
    rintro _ ⟨⟩
    exact h
  present _ := Option.some_ne_none vs
  rational := hs.rational

theorem Coherent.renamed (hs : s.Coherent) {names : List String}
    (hletters : ∀ x ∈ names, StartsWithLetter x) (hdistinct : names.Nodup) :
    Coherent { s with bindings := s.bindings.renamed names } where
  letters := hletters
  distinct := hdistinct
  complete := by
    intro vs hvs
    simp only [Bindings.renamed] at hvs ⊢
    split at hvs
    · next hcount => exact (hs.complete vs hvs).trans hcount.symm
    · split at hvs
      · next hnil =>
          cases hvs
          rw [hnil, List.length_nil, List.length_nil]
      · cases hvs
  present := by
    rintro rfl
    simp only [Bindings.renamed]
    split
    · next hcount => exact hs.present (List.length_eq_zero_iff.mp hcount.symm)
    · exact Option.some_ne_none []
  rational := hs.rational

/-- No call makes a solver incoherent. -/
theorem Coherent.after (hs : s.Coherent) (c : Call) : (s.after c).Coherent := by
  cases c with
  | setVariables given =>
      cases h : variableNames given with
      | error e => exact (after_setVariables_error h).symm ▸ hs
      | ok names =>
          obtain ⟨-, hletters, hdistinct⟩ := variableNames_eq_ok_iff.mp h
          exact (after_setVariables_ok hs h).symm ▸ hs.renamed hletters hdistinct
  | setValues given =>
      rw [after_setValues]
      split
      · split
        · next hcount => exact hs.withValues hcount
        · exact hs
      · exact hs
  | bind name value =>
      rw [after_bind]
      split
      · next vs _ hvs => exact hs.withValues ((List.length_set).trans (hs.complete vs hvs))
      · exact hs
  | setRational value =>
      rw [after_setRational]
      exact ⟨hs.letters, hs.distinct, hs.complete, hs.present, rfl⟩
  | parse | eval | evalText | evalRows => simpa using hs

theorem Coherent.run (hs : s.Coherent) (calls : List Call) : (s.run calls).Coherent := by
  induction calls generalizing s with
  | nil => exact hs
  | cons c calls ih => exact ih (hs.after c)

/-! ### What is stored at a place -/

/-- The value that a call stores at a place, whether the call succeeds or not. -/
def Call.stored? (s : Solver) (i : Nat) : Call → Option Float
  | .setValues given =>
    match given.flatten with
    | .ok vs => if vs.length = s.bindings.names.length then vs[i]? else none
    | .error _ => none
  | .bind name value =>
    if s.bindings.names[i]? = some name then s.bindings.values.map fun _ => value else none
  | _ => none

/-- What a call stores at a place is the value there. -/
theorem at?_after_of_stored (hs : s.Coherent) (h : c.stored? s i = some v) :
    (s.after c).bindings.at? i = some v := by
  cases c with
  | setValues given =>
      rw [after_setValues]
      simp only [Call.stored?] at h
      split at h
      · next vs hflatten =>
          split at h
          · next hcount => rw [if_pos hcount]; exact h
          · cases h
      · cases h
  | bind name value =>
      simp only [Call.stored?] at h
      split at h
      · next hname =>
          obtain ⟨vs, hvs, rfl⟩ := Option.map_eq_some_iff.mp h
          obtain ⟨hi, -⟩ := List.getElem?_eq_some_iff.mp hname
          rw [after_bind, Bindings.idxOf?_of_getElem? hs.distinct hname, hvs]
          exact List.getElem?_set_self (hs.complete vs hvs ▸ hi)
      · cases h
  | setVariables | setRational | parse | eval | evalText | evalRows => cases h

/-- A value that a call leaves at a place without storing it has been there
before, among as many. -/
theorem at?_of_at?_after (hs : s.Coherent) (hstored : c.stored? s i = none)
    (h : (s.after c).bindings.at? i = some v) :
    s.bindings.at? i = some v ∧
      (s.after c).bindings.names.length = s.bindings.names.length := by
  cases c with
  | setVariables given =>
      cases hnames : variableNames given with
      | error e =>
          rw [after_setVariables_error hnames] at h ⊢
          exact ⟨h, rfl⟩
      | ok names =>
          rw [after_setVariables_ok hs hnames] at h ⊢
          simp only [Bindings.at?, Bindings.renamed] at h ⊢
          split at h
          · next hcount => exact ⟨h, hcount⟩
          · split at h <;> cases h
  | setValues given =>
      cases hflatten : given.flatten with
      | error e =>
          have hquiet : s.after (.setValues given) = s := by rw [after_setValues, hflatten]
          rw [hquiet] at h ⊢
          exact ⟨h, rfl⟩
      | ok vs =>
          simp only [after_setValues, Call.stored?, hflatten] at h hstored ⊢
          split at h
          · next hcount =>
              rw [if_pos hcount] at hstored
              exact absurd (hstored.symm.trans h) (Option.some_ne_none v).symm
          · next hcount =>
              exact ⟨h, by rw [if_neg hcount]⟩
  | bind name value =>
      rw [after_bind] at h ⊢
      split at h
      · next j vs hname hvs =>
          obtain ⟨hj, hat, -⟩ := List.idxOf?_eq_some_iff.mp hname
          have hne : j ≠ i := by
            rintro rfl
            have hstores : s.bindings.names[j]? = some name := by
              rw [List.getElem?_eq_getElem hj, hat]
            simp [Call.stored?, hstores, hvs] at hstored
          refine ⟨?_, rfl⟩
          rw [Bindings.at?, hvs]
          exact (List.getElem?_set_ne hne).symm.trans h
      · exact ⟨h, rfl⟩
  | setRational value => exact ⟨h, rfl⟩
  | parse | eval | evalText | evalRows => exact ⟨by simpa using h, by simp⟩

/-- The calls store nothing at a place and keep the number of names. -/
def Untouched (i : Nat) : Solver → List Call → Prop
  | _, [] => True
  | s, c :: calls =>
    c.stored? s i = none ∧ (s.after c).bindings.names.length = s.bindings.names.length ∧
      Untouched i (s.after c) calls

/-- The value is what the calls have stored last at a place; if they have stored
nothing there, it is the one that the solver has been given. -/
def StoredLast (given : Option Samples) (s : Solver) (calls : List Call) (i : Nat) (v : Float) :
    Prop :=
  (∃ earlier c later, calls = earlier ++ c :: later ∧ c.stored? (s.run earlier) i = some v ∧
      Untouched i ((s.run earlier).after c) later) ∨
    (∃ t vs, given = some t ∧ t.flatten = .ok vs ∧ vs[i]? = some v) ∧ Untouched i s calls

theorem run_concat (s : Solver) (calls : List Call) (c : Call) :
    s.run (calls ++ [c]) = (s.run calls).after c :=
  run_append s calls [c]

theorem Untouched.concat {calls : List Call} (h : Untouched i s calls)
    (hstored : c.stored? (s.run calls) i = none)
    (hcount : ((s.run calls).after c).bindings.names.length =
      (s.run calls).bindings.names.length) : Untouched i s (calls ++ [c]) := by
  induction calls generalizing s with
  | nil => exact ⟨hstored, hcount, trivial⟩
  | cons d calls ih => exact ⟨h.1, h.2.1, ih h.2.2 hstored hcount⟩

/-- A call that leaves a place alone leaves what is stored there. -/
theorem StoredLast.concat {given : Option Samples} {calls : List Call}
    (h : StoredLast given s calls i v) (hstored : c.stored? (s.run calls) i = none)
    (hcount : ((s.run calls).after c).bindings.names.length =
      (s.run calls).bindings.names.length) : StoredLast given s (calls ++ [c]) i v := by
  obtain ⟨earlier, d, later, rfl, hd, hlater⟩ | ⟨hgiven, huntouched⟩ := h
  · left
    rw [run_append] at hstored hcount
    exact ⟨earlier, d, later ++ [c], by simp, hd, hlater.concat hstored hcount⟩
  · right
    exact ⟨hgiven, huntouched.concat hstored hcount⟩

/-- The value at a place is the one that has been stored there last. -/
theorem storedLast_of_at? {config : Config} {names : List Datum} {given : Option Samples}
    (h : Solver.make config names given = .ok s) (calls : List Call)
    (hv : (s.run calls).bindings.at? i = some v) : StoredLast given s calls i v := by
  -- the last call has stored the value, or the value was there before it
  induction calls using List.reverseRecOn with
  | nil => exact .inr ⟨given_of_at?_make h hv, trivial⟩
  | append_singleton calls c ih =>
      have hs : (s.run calls).Coherent := (coherent_of_make h).run calls
      rw [run_concat] at hv
      cases hstored : c.stored? (s.run calls) i with
      | some w =>
          have hw := at?_after_of_stored hs hstored
          rw [hv] at hw
          cases hw
          exact .inl ⟨calls, c, [], rfl, hstored, trivial⟩
      | none =>
          obtain ⟨hbefore, hcount⟩ := at?_of_at?_after hs hstored hv
          exact (ih hbefore).concat hstored hcount

/-! ### Sessions of any calls -/

/-- **The state of a solver.**  However a session goes on, the solver stays
coherent; the value of each name is the one stored last at its place; and new
names keep the values, place by place, exactly if there are as many of them. -/
theorem state_in_session {config : Config} {names : List Datum} {values : Option Samples}
    (h : Solver.make config names values = .ok s) (calls : List Call) :
    (s.run calls).Coherent ∧
      (∀ i x, (s.run calls).bindings.names[i]? = some x → (s.run calls).bindings.values ≠ none →
        ∃ v, (s.run calls).bindings.get? x = some v ∧ StoredLast values s calls i v) ∧
      ∀ given,
        (∀ e, variableNames given = .error e →
          (s.run calls).after (.setVariables given) = s.run calls) ∧
        ∀ names', variableNames given = .ok names' →
          ((s.run calls).after (.setVariables given)).bindings =
            (s.run calls).bindings.renamed names' := by
  have hs : (s.run calls).Coherent := (coherent_of_make h).run calls
  refine ⟨hs, fun i x hx hvalues => ?_, fun given => ⟨fun e => after_setVariables_error, ?_⟩⟩
  · obtain ⟨vs, hvs⟩ := Option.ne_none_iff_exists'.mp hvalues
    obtain ⟨hi, -⟩ := List.getElem?_eq_some_iff.mp hx
    have hlength : i < vs.length := hs.complete vs hvs ▸ hi
    have hat : (s.run calls).bindings.at? i = some vs[i] := by
      rw [Bindings.at?, hvs]
      exact List.getElem?_eq_getElem hlength
    exact ⟨vs[i], (Bindings.get?_eq_at? hs.distinct hx).trans hat, storedLast_of_at? h calls hat⟩
  · intro names' hnames
    rw [after_setVariables_ok hs hnames]

/-- The only variable of a solver gets another value and then another name; a
call with too many values fails, and the value is that of the name from then on. -/
theorem state_in_session_renamed :
    let calls : List Call :=
      [.bind "x" 2.0, .setVariables [.text "y"], .setValues (.list [.item 3.0, .item 4.0])]
    Solver.make {} [.text "x"] (some (.list [.item 1.0])) = .ok single ∧
      (single.run calls).Coherent ∧ (single.run calls).bindings.get? "y" = some 2.0 ∧
      StoredLast (some (.list [.item 1.0])) single calls 0 2.0 := by
  intro calls
  have hmake : Solver.make {} [.text "x"] (some (.list [.item 1.0])) = .ok single := rfl
  obtain ⟨hcoherent, hstored, -⟩ := state_in_session hmake calls
  obtain ⟨v, hv, hlast⟩ := hstored 0 "y" rfl (Option.some_ne_none [2.0])
  have hget : (single.run calls).bindings.get? "y" = some 2.0 := rfl
  cases hget.symm.trans hv
  exact ⟨hmake, hcoherent, hget, hlast⟩

end Solver

end Formula
