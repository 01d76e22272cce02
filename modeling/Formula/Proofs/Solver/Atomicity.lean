/-
Formula/Proofs/Solver/Atomicity.lean

What a call that fails leaves of a solver.  Work is *quiet* if it leaves the
solver alone, *sure* if it cannot fail and *atomic* if it leaves the solver
alone whenever it fails.  Quiet work before atomic work is atomic, and so is
atomic work before sure work; an operation that checks first and replaces last
is therefore atomic.

Every call is atomic but one.  A bare number that is given as the value of the
only variable is stored and then refused, since the report of the values takes
them to be a list: `call_setValues_item` is what this one call does, and
`failed_call_in_session` what any failing call does, wherever it is made.
-/
import Formula.Solver.Call

namespace Formula.Solver

/-- The solver with other values. -/
def withValues (s : Solver) (values : List Float) : Solver :=
  { s with bindings := { s.bindings with values := some values } }

/-! ### Work in steps -/

namespace Action

variable {β γ : Type}

/-- The solver that work leaves behind. -/
def left (a : Action β) (s : Solver) : Solver := (a.on s).1

/-- What comes of work. -/
def outcome (a : Action β) (s : Solver) : Except Error β := (a.on s).2.run.value

/-- The rest of the work sees the value and the solver of the first step. -/
theorem value_bind (a : Action β) (f : β → Action γ) (s : Solver) :
    ((a >>= f).run s).value = (ExceptT.bindCont f (a.outcome s) (a.left s)).value := rfl

/-- A step that succeeds hands its value and the solver to the rest. -/
theorem bind_of_ok {a : Action β} {s : Solver} {v : β} (f : β → Action γ)
    (h : a.outcome s = .ok v) :
    (a >>= f).left s = (f v).left (a.left s) ∧ (a >>= f).outcome s = (f v).outcome (a.left s) := by
  have hvalue : ((a >>= f).run s).value = ((f v).run (a.left s)).value := by
    rw [value_bind, h]
    rfl
  exact ⟨congrArg Prod.snd hvalue, congrArg Prod.fst hvalue⟩

/-- A step that fails ends the work. -/
theorem bind_of_error {a : Action β} {s : Solver} {e : Error} (f : β → Action γ)
    (h : a.outcome s = .error e) :
    (a >>= f).left s = a.left s ∧ (a >>= f).outcome s = .error e := by
  have hvalue : ((a >>= f).run s).value = (.error e, a.left s) := by
    rw [value_bind, h]
    rfl
  exact ⟨congrArg Prod.snd hvalue, congrArg Prod.fst hvalue⟩

/-! ### Quiet, sure and atomic work -/

/-- Work that leaves the solver alone. -/
def Quiet (a : Action β) : Prop := ∀ s, a.left s = s

/-- Work that cannot fail. -/
def Sure (a : Action β) : Prop := ∀ s, ∃ v, a.outcome s = .ok v

/-- Work that leaves the solver alone if it fails. -/
def Atomic (a : Action β) : Prop := ∀ s e, a.outcome s = .error e → a.left s = s

theorem quiet_pure (v : β) : Quiet (pure v) := fun _ => rfl

theorem quiet_get : Quiet (get : Action Solver) := fun _ => rfl

theorem quiet_lift (x : Reported β) : Quiet (liftM x) := fun _ => rfl

theorem sure_pure (v : β) : Sure (pure v) := fun _ => ⟨v, rfl⟩

theorem sure_set (t : Solver) : Sure (set t : Action PUnit) := fun _ => ⟨⟨⟩, rfl⟩

theorem sure_modify (f : Solver → Solver) : Sure (modify f : Action PUnit) := fun _ => ⟨⟨⟩, rfl⟩

theorem sure_report (r : Report) : Sure (liftM (Reported.report r)) := fun _ => ⟨⟨⟩, rfl⟩

theorem Quiet.bind {a : Action β} {f : β → Action γ} (ha : Quiet a) (hf : ∀ v, Quiet (f v)) :
    Quiet (a >>= f) := by
  intro s
  cases h : a.outcome s with
  | ok v => rw [(bind_of_ok f h).1, ha s, hf v s]
  | error e => rw [(bind_of_error f h).1, ha s]

theorem Sure.bind {a : Action β} {f : β → Action γ} (ha : Sure a) (hf : ∀ v, Sure (f v)) :
    Sure (a >>= f) := by
  intro s
  obtain ⟨v, hv⟩ := ha s
  obtain ⟨w, hw⟩ := hf v (a.left s)
  exact ⟨w, (bind_of_ok f hv).2.trans hw⟩

theorem Quiet.atomic {a : Action β} (ha : Quiet a) : Atomic a := fun s _ _ => ha s

theorem Sure.atomic {a : Action β} (ha : Sure a) : Atomic a := by
  intro s e he
  obtain ⟨v, hv⟩ := ha s
  rw [hv] at he
  cases he

/-- Nothing has been replaced while the work only looks. -/
theorem Quiet.bind_atomic {a : Action β} {f : β → Action γ} (ha : Quiet a)
    (hf : ∀ v, Atomic (f v)) : Atomic (a >>= f) := by
  intro s e he
  cases h : a.outcome s with
  | ok v =>
      obtain ⟨hleft, houtcome⟩ := bind_of_ok f h
      rw [houtcome] at he
      rw [hleft, hf v _ e he, ha s]
  | error e => rw [(bind_of_error f h).1, ha s]

/-- Nothing can go wrong any more once the work begins to replace. -/
theorem Atomic.bind_sure {a : Action β} {f : β → Action γ} (ha : Atomic a)
    (hf : ∀ v, Sure (f v)) : Atomic (a >>= f) := by
  intro s e he
  cases h : a.outcome s with
  | ok v =>
      obtain ⟨w, hw⟩ := hf v (a.left s)
      rw [(bind_of_ok f h).2, hw] at he
      cases he
  | error e' => rw [(bind_of_error f h).1, ha s e' h]

theorem Atomic.map {a : Action β} (ha : Atomic a) (f : β → γ) : Atomic (f <$> a) :=
  ha.bind_sure fun v => sure_pure (f v)

/-! ### The operations -/

theorem atomic_setVariables (given : List Datum) : Atomic (setVariables given) := by
  apply (quiet_lift _).bind_atomic
  intro names
  apply quiet_get.bind_atomic
  intro s
  apply (quiet_lift _).bind_atomic
  intro bindings
  exact ((sure_set _).bind fun _ => sure_report _).atomic

theorem atomic_storeValues (given : Samples) : Atomic (storeValues given) := by
  apply quiet_get.bind_atomic
  intro s
  apply (quiet_lift _).bind_atomic
  intro values
  apply (quiet_lift _).bind_atomic
  intro bindings
  exact (sure_set _).atomic

/-- Values that are given as a list are reported without fail. -/
theorem atomic_setValues (items : List Samples) : Atomic (setValues (.list items)) :=
  (atomic_storeValues _).bind_sure fun _ => sure_report _

theorem atomic_setValue (name : String) (value : Float) : Atomic (setValue name value) := by
  apply quiet_get.bind_atomic
  intro s
  apply (quiet_lift _).bind_atomic
  intro bindings
  exact (sure_set _).atomic

theorem sure_setRational (value : Bool) : Sure (setRational value) :=
  (sure_modify _).bind fun _ => sure_modify _

theorem quiet_parse (text : String) (optimize : Option Bool) : Quiet (parse text optimize) :=
  quiet_get.bind fun _ => quiet_lift _

theorem quiet_eval (e : LiveExpr) : Quiet (eval e) :=
  quiet_get.bind fun _ => quiet_lift _

theorem quiet_evalRows (source : LiveExpr ⊕ String) (rows : Samples) :
    Quiet (evalRows source rows) := by
  have hlast : ∀ e, Quiet (do Reported.ofExcept ((← get).evalRows e rows) : Action (List Float)) :=
    fun e => quiet_get.bind fun _ => quiet_lift _
  cases source with
  | inl e => exact (quiet_pure e).bind hlast
  | inr text => exact (quiet_parse text none).bind hlast

/-- A single number is the value of the only variable. -/
theorem storeValues_item_of_one {s : Solver} (v : Float) (h : s.bindings.names.length = 1) :
    (storeValues (.item v)).left s = s.withValues [v] ∧
      (storeValues (.item v)).outcome s = .ok () := by
  have hset : s.bindings.setValues [v] = .ok { s.bindings with values := some [v] } :=
    if_pos h.symm
  have hlift : (liftM (Reported.ofExcept ((s.bindings.setValues [v]).mapError .binding)) :
      Action (Bindings Float)).outcome s = .ok { s.bindings with values := some [v] } := by
    rw [hset]
    rfl
  obtain ⟨hleft, houtcome⟩ := bind_of_ok
    (fun bindings => set { s with bindings } : Bindings Float → Action Unit) hlift
  exact ⟨hleft, houtcome⟩

/-- A single number is refused unless there is one variable. -/
theorem storeValues_item_of_ne {s : Solver} (v : Float) (h : s.bindings.names.length ≠ 1) :
    (storeValues (.item v)).outcome s =
      .error (.binding (.wrongCount s.bindings.names 1)) := by
  have hset : s.bindings.setValues [v] = .error (.wrongCount s.bindings.names 1) :=
    if_neg (Ne.symm h)
  have hlift : (liftM (Reported.ofExcept ((s.bindings.setValues [v]).mapError .binding)) :
      Action (Bindings Float)).outcome s =
        .error (.binding (.wrongCount s.bindings.names 1)) := by
    rw [hset]
    rfl
  obtain ⟨-, houtcome⟩ := bind_of_error
    (fun bindings => set { s with bindings } : Bindings Float → Action Unit) hlift
  exact houtcome

/-- Whether it has been stored or not, a single number is no list. -/
theorem setValues_item {s : Solver} (v : Float) :
    (setValues (.item v)).left s = (storeValues (.item v)).left s ∧
      (setValues (.item v)).outcome s =
        (storeValues (.item v)).outcome s >>= fun _ => .error .notAList := by
  cases h : (storeValues (.item v)).outcome s with
  | ok u => exact bind_of_ok (fun _ => reportValues (.item v)) h
  | error e => exact bind_of_error (fun _ => reportValues (.item v)) h

end Action

/-! ### The calls -/

/-- The value that a call stores although it fails: a bare number for the only
variable. -/
def Call.stray? (s : Solver) : Call → Option Float
  | .setValues (.item v) => if s.bindings.names.length = 1 then some v else none
  | _ => none

variable {s : Solver} {c : Call} {e : Error}

/-- Calls with other arguments are atomic. -/
theorem Call.atomic_action (h : ∀ v, c ≠ .setValues (.item v)) : c.action.Atomic := by
  cases c with
  | setVariables names => exact (Action.atomic_setVariables names).map _
  | setValues values =>
      cases values with
      | item v => exact absurd rfl (h v)
      | list items => exact (Action.atomic_setValues items).map _
  | bind name value => exact (Action.atomic_setValue name value).map _
  | setRational value => exact (Action.sure_setRational value).atomic.map _
  | parse text optimize => exact (Action.quiet_parse text optimize).atomic.map _
  | eval e => exact (Action.quiet_eval e).atomic.map _
  | evalText text =>
      exact ((Action.quiet_parse text (some false)).bind Action.quiet_eval).atomic.map _
  | evalRows source rows => exact (Action.quiet_evalRows source rows).atomic.map _

/-- A bare number fails in any case, and is stored if there is one variable. -/
theorem call_setValues_item (s : Solver) (v : Float) :
    (s.bindings.names.length = 1 ∧ s.after (.setValues (.item v)) = s.withValues [v] ∧
        s.answer (.setValues (.item v)) = .error .notAList) ∨
      s.bindings.names.length ≠ 1 ∧ s.after (.setValues (.item v)) = s ∧
        s.answer (.setValues (.item v)) = .error (.binding (.wrongCount s.bindings.names 1)) := by
  obtain ⟨hleft, houtcome⟩ := Action.setValues_item (s := s) v
  by_cases h : s.bindings.names.length = 1
  · left
    obtain ⟨hstored, hok⟩ := Action.storeValues_item_of_one v h
    rw [hstored] at hleft
    rw [hok] at houtcome
    obtain ⟨hafter, hanswer⟩ := Action.bind_of_error (fun _ => pure Answer.nothing) houtcome
    exact ⟨h, hafter.trans hleft, hanswer⟩
  · right
    have herror := Action.storeValues_item_of_ne v h
    rw [Action.atomic_storeValues _ s _ herror] at hleft
    rw [herror] at houtcome
    obtain ⟨hafter, hanswer⟩ := Action.bind_of_error (fun _ => pure Answer.nothing) houtcome
    exact ⟨h, hafter.trans hleft, hanswer⟩

/-- A call that fails leaves the solver as it was, but for one: a bare number for
the only variable is its value from then on. -/
theorem after_of_failed (h : s.answer c = .error e) :
    (c.stray? s = none ∧ s.after c = s) ∨
      ∃ v, c.stray? s = some v ∧ e = .notAList ∧ s.after c = s.withValues [v] := by
  by_cases hc : ∃ v, c = .setValues (.item v)
  · obtain ⟨v, rfl⟩ := hc
    obtain ⟨hone, hafter, hanswer⟩ | ⟨hone, hafter, -⟩ := call_setValues_item s v
    · right
      rw [hanswer] at h
      exact ⟨v, if_pos hone, (Except.error.inj h).symm, hafter⟩
    · left
      exact ⟨if_neg hone, hafter⟩
  · left
    have hne : ∀ v, c ≠ .setValues (.item v) := fun v hv => hc ⟨v, hv⟩
    refine ⟨?_, Call.atomic_action hne s e h⟩
    unfold Call.stray?
    split
    · exact absurd rfl (hne _)
    · rfl

/-! ### Sessions -/

theorem run_append (s : Solver) (calls more : List Call) :
    s.run (calls ++ more) = (s.run calls).run more :=
  List.foldl_append

/-- A call that fails in a session changes nothing and might as well not have
been made, unless it stores a bare number. -/
theorem failed_call_in_session {calls : List Call} (h : (s.run calls).answer c = .error e) :
    (c.stray? (s.run calls) = none ∧ (s.run calls).after c = s.run calls ∧
        ∀ more, s.run (calls ++ c :: more) = s.run (calls ++ more)) ∨
      ∃ v, c.stray? (s.run calls) = some v ∧ e = .notAList ∧
        (s.run calls).after c = (s.run calls).withValues [v] := by
  obtain ⟨hstray, hafter⟩ | hstores := after_of_failed h
  · left
    refine ⟨hstray, hafter, fun more => ?_⟩
    calc s.run (calls ++ c :: more)
        = ((s.run calls).after c).run more := run_append s calls (c :: more)
      _ = (s.run calls).run more := by rw [hafter]
      _ = s.run (calls ++ more) := (run_append s calls more).symm
  · right
    exact hstores

/-- A solver with one variable, whose value is one. -/
def single : Solver := .configured {} ⟨["x"], some [1.0]⟩

/-- A value for an unknown name is refused, and the names and values are those of
before. -/
theorem failed_call_in_session_unknownName :
    (single.run [.setRational false]).answer (.bind "y" 2.0) =
        .error (.binding (.undefinedVariable "y")) ∧
      (single.run [.setRational false]).after (.bind "y" 2.0) =
        single.run [.setRational false] := by
  have hanswer : (single.run [.setRational false]).answer (.bind "y" 2.0) =
      .error (.binding (.undefinedVariable "y")) := rfl
  obtain ⟨-, hafter, -⟩ | ⟨v, hstray, -⟩ := failed_call_in_session hanswer
  · exact ⟨hanswer, hafter⟩
  · cases hstray

/-- A bare number for the only variable of a new solver is refused, and yet it
takes the place of the value. -/
theorem failed_call_changes_values :
    Solver.make {} [.text "x"] (some (.list [.item 1.0])) = .ok single ∧
      single.answer (.setValues (.item 2.0)) = .error .notAList ∧
      (single.after (.setValues (.item 2.0))).bindings.values ≠ single.bindings.values := by
  obtain ⟨-, hafter, hanswer⟩ | ⟨hone, -⟩ := call_setValues_item single 2.0
  · refine ⟨rfl, hanswer, ?_⟩
    have hne : (2.0 : Float) ≠ 1.0 := by decide +kernel
    rw [hafter]
    intro h
    exact hne (List.head_eq_of_cons_eq (Option.some.inj h))
  · exact absurd rfl hone

end Formula.Solver
