/-
Formula/Proofs/CommandLine/Tracing.lean

The function tracer on any input.  `Line` is what one line does to where a session
stands, and what it prints: first functions are entered, then each line gives a new
value of `t`, until the session is over.  `Session` is one line after the other.

Everything that can go wrong with a line is that it is no expression over the names
`t`, `pi` and `e` (`reads_or_rejects`); then one line is printed and nothing changes.
What is one has a value as soon as these names have (`Evaluable.exists_value`), and so
has what the optimizer makes of it, which brings no other names.  So the tracer never
fails: `step_spec` is one line, and `foldlM_step_spec` any number of them, with the
bindings of the solver where the session says they are.
-/
import Formula.CommandLine.Run
import Formula.Proofs.Simplify.Folding
import Formula.Proofs.Solver.Names

namespace Formula

universe u

/-- Doing nothing more reports nothing more. -/
instance Traced.lawfulMonad {ε : Type u} : LawfulMonad (Traced ε) :=
  LawfulMonad.mk' (Traced ε) (fun x => congrArg (Traced.mk x.value) (List.append_nil x.trace))
    (fun _ _ => rfl)
    fun x f g => congrArg (Traced.mk (g (f x.value).value).value) (List.append_assoc x.trace _ _)

/-- The variables of an expression that is read are known. -/
theorem Derives.known_of_mem_vars {α : Type u} [Numeral α] {known : String → Bool} {level : Precedence}
    {ts : List Token} {e : Expr α} {x : String} (h : Derives known level ts e) (hx : x ∈ e.vars) :
    known x := by
  induction h with
  | number => cases hx
  | name hknown =>
      obtain rfl := List.mem_singleton.mp hx
      exact hknown
  | group _ ih | function _ _ ih | negation _ ih | tighter _ ih => exact ih hx
  | binary _ _ _ ihl ihr | subtraction _ _ ihl ihr | juxtaposition _ _ _ ihl ihr =>
      exact (Expr.mem_vars_binary.mp hx).elim ihl ihr

/-! ### Reading with a solver -/

namespace Solver

variable {s : Solver} {text : String} {e : Expr Float} {n : Node Float} {err : Error}

theorem value_parse_of_read (optimize : Bool) (hread : (Reported.read s.knows text).run.value = .ok e)
    (hn : Node.ofExpr? e = some n) :
    (s.parse text (some optimize)).run.value =
      .ok (.ofNode (if optimize then (n.optimizeTree s.settings .empty).value else n)) := by
  have hlive : LiveExpr.ofExpr e = .ok (.ofNode n) := by rw [LiveExpr.ofExpr, hn]
  rw [parse, Reported.value_bind]
  refine bind_eq_ok.mpr ⟨e, hread, ?_⟩
  simp only [hlive]
  cases optimize <;> rfl

theorem value_parse_of_error (optimize : Bool)
    (hread : (Reported.read s.knows text).run.value = .error err) :
    (s.parse text (some optimize)).run.value = .error err := by
  rw [parse, Reported.value_bind, hread]
  rfl

theorem value_evalText_of_read (hread : (Reported.read s.knows text).run.value = .ok e)
    (hn : Node.ofExpr? e = some n) : (s.evalText text).run.value = s.eval (.ofNode n) := by
  rw [evalText, Reported.value_bind, value_parse_of_read false hread hn]
  rfl

theorem value_evalText_of_error (hread : (Reported.read s.knows text).run.value = .error err) :
    (s.evalText text).run.value = .error err := by
  rw [evalText, Reported.value_bind, value_parse_of_error false hread]
  rfl

end Solver

namespace CommandLine

/-! ### What is printed -/

/-- The lines among what is put out. -/
def printed (pieces : List Piece) : List String :=
  pieces.filterMap fun p =>
    match p with
    | .line text => some text
    | .report _ => none

/-- The work succeeds with a value, after it has printed some lines. -/
def Prints {β : Type} (x : Work β) (out : List String) (v : β) : Prop :=
  x.run.value = .ok v ∧ printed x.run.trace = out

section

variable {β γ : Type} {x : Work β} {f : β → Work γ} {out out' : List String} {v : β} {w : γ}

theorem prints_pure (v : β) : Prints (pure v) [] v := ⟨rfl, rfl⟩

theorem prints_print (text : String) : Prints (Work.print text) [text] () := ⟨rfl, rfl⟩

theorem prints_ofExcept {y : Except Error β} (h : y = .ok v) : Prints (Work.ofExcept y) [] v := by
  subst h
  exact ⟨rfl, rfl⟩

theorem Prints.bind (hx : Prints x out v) (hf : Prints (f v) out' w) :
    Prints (x >>= f) (out ++ out') w := by
  obtain ⟨hvalue, rfl⟩ := hx
  obtain ⟨hvalue', rfl⟩ := hf
  have hrun : (x >>= f).run = x.run >>= ExceptT.bindCont f := rfl
  constructor
  · rw [hrun, Traced.value_bind, hvalue]
    exact hvalue'
  · rw [hrun, Traced.trace_bind, hvalue, printed, List.filterMap_append]
    rfl

/-- Work on each entry of a list that prints nothing. -/
theorem prints_mapM {xs : List β} {ys : List γ}
    (h : List.Forall₂ (fun x y => Prints (f x) [] y) xs ys) : Prints (xs.mapM f) [] ys := by
  induction h with
  | nil => exact prints_pure []
  | @cons x y xs ys hx _ ih =>
      rw [List.mapM_cons]
      exact hx.bind (ih.bind (prints_pure (y :: ys)))

end

namespace Tracer

/-! ### The session of a tracer -/

/-- The variables that functions and values may have. -/
def names : List String := [variableName, "pi", "e"]

/-- The values of the variables for a value of `t`. -/
def environment (t : Float) : Environment Float := (bindings t).environment

/-- A line without the white space around it. -/
def strip (line : String) : String := String.ofList (Text.trimBlanks line.toList)

/-- The text is that of an expression over the variables. -/
def Reads (text : String) (e : Expr Float) : Prop :=
  ∃ ts, tokenize text = .ok ts ∧ Derives (names.contains ·) .extremum ts e

/-- The text has no tokens, or they are no expression over the variables. -/
def Rejects (text : String) (e : Error) : Prop :=
  (∃ err, tokenize text = .error err ∧ e = .lex err) ∨
    ∃ ts err, tokenize text = .ok ts ∧ parse (α := Float) (names.contains ·) ts = .error err ∧
      e = .parse err

/-- The function that a text is accepted as: its expression, optimized if asked for. -/
def Accepts (settings : Settings Float) (optimize : Bool) (text : String) (f : Expr Float) : Prop :=
  ∃ e n, Reads text e ∧ Node.ofExpr? e = some n ∧
    f = (if optimize then (n.optimizeTree settings .empty).value else n).expr

/-- The values of the functions, in their order, for a value of `t`. -/
def Row (functions : List (Expr Float)) (t : Float) (values : List Float) : Prop :=
  List.Forall₂ (fun f v => f.eval (environment t) = .ok v) functions values

/-- What is printed for a value of `t`. -/
def rowText (t : Float) (values : List Float) : String :=
  let row := ", ".intercalate (values.map Decimal.fullText)
  s!"{variableName}={Decimal.fullText t}: ({row})"

/-- Where a session stands. -/
inductive Stage
  | entering (functions : List (Expr Float))
  | tracing (functions : List (Expr Float)) (t : Float)
  | ended (functions : List (Expr Float)) (t : Float)

/-- The present `t`; it is zero before the first value. -/
def Stage.t : Stage → Float
  | entering _ => 0
  | tracing _ t | ended _ t => t

def Stage.functions : Stage → List (Expr Float)
  | entering fs | tracing fs _ | ended fs _ => fs

def Stage.phase : Stage → Phase
  | entering _ => .functions
  | tracing _ t => .values t
  | ended .. => .finished

/-- What one line does, with what it prints. -/
inductive Line (settings : Settings Float) (optimize : Bool) :
    Stage → String → List String → Stage → Prop
  /-- Without a function there is nothing to trace. -/
  | nothing {line : String} : strip line = "" →
      Line settings optimize (.entering []) line [] (.ended [] 0)
  | begin {line : String} {fs : List (Expr Float)} : strip line = "" → fs ≠ [] →
      Line settings optimize (.entering fs) line [valuePrompt] (.tracing fs 0)
  | function {line : String} {fs : List (Expr Float)} {f : Expr Float} : strip line ≠ "" →
      Accepts settings optimize (strip line) f →
      Line settings optimize (.entering fs) line [] (.entering (fs ++ [f]))
  | noFunction {line : String} {fs : List (Expr Float)} {e : Error} : strip line ≠ "" →
      Rejects (strip line) e →
      Line settings optimize (.entering fs) line ["Error: " ++ e.message] (.entering fs)
  | quit {line : String} {fs : List (Expr Float)} {t : Float} : strip line = "quit" →
      Line settings optimize (.tracing fs t) line [] (.ended fs t)
  | blank {line : String} {fs : List (Expr Float)} {t : Float} {vs : List Float} : strip line = "" →
      Row fs (t + 0.1) vs →
      Line settings optimize (.tracing fs t) line [rowText (t + 0.1) vs] (.tracing fs (t + 0.1))
  /-- The value of a line depends on the value of `t` before. -/
  | value {line : String} {fs : List (Expr Float)} {t t' : Float} {e : Expr Float} {vs : List Float} :
      strip line ≠ "" → strip line ≠ "quit" → Reads (strip line) e →
      e.eval (environment t) = .ok t' → Row fs t' vs →
      Line settings optimize (.tracing fs t) line [rowText t' vs] (.tracing fs t')
  | noValue {line : String} {fs : List (Expr Float)} {t : Float} {e : Error} : strip line ≠ "" →
      strip line ≠ "quit" → Rejects (strip line) e →
      Line settings optimize (.tracing fs t) line ["Error: " ++ e.message] (.tracing fs t)
  | after {line : String} {fs : List (Expr Float)} {t : Float} :
      Line settings optimize (.ended fs t) line [] (.ended fs t)

/-- One line after the other. -/
inductive Session (settings : Settings Float) (optimize : Bool) :
    Stage → List String → List String → Stage → Prop
  | nil (st : Stage) : Session settings optimize st [] [] st
  | cons {st st' st'' : Stage} {line : String} {lines out out' : List String} :
      Line settings optimize st line out st' → Session settings optimize st' lines out' st'' →
      Session settings optimize st (line :: lines) (out ++ out') st''

/-! ### Reading a line -/

variable {config : Config} {optimize : Bool} {settings : Settings Float} {text line : String}
  {e f : Expr Float} {err : Error} {t t' : Float} {fs : List (Expr Float)} {vs : List Float}

theorem value_read_of_reads (h : Reads text e) :
    (Reported.read (names.contains ·) text).run.value = .ok e := by
  obtain ⟨ts, htokens, hderives⟩ := h
  exact (value_read_eq_ok_iff htokens).mpr hderives

theorem value_read_of_rejects (h : Rejects text err) :
    (Reported.read (names.contains ·) text).run.value = .error err := by
  obtain ⟨e, htokens, rfl⟩ | ⟨ts, e, htokens, hparse, rfl⟩ := h
  · exact value_read_of_error htokens
  · rw [value_read_of_tokenize htokens, hparse]
    rfl

/-- A text is read or rejected, and nothing else can happen to it. -/
theorem reads_or_rejects (text : String) : (∃ e, Reads text e) ∨ ∃ err, Rejects text err := by
  cases htokens : tokenize text with
  | error err => exact .inr ⟨_, .inl ⟨err, htokens, rfl⟩⟩
  | ok ts =>
      cases hparse : parse (α := Float) (names.contains ·) ts with
      | error err => exact .inr ⟨_, .inr ⟨ts, err, htokens, hparse, rfl⟩⟩
      | ok e => exact .inl ⟨e, ts, htokens, parse_eq_ok_iff.mp hparse⟩

/-! ### Values -/

/-- The expression has no empty slot and no other variables. -/
def Evaluable (e : Expr Float) : Prop := e.isFilled ∧ ∀ x ∈ e.vars, x ∈ names

theorem Reads.evaluable (h : Reads text e) : Evaluable e := by
  obtain ⟨ts, -, hderives⟩ := h
  exact ⟨hderives.isFilled, fun x hx => List.contains_iff_mem.mp (hderives.known_of_mem_vars hx)⟩

/-- The optimizer brings no other variables. -/
theorem Accepts.evaluable (h : Accepts settings optimize text f) : Evaluable f := by
  obtain ⟨e, n, hreads, hn, rfl⟩ := h
  obtain rfl := Node.expr_of_ofExpr? hn
  refine ⟨Node.isFilled_expr _, fun x hx => hreads.evaluable.2 x ?_⟩
  split at hx
  · exact Expr.mem_vars_of_reflTransGen (Node.rewrites_optimizeTree settings .empty n) hx
  · exact hx

theorem Evaluable.exists_value (h : Evaluable e) (t : Float) : ∃ v, e.eval (environment t) = .ok v := by
  refine (Expr.exists_eval_iff h.1).mpr fun x hx => ?_
  have hnames := h.2 x hx
  simp only [names, List.mem_cons, List.not_mem_nil, or_false] at hnames
  obtain rfl | rfl | rfl := hnames <;> exact ⟨_, rfl⟩

theorem exists_row (h : ∀ f ∈ fs, Evaluable f) (t : Float) : ∃ vs, Row fs t vs := by
  induction fs with
  | nil => exact ⟨[], .nil⟩
  | cons f fs ih =>
      obtain ⟨hf, hfs⟩ := List.forall_mem_cons.mp h
      obtain ⟨v, hv⟩ := hf.exists_value t
      obtain ⟨vs, hvs⟩ := ih hfs
      exact ⟨v :: vs, .cons hv hvs⟩

/-! ### One line -/

variable {s : Tracer} {st : Stage}

/-- The tracer is where the session stands. -/
structure Follows (config : Config) (optimize : Bool) (s : Tracer) (st : Stage) : Prop where
  solver : s.solver = .configured config (bindings st.t)
  optimize : s.optimize = optimize
  functions : s.functions.map LiveExpr.expr = st.functions
  phase : s.phase = st.phase
  evaluable : ∀ f ∈ st.functions, Evaluable f

theorem follows_start (config : Config) (optimize : Bool) :
    Follows config optimize (start config optimize) (.entering []) :=
  ⟨rfl, rfl, rfl, rfl, by simp [Stage.functions]⟩

theorem knows_configured (h : config.restrictVariables = true) (t : Float) :
    (Solver.configured config (bindings t)).knows = (names.contains ·) := by
  funext x
  simp only [Solver.knows, Solver.configured, h]
  rfl

theorem bind_configured (config : Config) (t t' : Float) :
    (Solver.configured config (bindings t)).bind variableName t'
      = .ok (Solver.configured config (bindings t')) := rfl

section

variable {β : Type} {work : Reported β} {next : β → Work Tracer} {v : β} {out : List String} {s' : Tracer}

theorem printed_reports (reports : List Report) : printed (reports.map .report) = [] := by
  induction reports with
  | nil => rfl
  | cons r reports ih => exact ih

/-- The outcome of the work is at hand, whether it has failed or not. -/
theorem prints_run (work : Reported β) :
    Prints (ExceptT.lift (Work.ofReported work).run) [] (work.run.value.mapError .library) :=
  ⟨rfl, (congrArg printed (List.append_nil _)).trans (printed_reports _)⟩

theorem prints_attempt_of_ok (h : work.run.value = .ok v) (hnext : Prints (next v) out s') :
    Prints (s.attempt work next) out s' := by
  have hrun := prints_run work
  rw [h] at hrun
  exact hrun.bind hnext

theorem prints_attempt_of_error (h : work.run.value = .error err) :
    Prints (s.attempt work next) ["Error: " ++ err.message] s := by
  have hrun := prints_run work
  rw [h] at hrun
  exact hrun.bind ((prints_print _).bind (prints_pure s))

end

theorem prints_moveTo (hs : s.Follows config optimize st) (hrow : Row st.functions t' vs) :
    Prints (s.moveTo t') [rowText t' vs]
      { s with solver := .configured config (bindings t'), phase := .values t' } := by
  have hbind : s.solver.bind variableName t' = .ok (.configured config (bindings t')) := by
    rw [hs.solver, bind_configured]
  have hvalues : List.Forall₂
      (fun f v => Prints (Work.ofExcept ((Solver.configured config (bindings t')).eval f)) [] v)
      s.functions vs := by
    rw [← hs.functions, Row, List.forall₂_map_left_iff] at hrow
    refine hrow.imp fun f v hv => prints_ofExcept ?_
    change (f.expr.eval (environment t')).mapError Error.eval = .ok v
    rw [hv]
    rfl
  exact (prints_ofExcept hbind).bind ((prints_mapM hvalues).bind ((prints_print _).bind (prints_pure _)))

theorem step_of_functions (h : s.phase = .functions) (line : String) :
    s.step line =
      if (strip line).isEmpty then
        if s.functions.isEmpty then return { s with phase := .finished }
        else do
          Work.print valuePrompt
          return { s with phase := .values 0.0 }
      else
        s.attempt (s.solver.parse (strip line) (some s.optimize)) fun f =>
          return { s with functions := s.functions ++ [f] } := by
  simp only [step, h]
  rfl

theorem step_of_values (h : s.phase = .values t) (line : String) :
    s.step line =
      if strip line = "quit" then return { s with phase := .finished }
      else if (strip line).isEmpty then s.moveTo (t + stepWidth)
      else s.attempt (s.solver.evalText (strip line)) s.moveTo := by
  simp only [step, h]
  rfl

theorem step_of_finished (h : s.phase = .finished) (line : String) : s.step line = return s := by
  simp only [step, h]

theorem Follows.value_read (hr : config.restrictVariables = true) (hs : s.Follows config optimize st)
    (text : String) :
    Reported.read s.solver.knows text = Reported.read (names.contains ·) text := by
  rw [hs.solver, knows_configured hr]

/-- A line while functions are entered. -/
theorem step_entering (hr : config.restrictVariables = true)
    (hs : s.Follows config optimize (.entering fs)) (line : String) :
    ∃ s' out st', Prints (s.step line) out s' ∧
      Line config.settings optimize (.entering fs) line out st' ∧ Follows config optimize s' st' := by
  have hfunctions : s.functions.isEmpty = true ↔ fs = [] := by
    rw [← (show s.functions.map LiveExpr.expr = fs from hs.functions), List.isEmpty_iff, List.map_eq_nil_iff]
  rw [step_of_functions hs.phase]
  by_cases hblank : strip line = ""
  · rw [if_pos (String.isEmpty_iff.mpr hblank)]
    by_cases hnone : fs = []
    · subst hnone
      rw [if_pos (hfunctions.mpr rfl)]
      exact ⟨_, _, _, prints_pure _, .nothing hblank, hs.solver, hs.optimize, hs.functions, rfl,
        hs.evaluable⟩
    · rw [if_neg (mt hfunctions.mp hnone)]
      exact ⟨_, _, _, (prints_print _).bind (prints_pure _), .begin hblank hnone, hs.solver, hs.optimize,
        hs.functions, rfl, hs.evaluable⟩
  · rw [if_neg (mt String.isEmpty_iff.mp hblank)]
    rcases reads_or_rejects (strip line) with ⟨e, hreads⟩ | ⟨err, hrejects⟩
    · obtain ⟨n, hn⟩ := Option.isSome_iff_exists.mp ((Node.isSome_ofExpr? e).trans hreads.evaluable.1)
      have hread := value_read_of_reads hreads
      rw [← hs.value_read hr] at hread
      have hparse : (s.solver.parse (strip line) (some s.optimize)).run.value =
          .ok (.ofNode (if optimize then (n.optimizeTree config.settings .empty).value else n)) := by
        rw [Solver.value_parse_of_read s.optimize hread hn, hs.optimize, hs.solver]
        rfl
      have haccepts : Accepts config.settings optimize (strip line) _ := ⟨e, n, hreads, hn, rfl⟩
      refine ⟨_, _, _, prints_attempt_of_ok hparse (prints_pure _), .function hblank haccepts, hs.solver,
        hs.optimize, ?_, hs.phase, ?_⟩
      · rw [List.map_append, hs.functions]
        rfl
      · exact List.forall_mem_append.mpr ⟨hs.evaluable, List.forall_mem_singleton.mpr haccepts.evaluable⟩
    · have hread := value_read_of_rejects hrejects
      rw [← hs.value_read hr] at hread
      exact ⟨_, _, _, prints_attempt_of_error (Solver.value_parse_of_error s.optimize hread),
        .noFunction hblank hrejects, hs⟩

/-- A line while values are read. -/
theorem step_tracing (hr : config.restrictVariables = true)
    (hs : s.Follows config optimize (.tracing fs t)) (line : String) :
    ∃ s' out st', Prints (s.step line) out s' ∧
      Line config.settings optimize (.tracing fs t) line out st' ∧ Follows config optimize s' st' := by
  have hmoved : ∀ t', Follows config optimize
      { s with solver := .configured config (bindings t'), phase := .values t' } (.tracing fs t') :=
    fun t' => ⟨rfl, hs.optimize, hs.functions, rfl, hs.evaluable⟩
  rw [step_of_values hs.phase]
  by_cases hquit : strip line = "quit"
  · rw [if_pos hquit]
    exact ⟨_, _, _, prints_pure _, .quit hquit, hs.solver, hs.optimize, hs.functions, rfl, hs.evaluable⟩
  rw [if_neg hquit]
  by_cases hblank : strip line = ""
  · rw [if_pos (String.isEmpty_iff.mpr hblank)]
    obtain ⟨vs, hrow⟩ := exists_row hs.evaluable (t + stepWidth)
    exact ⟨_, _, _, prints_moveTo hs hrow, .blank hblank hrow, hmoved _⟩
  rw [if_neg (mt String.isEmpty_iff.mp hblank)]
  rcases reads_or_rejects (strip line) with ⟨e, hreads⟩ | ⟨err, hrejects⟩
  · obtain ⟨n, hn⟩ := Option.isSome_iff_exists.mp ((Node.isSome_ofExpr? e).trans hreads.evaluable.1)
    obtain ⟨t', hvalue⟩ := hreads.evaluable.exists_value t
    obtain ⟨vs, hrow⟩ := exists_row hs.evaluable t'
    have hread := value_read_of_reads hreads
    rw [← hs.value_read hr] at hread
    have heval : (s.solver.evalText (strip line)).run.value = .ok t' := by
      rw [Solver.value_evalText_of_read hread hn, hs.solver]
      change (n.expr.eval (environment t)).mapError Error.eval = .ok t'
      rw [Node.expr_of_ofExpr? hn, hvalue]
      rfl
    exact ⟨_, _, _, prints_attempt_of_ok heval (prints_moveTo hs hrow),
      .value hblank hquit hreads hvalue hrow, hmoved t'⟩
  · have hread := value_read_of_rejects hrejects
    rw [← hs.value_read hr] at hread
    exact ⟨_, _, _, prints_attempt_of_error (Solver.value_evalText_of_error hread),
      .noValue hblank hquit hrejects, hs⟩

/-- One line is taken as the session asks for, and no line fails. -/
theorem step_spec (hr : config.restrictVariables = true) (hs : s.Follows config optimize st)
    (line : String) :
    ∃ s' out st', Prints (s.step line) out s' ∧
      Line config.settings optimize st line out st' ∧ Follows config optimize s' st' := by
  cases st with
  | entering fs => exact step_entering hr hs line
  | tracing fs t => exact step_tracing hr hs line
  | ended fs t =>
      rw [step_of_finished hs.phase]
      exact ⟨_, _, _, prints_pure s, .after, hs⟩

/-- So are any lines. -/
theorem foldlM_step_spec (hr : config.restrictVariables = true) (hs : s.Follows config optimize st)
    (lines : List String) :
    ∃ s' out st', Prints (lines.foldlM step s) out s' ∧
      Session config.settings optimize st lines out st' ∧ Follows config optimize s' st' := by
  induction lines generalizing s st with
  | nil => exact ⟨s, [], st, prints_pure s, .nil st, hs⟩
  | cons line lines ih =>
      obtain ⟨s₁, out, st₁, hprints, hline, hs₁⟩ := step_spec hr hs line
      obtain ⟨s', out', st', hprints', hsession, hs'⟩ := ih hs₁
      rw [List.foldlM_cons]
      exact ⟨s', out ++ out', st', hprints.bind hprints', .cons hline hsession, hs'⟩

/-! ### A run of the command line -/

/-- The tracer is in the phase of the session and has its functions.  Its bindings are
those of the present `t`: the variable has this value, and the constants have theirs. -/
structure Stands (s : Tracer) (st : Stage) : Prop where
  phase : s.phase = st.phase
  functions : s.functions.map LiveExpr.expr = st.functions
  bindings : s.solver.bindings = bindings st.t
  t : s.solver.bindings.get? "t" = some st.t
  pi : s.solver.bindings.get? "pi" = some 3.141592653589793
  euler : s.solver.bindings.get? "e" = some 2.718281828459045

theorem Follows.stands (hs : s.Follows config optimize st) : s.Stands st := by
  refine ⟨hs.phase, hs.functions, ?_, ?_, ?_, ?_⟩ <;> rw [hs.solver] <;> rfl

/-- Without expressions among the arguments, a run is one of the tracer. -/
theorem run_of_prints {argv : List String} {a : Arguments} {given : List (String × Float)}
    {stdin : String} {out : List String} (hargs : parseArguments argv = .ok a)
    (hexpressions : a.expressions = []) (hbindings : readBindings a.bindings = .ok given)
    (hrun : Prints ((start a.config (!a.noOptimize)).run (inputLines stdin)) out s) :
    (CommandLine.run argv stdin).code = 0 ∧ (CommandLine.run argv stdin).stdout = out := by
  have hwork : Prints (a.work given stdin) out () := by
    have hdone := hrun.bind (f := fun _ => (pure () : Work Unit)) (prints_pure ())
    rw [List.append_nil] at hdone
    rwa [Arguments.work, hexpressions]
  obtain ⟨hvalue, hprinted⟩ := hwork
  have houtput : CommandLine.run argv stdin = .ofPieces a.logger (a.work given stdin).run.trace 0 [] := by
    simp only [CommandLine.run, hargs, Arguments.run, hbindings, hvalue]
  rw [houtput]
  exact ⟨rfl, hprinted⟩

/-- **The tracer does what its lines say, whatever they are.**  If the arguments make
sense and have no expressions, a run on any input ends well, and what it prints behind
the first line is what a session on the lines of the input prints.  After any number of
lines, the tracer is where the session is then, with its functions in their order, and
with its `t` as the value of the variable. -/
theorem run_traces {argv : List String} {a : Arguments} {given : List (String × Float)}
    (hargs : parseArguments argv = .ok a) (hexpressions : a.expressions = [])
    (hbindings : readBindings a.bindings = .ok given) (stdin : String) (n : Nat) :
    ∃ s st last out rest,
      Session a.config.settings (!a.noOptimize) (.entering []) ((inputLines stdin).take n) out st ∧
        Session a.config.settings (!a.noOptimize) st ((inputLines stdin).drop n) rest last ∧
        ((start a.config (!a.noOptimize)).run ((inputLines stdin).take n)).run.value = .ok s ∧
        s.Stands st ∧ (CommandLine.run argv stdin).code = 0 ∧
        (CommandLine.run argv stdin).stdout = functionPrompt :: (out ++ rest) := by
  have hr : a.config.restrictVariables = true := rfl
  obtain ⟨s, out, st, hprints, hsession, hs⟩ :=
    foldlM_step_spec hr (follows_start a.config (!a.noOptimize)) ((inputLines stdin).take n)
  obtain ⟨s', rest, last, hprints', hsession', -⟩ := foldlM_step_spec hr hs ((inputLines stdin).drop n)
  have hrun : Prints ((start a.config (!a.noOptimize)).run ((inputLines stdin).take n))
      (functionPrompt :: out) s := (prints_print functionPrompt).bind hprints
  have hall : Prints ((start a.config (!a.noOptimize)).run (inputLines stdin))
      (functionPrompt :: (out ++ rest)) s' := by
    have hlines := hprints.bind (f := fun s => ((inputLines stdin).drop n).foldlM step s) hprints'
    rw [← List.foldlM_append, List.take_append_drop] at hlines
    exact (prints_print functionPrompt).bind hlines
  obtain ⟨hcode, hstdout⟩ := run_of_prints hargs hexpressions hbindings hall
  exact ⟨s, st, last, out, rest, hsession, hsession', hrun.1, hs.stands, hcode, hstdout⟩

/-- A run with options, on a function, a line that is none, and a value. -/
theorem run_traces_withOptions :
    ∃ s st last out rest,
      Session (Config.settings { rational := false }) true (.entering [])
          ((inputLines "2t\n)\n\nt + 1\n").take 2) out st ∧
        Session (Config.settings { rational := false }) true st
          ((inputLines "2t\n)\n\nt + 1\n").drop 2) rest last ∧
        ((start { rational := false } true).run ((inputLines "2t\n)\n\nt + 1\n").take 2)).run.value
          = .ok s ∧
        s.Stands st ∧
        (CommandLine.run ["--irrational", "--var", "x=1"] "2t\n)\n\nt + 1\n").code = 0 ∧
        (CommandLine.run ["--irrational", "--var", "x=1"] "2t\n)\n\nt + 1\n").stdout
          = functionPrompt :: (out ++ rest) :=
  have hargs : parseArguments ["--irrational", "--var", "x=1"]
      = .ok { irrational := true, bindings := ["x=1"] } := rfl
  have hbindings : readBindings ["x=1"] = .ok [("x", 1)] := rfl
  run_traces hargs rfl hbindings _ 2

example :
    printed ((start {} true).run ["2t", ")", "", "1", " ", "quit"]).run.trace =
      [functionPrompt, "Error: Unmatched closing parenthesis", valuePrompt, "t=1.0: (2.0)",
        "t=1.1: (2.2)"] := by
  decide +kernel

end Tracer

end CommandLine

end Formula
