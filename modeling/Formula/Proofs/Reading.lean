/-
Formula/Proofs/Reading.lean

Reading a text as a whole: scanning it, parsing its tokens, and adding the tree to
a graph.

The leaves of the tree of a phrase are the numbers and names of the phrase, from
left to right (`Derives.leaves_eq`): no rule of the grammar drops, repeats or moves
a leaf.  Which names are known matters to the leaves alone, so a phrase over known
names is a phrase whose names are known (`derives_iff_namesKnown`).  And a filled tree
that is added to a graph becomes a well-formed tree of new cells, of which the root
has no parent (`Workspace.read_spec`).

So a text is read, or it has no tokens, or they are no sentence (`read_text`).
-/
import Formula.Graph.Workspace
import Formula.Proofs.Graph.Building
import Formula.Proofs.Parser
import Formula.Solver.Report

namespace Formula

universe u

/-! ### Leaves -/

/-- The constants and variables of an expression from left to right. -/
def Expr.leaves {α : Type u} : Expr α → List (Expr α)
  | hole => []
  | const v => [const v]
  | var x => [var x]
  | unary _ x => x.leaves
  | binary _ l r => l.leaves ++ r.leaves

/-- Whether a token stands for a leaf. -/
def Token.isLeaf : Token → Bool
  | number _ | identifier _ => true
  | _ => false

/-- The leaf that a token stands for, if it does and can be read. -/
def Token.leaf? {α : Type u} [Numeral α] : Token → Option (Expr α)
  | number s => (Numeral.ofText? s).map .const
  | identifier x => some (.var x)
  | _ => none

theorem Token.isLeaf_of_binary {t : Token} {op : BinaryOp} (h : t.role = .binary op) :
    t.isLeaf = false := by
  cases t <;> cases h <;> rfl

theorem Token.isLeaf_of_function {t : Token} {op : UnaryOp} (h : t.role = .function op) :
    t.isLeaf = false := by
  cases t <;> cases h <;> rfl

section

variable {α : Type u} [Numeral α] {known : String → Bool} {level : Precedence} {ts : List Token}
  {e : Expr α}

/-- A phrase has a filled tree. -/
theorem Derives.isFilled (h : Derives known level ts e) : e.isFilled := by
  induction h with
  | number | name => rfl
  | group _ ih | function _ _ ih | negation _ ih | tighter _ ih => exact ih
  | binary _ _ _ ihl ihr | subtraction _ _ ihl ihr | juxtaposition _ _ _ ihl ihr =>
      exact Bool.and_eq_true_iff.mpr ⟨ihl, ihr⟩

/-- The leaves of a phrase are those of its tree. -/
theorem Derives.leaves_eq (h : Derives known level ts e) :
    (ts.filter Token.isLeaf).map Token.leaf? = e.leaves.map some := by
  induction h with
  | @number s v hv =>
      change [(Numeral.ofText? s).map Expr.const] = [some (.const v)]
      rw [hv, Option.map_some]
  | name => rfl
  | @group ts e _ ih =>
      -- parentheses stand for no leaf
      have hclose : ([.closeParen] : List Token).filter Token.isLeaf = [] := rfl
      rw [List.filter_cons_of_neg (by simp [Token.isLeaf]), List.filter_append, hclose, List.append_nil]
      exact ih
  | function ht _ ih =>
      rw [List.filter_cons_of_neg (by simp [Token.isLeaf_of_function ht])]
      exact ih
  | negation _ ih => exact ih
  | binary ht _ _ ihl ihr =>
      rw [List.filter_append, List.filter_cons_of_neg (by simp [Token.isLeaf_of_binary ht]),
        List.map_append, ihl, ihr, Expr.leaves, List.map_append]
  | subtraction _ _ ihl ihr =>
      rw [List.filter_append, List.filter_cons_of_neg (by simp [Token.isLeaf]),
        List.map_append, ihl, ihr, Expr.leaves, List.map_append]
  | juxtaposition _ _ _ ihl ihr =>
      rw [List.filter_append, List.map_append, ihl, ihr, Expr.leaves, List.map_append]
  | tighter _ ih => exact ih

/-- A phrase whose tree is a variable names it. -/
theorem Derives.mem_of_var {x : String} (h : Derives (α := α) known level ts (.var x)) :
    .identifier x ∈ ts := by
  have hmem : some (Expr.var x) ∈ (ts.filter Token.isLeaf).map (Token.leaf? (α := α)) := by
    rw [h.leaves_eq]
    exact List.mem_singleton_self _
  obtain ⟨t, ht, hleaf⟩ := List.mem_map.mp hmem
  cases t with
  | identifier y =>
      cases hleaf
      exact (List.mem_filter.mp ht).1
  | number s =>
      obtain ⟨v, -, hv⟩ := Option.map_eq_some_iff.mp hleaf
      cases hv
  | _ => cases hleaf

/-! ### Known names -/

/-- All names among the tokens are known. -/
def NamesKnown (known : String → Bool) (ts : List Token) : Prop :=
  ∀ x, .identifier x ∈ ts → known x

theorem namesKnown_append {ts us : List Token} :
    NamesKnown known (ts ++ us) ↔ NamesKnown known ts ∧ NamesKnown known us := by
  simp only [NamesKnown, List.mem_append, or_imp, forall_and]

theorem namesKnown_cons {t : Token} :
    NamesKnown known (t :: ts) ↔ (∀ x, t = .identifier x → known x) ∧ NamesKnown known ts := by
  simp only [NamesKnown, List.mem_cons, or_imp, forall_and, eq_comm]

/-- A token that stands for no leaf names nothing. -/
theorem namesKnown_cons_of_isLeaf {t : Token} (ht : t.isLeaf = false) :
    NamesKnown known (t :: ts) ↔ NamesKnown known ts := by
  refine namesKnown_cons.trans (and_iff_right ?_)
  rintro x rfl
  cases ht

/-- The names of a phrase are known. -/
theorem Derives.namesKnown (h : Derives known level ts e) : NamesKnown known ts := by
  induction h with
  | number => simp [NamesKnown]
  | name hx =>
      rintro y hy
      obtain rfl := Token.identifier.inj (List.mem_singleton.mp hy)
      exact hx
  | group _ ih =>
      exact (namesKnown_cons_of_isLeaf rfl).mpr (namesKnown_append.mpr ⟨ih, by simp [NamesKnown]⟩)
  | function ht _ ih => exact (namesKnown_cons_of_isLeaf (Token.isLeaf_of_function ht)).mpr ih
  | negation _ ih => exact (namesKnown_cons_of_isLeaf rfl).mpr ih
  | binary ht _ _ ihl ihr =>
      exact namesKnown_append.mpr
        ⟨ihl, (namesKnown_cons_of_isLeaf (Token.isLeaf_of_binary ht)).mpr ihr⟩
  | subtraction _ _ ihl ihr =>
      exact namesKnown_append.mpr ⟨ihl, (namesKnown_cons_of_isLeaf rfl).mpr ihr⟩
  | juxtaposition _ _ _ ihl ihr => exact namesKnown_append.mpr ⟨ihl, ihr⟩
  | tighter _ ih => exact ih

/-- Nothing but the names of a phrase has to be known. -/
theorem Derives.of_namesKnown {known' : String → Bool} (h : Derives known level ts e)
    (hnames : NamesKnown known' ts) : Derives known' level ts e := by
  induction h with
  | number hv => exact .number hv
  | name => exact .name (hnames _ (List.mem_singleton_self _))
  | group _ ih =>
      have hinside := (namesKnown_cons_of_isLeaf rfl).mp hnames
      exact .group (ih (namesKnown_append.mp hinside).1)
  | function ht _ ih =>
      exact .function ht (ih ((namesKnown_cons_of_isLeaf (Token.isLeaf_of_function ht)).mp hnames))
  | negation _ ih => exact .negation (ih ((namesKnown_cons_of_isLeaf rfl).mp hnames))
  | binary ht _ _ ihl ihr =>
      obtain ⟨hl, hr⟩ := namesKnown_append.mp hnames
      exact .binary ht (ihl hl)
        (ihr ((namesKnown_cons_of_isLeaf (Token.isLeaf_of_binary ht)).mp hr))
  | subtraction _ _ ihl ihr =>
      obtain ⟨hl, hr⟩ := namesKnown_append.mp hnames
      exact .subtraction (ihl hl) (ihr ((namesKnown_cons_of_isLeaf rfl).mp hr))
  | juxtaposition hside _ _ ihl ihr =>
      obtain ⟨hl, hr⟩ := namesKnown_append.mp hnames
      exact .juxtaposition hside (ihl hl) (ihr hr)
  | tighter _ ih => exact .tighter (ih hnames)

/-- A phrase over known names is a phrase whose names are known. -/
theorem derives_iff_namesKnown :
    Derives known level ts e ↔ Derives anyName level ts e ∧ NamesKnown known ts :=
  ⟨fun h => ⟨h.of_namesKnown fun _ _ => rfl, h.namesKnown⟩, fun h => h.1.of_namesKnown h.2⟩

end

/-! ### Reading into a graph -/

/-- The tree of a filled expression is added: it is well-formed, its root has no
parent, it reads out as the expression, and it is measured. -/
theorem Workspace.read_spec {w : Workspace} (hw : w.graph.Reachable) {text : String}
    {e : Expr Float} (he : e.isFilled) (hread : readExpr text = .ok e) :
    ∃ w' i, w.read text = .ok (w', some i) ∧ w'.graph.isWellFormed i = true ∧
      w'.graph.parent? i = none ∧ w'.graph.expr i = e ∧ (w'.graph.size i).2 = e.size := by
  obtain ⟨n, hn⟩ := Option.isSome_iff_exists.mp ((Node.isSome_ofExpr? e).trans he)
  obtain rfl := Node.expr_of_ofExpr? hn
  obtain ⟨g', i, F, hbuild, hmakes⟩ := Graph.build_spec (K := fun _ _ => True) (R := fun _ => True)
    (g := w.graph) n fun _ _ => trivial
  have hsame := Graph.sameTrees_size g' i
  have hholds := hmakes.holds.sameTrees hsame
  have hsizes := hw.sound.sizes.edits (hmakes.edits.trans (.single (.size (i := i))))
  refine ⟨⟨(g'.size i).1, w.handles⟩, i, ?_, Graph.isWellFormed_iff.mpr ⟨_, _, hholds⟩, ?_, ?_, ?_⟩
  · have hadd : w.build n.expr = (⟨g', w.handles⟩, some i) := by simp [Workspace.build, hbuild]
    refine bind_eq_ok.mpr ⟨n.expr, hread, ?_⟩
    rw [hadd]
    rfl
  · rw [hsame.parent?]
    have hadded := (Graph.added_build w.graph n.expr).2 i
    rw [hbuild] at hadded
    exact (hadded rfl).free
  · rw [hholds.expr_eq]
    exact n.expr_clean
  · rw [hholds.size_eq hsizes, ← Node.size_expr, n.expr_clean]

/-! ### Texts -/

/-- An error of a text: it has no tokens, or they are no sentence. -/
def Error.IsOfText : Error → Prop
  | .lex _ => True
  | .parse err => err.IsSyntax
  | _ => False

section

variable {known : String → Bool} {text : String} {ts : List Token} {e : Expr Float}

theorem value_read_of_error {err : LexError} (h : tokenize text = .error err) :
    (Reported.read known text).run.value = .error (.lex err) := by
  rw [Reported.read, h]
  rfl

theorem value_read_of_tokenize (h : tokenize text = .ok ts) :
    (Reported.read known text).run.value = (parse known ts).mapError .parse := by
  have hrest : Reported.read known text = (do
      let e ← Reported.ofExcept ((parse known ts).mapError .parse)
      Reported.report (.parsed ts.length e.size)
      return e) := by
    rw [Reported.read, h]
    rfl
  rw [hrest]
  cases parse (α := Float) known ts <;> rfl

/-- Without restriction this is reading an expression. -/
theorem value_read_anyName (text : String) :
    (Reported.read anyName text).run.value = readExpr text := by
  cases h : tokenize text with
  | error err =>
      rw [value_read_of_error h, readExpr, h]
      rfl
  | ok ts =>
      rw [value_read_of_tokenize h, readExpr, h]
      rfl

/-- The expression of a text is the tree of its tokens. -/
theorem value_read_eq_ok_iff (h : tokenize text = .ok ts) :
    (Reported.read known text).run.value = .ok e ↔ Derives known .extremum ts e := by
  rw [value_read_of_tokenize h, ← parse_eq_ok_iff]
  cases parse (α := Float) known ts <;> simp [Except.mapError]

/-- What has been read has tokens. -/
theorem exists_tokens_of_value_read (h : (Reported.read known text).run.value = .ok e) :
    ∃ ts, tokenize text = .ok ts := by
  cases htokens : tokenize text with
  | error err =>
      rw [value_read_of_error htokens] at h
      cases h
  | ok ts => exact ⟨ts, rfl⟩

/-- What cannot be read has no tokens, or they are no sentence. -/
theorem isOfText_of_value_read {err : Error} (h : (Reported.read known text).run.value = .error err) :
    err.IsOfText := by
  cases htokens : tokenize text with
  | error lexError =>
      rw [value_read_of_error htokens] at h
      obtain rfl := Except.error.inj h
      trivial
  | ok ts =>
      rw [value_read_of_tokenize htokens] at h
      cases hparse : parse (α := Float) known ts with
      | ok e => simp [hparse, Except.mapError] at h
      | error parseError =>
          simp only [hparse, Except.mapError, Except.error.injEq] at h
          subst h
          rcases exists_unreadable_of_parse hparse with hsyntax | ⟨t, hmem, ht⟩
          · exact hsyntax
          · exact absurd ht (not_isUnreadable_of_tokenize htokens hmem)

end

/-- **Every text is read, or turned down for what it says.**  Over any names, the
tree that is added to a graph is well-formed and has no parent above it, and its
leaves are the numbers and identifiers of the text in order; where there is no such
tree, the text has no tokens or they are no sentence.  Over known names the same
tree is read if all identifiers of the text are known, and in every other case the
text is turned down. -/
theorem read_text {w : Workspace} (hw : w.graph.Reachable) (text : String) :
    ((∃ ts e w' i, tokenize text = .ok ts ∧ (Reported.read anyName text).run.value = .ok e ∧
          (ts.filter Token.isLeaf).map Token.leaf? = e.leaves.map some ∧
          w.read text = .ok (w', some i) ∧ w'.graph.isWellFormed i = true ∧
          w'.graph.parent? i = none ∧ w'.graph.expr i = e) ∨
        ∃ err, err.IsOfText ∧ (Reported.read anyName text).run.value = .error err ∧
          w.read text = .error err) ∧
      ∀ known : String → Bool,
        (∀ ts e, tokenize text = .ok ts → (Reported.read anyName text).run.value = .ok e →
            (∀ x, .identifier x ∈ ts → known x) → (Reported.read known text).run.value = .ok e) ∧
          ((¬∃ ts e, tokenize text = .ok ts ∧ (Reported.read anyName text).run.value = .ok e ∧
              ∀ x, .identifier x ∈ ts → known x) →
            ∃ err, err.IsOfText ∧ (Reported.read known text).run.value = .error err) := by
  constructor
  · cases hread : (Reported.read anyName text).run.value with
    | error err =>
        refine .inr ⟨err, isOfText_of_value_read hread, rfl, ?_⟩
        rw [value_read_anyName] at hread
        rw [Workspace.read, hread]
        rfl
    | ok e =>
        obtain ⟨ts, htokens⟩ := exists_tokens_of_value_read hread
        have hderives := (value_read_eq_ok_iff htokens).mp hread
        rw [value_read_anyName] at hread
        obtain ⟨w', i, hadded, hwell, hparent, hexpr, -⟩ :=
          Workspace.read_spec hw hderives.isFilled hread
        exact .inl ⟨ts, e, w', i, htokens, rfl, hderives.leaves_eq, hadded, hwell, hparent, hexpr⟩
  · intro known
    refine ⟨fun ts e htokens hread hnames => ?_, fun hnone => ?_⟩
    · have hderives := (value_read_eq_ok_iff htokens).mp hread
      exact (value_read_eq_ok_iff htokens).mpr (derives_iff_namesKnown.mpr ⟨hderives, hnames⟩)
    · cases hread : (Reported.read known text).run.value with
      | error err => exact ⟨err, isOfText_of_value_read hread, rfl⟩
      | ok e =>
          obtain ⟨ts, htokens⟩ := exists_tokens_of_value_read hread
          have hderives := (value_read_eq_ok_iff htokens).mp hread
          obtain ⟨hany, hnames⟩ := derives_iff_namesKnown.mp hderives
          exact absurd ⟨ts, e, htokens, (value_read_eq_ok_iff htokens).mpr hany, hnames⟩ hnone

/-- A product without sign is read beside a negation, also over just the name in it,
and turned down over no names. -/
theorem read_text_product :
    let w : Workspace := ⟨((Graph.empty.add (.var "x")).1.newUnary .neg (some 0)).1, []⟩
    w.graph.Reachable ∧ ∃ e w' i, tokenize "2x" = .ok [.number "2", .identifier "x"] ∧
      (Reported.read anyName "2x").run.value = .ok e ∧
      e.leaves.map some = [(Numeral.ofText? "2").map .const, some (.var "x")] ∧
      w.read "2x" = .ok (w', some i) ∧ w'.graph.isWellFormed i = true ∧
      w'.graph.parent? i = none ∧ w'.graph.expr i = e ∧
      (Reported.read (· == "x") "2x").run.value = .ok e ∧
      ∃ err, err.IsOfText ∧ (Reported.read (fun _ => false) "2x").run.value = .error err := by
  intro w
  have hw : w.graph.Reachable := .newUnary _ _ (.newVar _ .empty)
  have htokens : tokenize "2x" = .ok [.number "2", .identifier "x"] := rfl
  have hok : (Reported.read anyName "2x").run.value.isOk = true := by decide +kernel
  obtain ⟨⟨ts, e, w', i, hts, hvalue, hleaves, hrest⟩ | ⟨err, -, herr, -⟩, hknown⟩ :=
    read_text hw "2x"
  · obtain rfl := Except.ok.inj (hts.symm.trans htokens)
    obtain ⟨hadded, hwell, hparent, hexpr⟩ := hrest
    refine ⟨hw, e, w', i, htokens, hvalue, hleaves.symm, hadded, hwell, hparent, hexpr,
      (hknown _).1 _ e htokens hvalue (by simp), (hknown _).2 ?_⟩
    rintro ⟨ts, e', hts', -, hnames⟩
    obtain rfl := Except.ok.inj (hts'.symm.trans htokens)
    cases hnames "x" (by simp)
  · rw [herr] at hok
    cases hok

end Formula
