import HostLisp.Proofs.Inlining

/-!
# Programs with imports and flat programs

The walk over imports leaves a list of forms without any, the flat program. It can be compiled as it is. That
differs from the compilation with imports in what is known at the start: how deep all forms are, and whether
one of them needs the symbol table. The first makes no difference, as each form is checked once more when its
turn comes. The second does: a table that is put in front later is reserved behind other names.

* `flat`: the forms that the walk compiles, in order.
* `foldlM_perform`: a walk on which nothing goes wrong is the compilation of its forms.
* `Draft.begin_eq_ok_iff`: when a draft can be begun, and with which table.
* `wantsTable_flat`: when the program alone decides on the table as the flat program does.
* `compileWithImports_eq_ok_iff_flat`: **a program with imports compiles to what its flat program compiles to**.
-/

namespace HostLisp

/-! ## The symbol table -/

namespace SymbolTable

theorem scanAny_eq_true_iff {c : Context} {forms : List Form} :
    scanAny c forms = true ↔ ∃ f ∈ forms, scan c f = true := by
  induction forms with
  | nil => simp [scanAny]
  | cons f forms ih => simp [scanAny, ih]

/-- Forms need the table if one of them does. -/
theorem needed_eq_true_iff {forms : List Form} :
    needed forms = true ↔ ∃ f ∈ forms, needed [f] = true := by
  simp [needed, scanAny_eq_true_iff]

/-- An import is no quotation, and names are no symbols. -/
theorem needed_importForm (names : List String) : needed [Compiler.importForm names] = false := by
  have hkeyword : Keyword.ofName? Keyword.importModules.name = some .importModules := by decide
  have hnames : scanAny .code (names.map fun name => .literal (.string name)) = false := by
    rw [Bool.eq_false_iff, Ne, scanAny_eq_true_iff]
    rintro ⟨f, hf, hscan⟩
    obtain ⟨name, -, rfl⟩ := List.mem_map.1 hf
    simp [scan] at hscan
  simp [needed, scanAny, Compiler.importForm, scan, hkeyword, hnames]

end SymbolTable

namespace Compiler

open Host Event

/-! ## The flat program -/

/-- Nothing goes wrong at an event of the walk: the module can be had, the import keeps the rules. -/
def Event.Succeeds (library : Library) : Event → Prop
  | .request name => ∃ forms, library.resolve name = .ok forms
  | .emit _ => True
  | .refuse _ _ => False

/-- **The flat program**: each module in the place of its first import, and no other imports of it. -/
def flat (library : Library) (forms : List Form) : List Form :=
  emitted (traceForms library [] forms)

section

variable {config : Config} {library : Library}

/-- **A walk on which nothing goes wrong is the compilation of its forms.** -/
theorem foldlM_perform {events : List Event} (h : ∀ event ∈ events, event.Succeeds library) (d : Draft) :
    events.foldlM (perform config library) d = (emitted events).foldlM (Draft.push config) d := by
  induction events generalizing d with
  | nil => rfl
  | cons event events ih =>
    obtain ⟨hevent, hevents⟩ := List.forall_mem_cons.1 h
    cases event with
    | request name =>
      -- a request that is met leaves the draft as it is
      obtain ⟨forms, hforms⟩ := hevent
      rw [emitted_request, List.foldlM_cons, perform, hforms]
      exact ih hevents d
    | emit form =>
      rw [emitted_emit, List.foldlM_cons, List.foldlM_cons]
      exact congrArg _ (funext fun d' => ih hevents d')
    | refuse form e => exact hevent.elim

/-- The forms that the walk compiles are no imports. -/
theorem importNames?_of_mem_flat {forms : List Form} {f : Form} (h : f ∈ flat library forms) :
    importNames? f = none := by
  have hcases : WalkCases library
      (fun requested forms => ∀ f ∈ emitted (traceForms library requested forms), importNames? f = none)
      (fun requested names => ∀ f ∈ emitted (traceNames library requested names), importNames? f = none) := by
    constructor
    case nil | done => simp
    case emit =>
      intro requested form forms hform ih
      rw [traceForms_emit hform, emitted_emit]
      exact List.forall_mem_cons.2 ⟨hform, ih⟩
    case refuse => intro requested form forms e hform ih; rwa [traceForms_refuse hform, emitted_refuse]
    case imports =>
      intro requested form forms names hform hnames ih
      rw [traceForms_import hform, emitted_append]
      exact List.forall_mem_append.2 ⟨hnames, ih⟩
    case skip => intro requested name names hold ih; rwa [traceNames_of_mem hold]
    case unresolved =>
      intro requested name names e hnew hforms ih
      rwa [traceNames_of_error hnew hforms, emitted_request]
    case resolved =>
      intro requested name names forms hnew hforms hmodule ih
      rw [traceNames_of_ok hnew hforms, emitted_request, emitted_append]
      exact List.forall_mem_append.2 ⟨hmodule, ih⟩
  exact hcases.forms [] forms f h

/-- A form of the program is compiled, or it is an import that keeps the rules. -/
theorem mem_emitted_or_eq_importForm {requested : List String} {forms : List Form}
    (h : ∀ event ∈ traceForms library requested forms, event.Succeeds library) {f : Form} (hf : f ∈ forms) :
    f ∈ emitted (traceForms library requested forms) ∨ ∃ names, f = importForm names := by
  induction forms generalizing requested with
  | nil => cases hf
  | cons form forms ih =>
    rcases hform : importNames? form with _ | e | names
    · rw [traceForms_emit hform] at h ⊢
      rw [emitted_emit]
      rcases List.mem_cons.1 hf with rfl | hf
      · exact .inl List.mem_cons_self
      · exact (ih (List.forall_mem_cons.1 h).2 hf).imp_left (List.mem_cons_of_mem _)
    · -- an import that breaks the rules would have been met
      rw [traceForms_refuse hform] at h
      exact (List.forall_mem_cons.1 h).1.elim
    · rw [traceForms_import hform] at h ⊢
      rcases List.mem_cons.1 hf with rfl | hf
      · exact .inr ⟨names, (importNames?_eq_ok_iff.1 hform).1⟩
      · rw [emitted_append]
        exact (ih (List.forall_mem_append.1 h).2 hf).imp_left (List.mem_append_right _)

/-- The walk over forms without imports compiles them one after the other. -/
theorem traceForms_of_no_imports {forms : List Form} (h : ∀ f ∈ forms, importNames? f = none)
    (requested : List String) : traceForms library requested forms = forms.map .emit := by
  induction forms with
  | nil => simp
  | cons form forms ih =>
    obtain ⟨hform, hforms⟩ := List.forall_mem_cons.1 h
    rw [traceForms_emit hform, ih hforms, List.map_cons]

theorem emitted_map_emit (forms : List Form) : emitted (forms.map .emit) = forms := by
  simp [emitted, List.filterMap_map]

theorem requests_map_emit (forms : List Form) : requests (forms.map .emit) = [] := by
  simp [requests, List.filterMap_map]

end

/-! ## How a draft begins -/

/-- Whether the table is put in front before any statement. -/
def wantsTable (config : Config) (forms : List Form) : Bool :=
  config.policy = .always || SymbolTable.needed forms

/-- The empty draft, with or without the table. -/
def Draft.blank (ρ : Renaming) (table : Bool) : Except Error Draft :=
  if table then Draft.addTable ⟨ρ, ⟨false, []⟩⟩ else .ok ⟨ρ, ⟨false, []⟩⟩

variable {config : Config} {library : Library} {ρ : Renaming} {forms : List Form}

theorem forM_checkNesting_eq_ok_iff :
    (forms.forM fun f => f.checkNesting Form.nestingLimit) = .ok () ↔
      ∀ f ∈ forms, f.checkNesting Form.nestingLimit = .ok () := by
  induction forms with
  | nil => simp [pure, Except.pure]
  | cons f forms ih =>
    rw [List.forall_mem_cons, ← ih, List.forM, bind_eq_ok_iff]
    exact ⟨fun ⟨_, hf, hforms⟩ => ⟨hf, hforms⟩, fun ⟨hf, hforms⟩ => ⟨(), hf, hforms⟩⟩

/-- **A draft begins** with forms none of which is too deep, and the table if they want it. -/
theorem Draft.begin_eq_ok_iff {d : Draft} :
    Draft.begin config ρ forms = .ok d ↔
      (∀ f ∈ forms, f.checkNesting Form.nestingLimit = .ok ()) ∧
        Draft.blank ρ (wantsTable config forms) = .ok d := by
  rw [Draft.begin, bind_eq_ok_iff, ← forM_checkNesting_eq_ok_iff]
  exact ⟨fun ⟨_, hforms, hd⟩ => ⟨hforms, hd⟩, fun ⟨hforms, hd⟩ => ⟨(), hforms, hd⟩⟩

/-- A form that was compiled is not too deep. -/
theorem checkNesting_of_foldlM_push {d d' : Draft} (h : forms.foldlM (Draft.push config) d = .ok d') :
    ∀ f ∈ forms, f.checkNesting Form.nestingLimit = .ok () := by
  induction forms generalizing d with
  | nil => simp
  | cons f forms ih =>
    rw [List.foldlM_cons] at h
    obtain ⟨d₁, hpush, hforms⟩ := bind_eq_ok_iff.1 h
    obtain ⟨_, hf, -⟩ := bind_eq_ok_iff.1 hpush
    exact List.forall_mem_cons.2 ⟨hf, ih hforms⟩

/-! ## The two ways to compile -/

/-- What the program needs is needed by a form that is no import, and that one is in the flat program. -/
theorem needed_flat (h : ∀ event ∈ traceForms library [] forms, event.Succeeds library)
    (hforms : SymbolTable.needed forms = true) : SymbolTable.needed (flat library forms) = true := by
  obtain ⟨f, hf, hscan⟩ := SymbolTable.needed_eq_true_iff.1 hforms
  rcases mem_emitted_or_eq_importForm h hf with hflat | ⟨names, rfl⟩
  · exact SymbolTable.needed_eq_true_iff.2 ⟨f, hflat, hscan⟩
  · rw [SymbolTable.needed_importForm] at hscan
    cases hscan

/-- The program wants the table at once exactly if the flat program does, provided that the modules do not
need it on their own. -/
theorem wantsTable_flat (h : ∀ event ∈ traceForms library [] forms, event.Succeeds library)
    (htable : config.policy = .always ∨ SymbolTable.needed forms = true ∨
      ∀ f ∈ flat library forms, SymbolTable.needed [f] = false) :
    wantsTable config forms = wantsTable config (flat library forms) := by
  rcases htable with hpolicy | hforms | hflat
  · simp [wantsTable, hpolicy]
  · simp [wantsTable, hforms, needed_flat h hforms]
  · have hnot : SymbolTable.needed (flat library forms) = false := by
      rw [Bool.eq_false_iff, Ne, SymbolTable.needed_eq_true_iff]
      rintro ⟨f, hf, hscan⟩
      rw [hflat f hf] at hscan
      cases hscan
    have hnone : SymbolTable.needed forms = false := by
      rw [Bool.eq_false_iff]
      intro hforms
      rw [needed_flat h hforms] at hnot
      cases hnot
    simp [wantsTable, hnot, hnone]

theorem compile_eq_ok_iff {code : String} :
    compile config ρ forms = .ok code ↔ ∃ d d', Draft.begin config ρ forms = .ok d ∧
      forms.foldlM (Draft.push config) d = .ok d' ∧ d'.program.render config.indent = code := by
  constructor
  · intro h
    cases hprogram : compileProgram config ρ forms with
    | error e =>
      rw [compile, hprogram] at h
      cases h
    | ok program =>
      rw [compile, hprogram] at h
      obtain ⟨d, hbegin, hprogram⟩ := bind_eq_ok_iff.1 hprogram
      obtain ⟨d', hpush, hprogram⟩ := bind_eq_ok_iff.1 hprogram
      cases hprogram
      exact ⟨d, d', hbegin, hpush, Except.ok.inj h⟩
  · rintro ⟨d, d', hbegin, hpush, rfl⟩
    simp [compile, compileProgram, hbegin, hpush, bind, Except.bind, pure, Except.pure, Except.map]

/-- **A program with imports compiles to what its flat program compiles to**, if nothing goes wrong on the
walk, and if the symbol table is put in front at once in both or in neither. The flat program has no imports.
It is the program itself if that has none, and then nothing is requested. -/
theorem compileWithImports_eq_ok_iff_flat
    (h : ∀ event ∈ traceForms library [] forms, event.Succeeds library)
    (htable : config.policy = .always ∨ SymbolTable.needed forms = true ∨
      ∀ f ∈ flat library forms, SymbolTable.needed [f] = false) :
    (∀ code, (compileWithImports config library ρ forms).1 = .ok code ↔
        compile config ρ (flat library forms) = .ok code) ∧
      (∀ f ∈ flat library forms, importNames? f = none) ∧
      ((∀ f ∈ forms, importNames? f = none) →
        flat library forms = forms ∧ (compileWithImports config library ρ forms).2 = []) := by
  refine ⟨?_, fun f => importNames?_of_mem_flat, ?_⟩
  · intro code
    have hbegin : ∀ {d d'}, (flat library forms).foldlM (Draft.push config) d = .ok d' →
        (Draft.begin config ρ forms = .ok d ↔ Draft.begin config ρ (flat library forms) = .ok d) := by
      intro d d' hpush
      -- the forms of the flat program were checked in their turn, and imports are never too deep
      have hdeep := checkNesting_of_foldlM_push hpush
      have hmain : ∀ f ∈ forms, f.checkNesting Form.nestingLimit = .ok () := by
        intro f hf
        rcases mem_emitted_or_eq_importForm h hf with hflat | ⟨names, rfl⟩
        · exact hdeep f hflat
        · exact checkNesting_importForm names
      rw [Draft.begin_eq_ok_iff, Draft.begin_eq_ok_iff, wantsTable_flat h htable]
      exact and_congr_left fun _ => iff_of_true hmain hdeep
    rw [compileWithImports_eq_ok_iff, compile_eq_ok_iff]
    simp only [foldlM_perform h]
    constructor
    · rintro ⟨d, d', hstart, hpush, hcode⟩
      exact ⟨d, d', (hbegin hpush).1 hstart, hpush, hcode⟩
    · rintro ⟨d, d', hstart, hpush, hcode⟩
      exact ⟨d, d', (hbegin hpush).2 hstart, hpush, hcode⟩
  · intro hnone
    have htrace := @traceForms_of_no_imports library forms hnone []
    have hasked := @requests_sublist config library ρ forms
    rw [htrace, requests_map_emit] at hasked
    exact ⟨by rw [flat, htrace, emitted_map_emit], List.sublist_nil.1 hasked⟩

/-- Three modules that import each other in a circle. -/
def circle : Library :=
  [("left", .ok [importForm ["base"], .symbol "x"]),
    ("right", .ok [importForm ["base", "left"], .literal (.string "right")]),
    ("base", .ok [importForm ["right"], .list [.symbol "var", .symbol "x", .literal (.string "base")]])]

/-- A program that enters the circle in two places. -/
def circleProgram : List Form := [importForm ["left", "right"], .symbol "x"]

theorem traceForms_circle : traceForms circle [] circleProgram =
    [.request "left", .request "base", .request "right", .emit (.literal (.string "right")),
      .emit (.list [.symbol "var", .symbol "x", .literal (.string "base")]), .emit (.symbol "x"),
      .emit (.symbol "x")] := by
  have himport : ∀ {requested names forms}, names ≠ [] → (∀ name ∈ names, name ≠ "") →
      traceForms circle requested (importForm names :: forms) = traceNames circle requested names ++
        traceForms circle (requested ++ requests (traceNames circle requested names)) forms :=
    fun hne hall => traceForms_import (importNames?_eq_ok_iff.2 ⟨rfl, hne, hall⟩) _
  have hleft := fun {requested names} (hnew : "left" ∉ requested) =>
    @traceNames_of_ok circle requested "left" _ hnew rfl names
  have hright := fun {requested names} (hnew : "right" ∉ requested) =>
    @traceNames_of_ok circle requested "right" _ hnew rfl names
  have hbase := fun {requested names} (hnew : "base" ∉ requested) =>
    @traceNames_of_ok circle requested "base" _ hnew rfl names
  have hvar := fun {requested forms} => @traceForms_emit circle requested
    (.list [.symbol "var", .symbol "x", .literal (.string "base")]) rfl forms
  have hx := fun {requested forms} => @traceForms_emit circle requested (.symbol "x") rfl forms
  have hword := fun {requested forms} =>
    @traceForms_emit circle requested (.literal (.string "right")) rfl forms
  simp [circleProgram, himport, hleft, hright, hbase, hvar, hx, hword, traceNames_of_mem]

theorem compileWithImports_eq_ok_iff_flat_circle :
    (∀ event ∈ traceForms circle [] circleProgram, event.Succeeds circle) ∧
      (∀ f ∈ flat circle circleProgram, SymbolTable.needed [f] = false) ∧
      (compileWithImports .default circle .empty circleProgram).1 =
        .ok "\"right\";\nvar x = \"base\";\nx;\nx;" := by
  have hmet : ∀ event ∈ traceForms circle [] circleProgram, event.Succeeds circle := by
    rw [traceForms_circle]
    simp only [List.forall_mem_cons, Event.Succeeds]
    exact ⟨⟨_, rfl⟩, ⟨_, rfl⟩, ⟨_, rfl⟩, trivial, trivial, trivial, trivial, List.forall_mem_nil _⟩
  have htable : ∀ f ∈ flat circle circleProgram, SymbolTable.needed [f] = false := by
    rw [flat, traceForms_circle]
    decide +kernel
  have hflat : compile .default .empty (flat circle circleProgram) =
      .ok "\"right\";\nvar x = \"base\";\nx;\nx;" := by
    have htext : (compile .default .empty (flat circle circleProgram)).toOption =
        some "\"right\";\nvar x = \"base\";\nx;\nx;" := by
      rw [flat, traceForms_circle]
      decide +kernel
    cases hcompile : compile .default .empty (flat circle circleProgram) with
    | error e => rw [hcompile] at htext; cases htext
    | ok code => rw [hcompile] at htext; exact congrArg _ (Option.some.inj htext)
  exact ⟨hmet, htable, ((compileWithImports_eq_ok_iff_flat hmet (.inr (.inr htable))).1 _).2 hflat⟩

end Compiler

end HostLisp
