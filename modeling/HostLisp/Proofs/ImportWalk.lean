import HostLisp.Compiler.Imports
import HostLisp.Proofs.Grammar
import HostLisp.Proofs.Parts
import Mathlib.Data.List.Nodup

/-!
# The depth-first walk over imports

What the compilation of a program with imports has to do, and in which order, said without its list of
pending forms. Forms go from left to right. An import stands for the modules it names, and the forms of a
module, with all that they import, come before the next name. A name is requested where it is first met.

* `Event`: something that a compilation does.
* `importNames?_eq_ok_iff`: the imports that keep the rules.
* `traceForms`, `traceNames`: **the events of the walk**, over forms and over the names of an import. A module
  is entered with its name among the requested ones, so that also a cycle of imports comes to an end.
* `WalkCases`: induction along the walk.
* `nodup_traceForms`: no name is requested twice.
-/

namespace HostLisp.Compiler

/-! ## Events -/

/-- Something that a compilation does. -/
inductive Event where
  /-- asks for a module -/
  | request (name : String)
  /-- compiles a form -/
  | emit (form : Form)
  /-- finds that an import breaks the rules -/
  | refuse (form : Form) (e : Error)

namespace Event

/-- The names that are asked for. -/
def requests (events : List Event) : List String :=
  events.filterMap fun
    | .request name => some name
    | _ => none

/-- The forms that are compiled. -/
def emitted (events : List Event) : List Form :=
  events.filterMap fun
    | .emit form => some form
    | _ => none

@[simp] theorem requests_nil : requests [] = [] := rfl

@[simp] theorem requests_request (name : String) (events : List Event) :
    requests (.request name :: events) = name :: requests events := rfl

@[simp] theorem requests_emit (form : Form) (events : List Event) :
    requests (.emit form :: events) = requests events := rfl

@[simp] theorem requests_refuse (form : Form) (e : Error) (events : List Event) :
    requests (.refuse form e :: events) = requests events := rfl

@[simp] theorem requests_append (events later : List Event) :
    requests (events ++ later) = requests events ++ requests later :=
  List.filterMap_append

@[simp] theorem emitted_nil : emitted [] = [] := rfl

@[simp] theorem emitted_request (name : String) (events : List Event) :
    emitted (.request name :: events) = emitted events := rfl

@[simp] theorem emitted_emit (form : Form) (events : List Event) :
    emitted (.emit form :: events) = form :: emitted events := rfl

@[simp] theorem emitted_refuse (form : Form) (e : Error) (events : List Event) :
    emitted (.refuse form e :: events) = emitted events := rfl

@[simp] theorem emitted_append (events later : List Event) :
    emitted (events ++ later) = emitted events ++ emitted later :=
  List.filterMap_append

end Event

open Event

/-! ## Imports that keep the rules -/

theorem moduleName_eq_ok {form : Form} {name : String} (h : Special.moduleName form = .ok name) :
    form = .literal (.string name) ∧ name ≠ "" := by
  unfold Special.moduleName at h
  split at h
  · split at h
    · cases h
    · rename_i hne
      cases h
      exact ⟨rfl, hne⟩
  · cases h

theorem mapM_moduleName_eq_ok_iff {args : List Form} {names : List String} :
    args.mapM Special.moduleName = .ok names ↔
      args = names.map (fun name => .literal (.string name)) ∧ ∀ name ∈ names, name ≠ "" := by
  induction args generalizing names with
  | nil => cases names <;> simp [pure, Except.pure]
  | cons arg args ih =>
    rw [List.mapM_cons, bind_eq_ok_iff]
    constructor
    · rintro ⟨name, hname, h⟩
      obtain ⟨rest, hrest, h⟩ := bind_eq_ok_iff.1 h
      cases h
      obtain ⟨rfl, hne⟩ := moduleName_eq_ok hname
      obtain ⟨rfl, hall⟩ := ih.1 hrest
      exact ⟨rfl, List.forall_mem_cons.2 ⟨hne, hall⟩⟩
    · rintro ⟨hargs, hall⟩
      cases names with
      | nil => cases hargs
      | cons name names =>
        obtain ⟨rfl, rfl⟩ := List.cons.inj hargs
        obtain ⟨hne, hall⟩ := List.forall_mem_cons.1 hall
        refine ⟨name, by simp [Special.moduleName, hne], ?_⟩
        rw [ih.2 ⟨rfl, hall⟩]
        rfl

theorem moduleNames_eq_ok_iff {whole : Form} {args : List Form} {names : List String} :
    Special.moduleNames whole args = .ok names ↔ names ≠ [] ∧
      args = names.map (fun name => .literal (.string name)) ∧ ∀ name ∈ names, name ≠ "" := by
  cases args with
  | nil => cases names <;> simp [Special.moduleNames, Special.refuse]
  | cons arg args =>
    rw [Special.moduleNames, mapM_moduleName_eq_ok_iff]
    · cases names <;> simp
    · rintro ⟨⟩

/-- The names stand one level deep. -/
theorem checkNesting_importForm (names : List String) :
    (importForm names).checkNesting Form.nestingLimit = .ok () := by
  have hargs : ∀ f ∈ names.map fun name => Form.literal (.string name), f.depth ≤ 0 := by
    intro f hf
    obtain ⟨name, -, rfl⟩ := List.mem_map.1 hf
    exact Nat.le_refl _
  have hdepth : (importForm names).depth ≤ 1 := by
    rw [importForm, Form.depth, Form.depthEach]
    simp [Form.depth, Form.depthEach_le_iff.2 hargs]
  have hlimit : Form.nestingLimit = 256 := rfl
  rw [Form.checkNesting_eq, if_neg (by omega)]

/-- **The imports that keep the rules**: those of at least one name, none of them empty. -/
theorem importNames?_eq_ok_iff {form : Form} {names : List String} :
    importNames? form = some (.ok names) ↔
      form = importForm names ∧ names ≠ [] ∧ ∀ name ∈ names, name ≠ "" := by
  constructor
  · intro h
    unfold importNames? at h
    split at h
    · rename_i args hspecial
      obtain ⟨head, rfl, hhead⟩ := Form.special?_eq_some hspecial
      obtain rfl : Keyword.importModules.name = head := by simpa using List.find?_some hhead
      obtain ⟨-, -, hargs⟩ := bind_eq_ok_iff.1 (Option.some.inj h)
      obtain ⟨hne, rfl, hall⟩ := moduleNames_eq_ok_iff.1 hargs
      exact ⟨rfl, hne, hall⟩
    · cases h
  · rintro ⟨rfl, hne, hall⟩
    have hspecial : (importForm names).special? =
        some (.importModules, names.map fun name => .literal (.string name)) := by
      have hkeyword : Keyword.ofName? Keyword.importModules.name = some .importModules := by decide
      simp [importForm, Form.special?, hkeyword]
    have hargs : Special.moduleNames (importForm names) (names.map fun name => .literal (.string name)) =
        .ok names :=
      moduleNames_eq_ok_iff.2 ⟨hne, rfl, hall⟩
    simp only [importNames?, hspecial, checkNesting_importForm, hargs]
    rfl

/-! ## The walk -/

theorem Library.remaining_append_le (library : Library) (requested more : List String) :
    library.remaining (requested ++ more) ≤ library.remaining requested := by
  apply List.countP_mono_left
  intro entry _ h
  simp only [decide_eq_true_eq, List.mem_append, not_or] at h ⊢
  exact h.1

/-- What is left to request does not grow, and something else gets smaller. -/
theorem lex_of_le {m n : Nat} {x y : Nat × Nat} (h : m ≤ n) (hxy : Prod.Lex (· < ·) (· < ·) x y) :
    Prod.Lex (· < ·) (Prod.Lex (· < ·) (· < ·)) (m, x) (n, y) := by
  rcases Nat.lt_or_eq_of_le h with hlt | rfl
  · exact .left _ _ hlt
  · exact .right _ hxy

mutual

/-- **The events of forms**, from left to right. An import that keeps the rules has the events of its names;
any other form is compiled. -/
def traceForms (library : Library) (requested : List String) : List Form → List Event
  | [] => []
  | form :: forms =>
    let first : List Event := match importNames? form with
      | none => [.emit form]
      | some (.error e) => [.refuse form e]
      | some (.ok names) => traceNames library requested names
    first ++ traceForms library (requested ++ requests first) forms
termination_by forms => (library.remaining requested, 1, forms.length)
decreasing_by
  -- from a form to its names nothing gets smaller but the tag
  · exact .right _ (.left _ _ Nat.zero_lt_one)
  · exact lex_of_le (Library.remaining_append_le _ _ _) (.right _ (by simp))

/-- **The events of the names of an import**, from left to right. A name that was requested is skipped. Any
other is requested, and the events of its forms come before those of the next name. -/
def traceNames (library : Library) (requested : List String) : List String → List Event
  | [] => []
  | name :: names =>
    if hnew : name ∈ requested then traceNames library requested names
    else
      let inner : List Event := match hforms : library.resolve name with
        | .ok forms =>
          have := Library.remaining_lt hnew hforms
          traceForms library (requested ++ [name]) forms
        | .error _ => []
      .request name :: (inner ++ traceNames library (requested ++ name :: requests inner) names)
termination_by names => (library.remaining requested, 0, names.length)
decreasing_by
  · exact .right _ (.right _ (by simp))
  -- a module may have any number of forms, but it is not entered again
  · exact .left _ _ this
  · exact lex_of_le (Library.remaining_append_le _ _ _) (.right _ (by simp))

end

section

variable {library : Library} {requested : List String}

@[simp] theorem traceForms_nil : traceForms library requested [] = [] := by
  rw [traceForms]

@[simp] theorem traceNames_nil : traceNames library requested [] = [] := by
  rw [traceNames]

theorem traceForms_emit {form : Form} (h : importNames? form = none) (forms : List Form) :
    traceForms library requested (form :: forms) = .emit form :: traceForms library requested forms := by
  rw [traceForms]
  simp [h]

theorem traceForms_refuse {form : Form} {e : Error} (h : importNames? form = some (.error e))
    (forms : List Form) :
    traceForms library requested (form :: forms) =
      .refuse form e :: traceForms library requested forms := by
  rw [traceForms]
  simp [h]

theorem traceForms_import {form : Form} {names : List String} (h : importNames? form = some (.ok names))
    (forms : List Form) :
    traceForms library requested (form :: forms) = traceNames library requested names ++
      traceForms library (requested ++ requests (traceNames library requested names)) forms := by
  rw [traceForms]
  simp [h]

theorem traceNames_of_mem {name : String} (h : name ∈ requested) (names : List String) :
    traceNames library requested (name :: names) = traceNames library requested names := by
  rw [traceNames, dif_pos h]

theorem traceNames_of_error {name : String} {e : Error} (hnew : name ∉ requested)
    (h : library.resolve name = .error e) (names : List String) :
    traceNames library requested (name :: names) =
      .request name :: traceNames library (requested ++ [name]) names := by
  rw [traceNames, dif_neg hnew]
  split
  · rename_i heq
    rw [h] at heq
    cases heq
  · simp

theorem traceNames_of_ok {name : String} {forms : List Form} (hnew : name ∉ requested)
    (h : library.resolve name = .ok forms) (names : List String) :
    traceNames library requested (name :: names) =
      .request name :: (traceForms library (requested ++ [name]) forms ++
        traceNames library
          (requested ++ [name] ++ requests (traceForms library (requested ++ [name]) forms)) names) := by
  rw [traceNames, dif_neg hnew]
  split
  · rename_i heq
    rw [h] at heq
    cases heq
    simp
  · rename_i heq
    rw [h] at heq
    cases heq

end

/-! ## Induction along the walk -/

/-- What has to be shown for `P` to hold of forms and `Q` of the names of an import, each with the names
requested before: one case for each thing that the walk meets. -/
structure WalkCases (library : Library) (P : List String → List Form → Prop)
    (Q : List String → List String → Prop) : Prop where
  nil (requested : List String) : P requested []
  emit {requested : List String} {form : Form} {forms : List Form} (hform : importNames? form = none)
    (ih : P requested forms) : P requested (form :: forms)
  refuse {requested : List String} {form : Form} {forms : List Form} {e : Error}
    (hform : importNames? form = some (.error e)) (ih : P requested forms) : P requested (form :: forms)
  imports {requested : List String} {form : Form} {forms : List Form} {names : List String}
    (hform : importNames? form = some (.ok names)) (hnames : Q requested names)
    (ih : P (requested ++ requests (traceNames library requested names)) forms) : P requested (form :: forms)
  done (requested : List String) : Q requested []
  skip {requested : List String} {name : String} {names : List String} (hold : name ∈ requested)
    (ih : Q requested names) : Q requested (name :: names)
  unresolved {requested : List String} {name : String} {names : List String} {e : Error}
    (hnew : name ∉ requested) (hforms : library.resolve name = .error e)
    (ih : Q (requested ++ [name]) names) : Q requested (name :: names)
  resolved {requested : List String} {name : String} {names : List String} {forms : List Form}
    (hnew : name ∉ requested) (hforms : library.resolve name = .ok forms)
    (hmodule : P (requested ++ [name]) forms)
    (ih : Q (requested ++ [name] ++ requests (traceForms library (requested ++ [name]) forms)) names) :
    Q requested (name :: names)

namespace WalkCases

variable {library : Library} {P : List String → List Form → Prop} {Q : List String → List String → Prop}

mutual

theorem forms (h : WalkCases library P Q) (requested : List String) (fs : List Form) : P requested fs := by
  match fs with
  | [] => exact h.nil requested
  | form :: fs =>
    match hform : importNames? form with
    | none => exact h.emit hform (h.forms requested fs)
    | some (.error e) => exact h.refuse hform (h.forms requested fs)
    | some (.ok names) => exact h.imports hform (h.names requested names) (h.forms _ fs)
termination_by (library.remaining requested, 1, fs.length)
decreasing_by
  · exact .right _ (.right _ (by simp))
  · exact .right _ (.right _ (by simp))
  · exact .right _ (.left _ _ Nat.zero_lt_one)
  · exact lex_of_le (Library.remaining_append_le _ _ _) (.right _ (by simp))

theorem names (h : WalkCases library P Q) (requested ns : List String) : Q requested ns := by
  match ns with
  | [] => exact h.done requested
  | name :: ns =>
    by_cases hold : name ∈ requested
    · exact h.skip hold (h.names requested ns)
    · match hforms : library.resolve name with
      | .error e => exact h.unresolved hold hforms (h.names _ ns)
      | .ok forms =>
        have hless := Library.remaining_lt hold hforms
        exact h.resolved hold hforms (h.forms _ forms) (h.names _ ns)
termination_by (library.remaining requested, 0, ns.length)
decreasing_by
  · exact .right _ (.right _ (by simp))
  · exact lex_of_le (Library.remaining_append_le _ _ _) (.right _ (by simp))
  · exact .left _ _ hless
  · exact .left _ _ (Nat.lt_of_le_of_lt (Library.remaining_append_le _ _ _) hless)

end

end WalkCases

/-- **No name is requested twice**, nor one that was requested before. -/
theorem nodup_traceForms (library : Library) {requested : List String} (h : requested.Nodup)
    (forms : List Form) : (requested ++ requests (traceForms library requested forms)).Nodup := by
  have hcases : WalkCases library
      (fun requested forms => requested.Nodup →
        (requested ++ requests (traceForms library requested forms)).Nodup)
      (fun requested names => requested.Nodup →
        (requested ++ requests (traceNames library requested names)).Nodup) := by
    have hsnoc : ∀ {requested : List String} {name : String}, name ∉ requested → requested.Nodup →
        (requested ++ [name]).Nodup := by
      intro requested name hnew h
      rw [← List.concat_eq_append]
      exact h.concat hnew
    constructor
    case nil | done => intro requested h; simpa using h
    case emit => intro requested form forms hform ih; rwa [traceForms_emit hform]
    case refuse => intro requested form forms e hform ih; rwa [traceForms_refuse hform]
    case imports =>
      intro requested form forms names hform hnames ih h
      rw [traceForms_import hform, requests_append, ← List.append_assoc]
      exact ih (hnames h)
    case skip => intro requested name names hold ih; rwa [traceNames_of_mem hold]
    case unresolved =>
      intro requested name names e hnew hforms ih h
      rw [traceNames_of_error hnew hforms, requests_request, List.append_cons]
      exact ih (hsnoc hnew h)
    case resolved =>
      intro requested name names forms hnew hforms hmodule ih h
      rw [traceNames_of_ok hnew hforms, requests_request, requests_append, List.append_cons,
        ← List.append_assoc]
      exact ih (hmodule (hsnoc hnew h))
  exact hcases.forms requested forms h

end HostLisp.Compiler
