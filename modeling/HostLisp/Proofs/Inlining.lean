import HostLisp.Proofs.ImportWalk

/-!
# Inlining follows the walk

Inlining keeps one list of pending forms. The forms of a module go in front of it, and behind them what is left
of the import, so that the import is looked at again when the module is done. The order that comes out is that
of the depth-first walk.

* `follow`: events in order, up to the first that fails.
* `inlineLog`: inlining with a record of its events; `inline_eq_inlineLog`: the record is of inlining.
* `inlineLog_append`: **inlining follows the walk over the forms that come first**, whatever is pending behind
  them.
* `compileWithImports_eq_ok_iff`, `failsAt_of_compileWithImports`: how the compilation of a program ends.
* `compileWithImports_follows`: it follows the walk, up to the first failure.
-/

namespace HostLisp.Compiler

open Host Event

/-! ## Following events -/

/-- What an event makes of a draft. -/
def Event.perform (config : Config) (library : Library) (d : Draft) : Event → Except Error Draft
  | .request name => (library.resolve name).map fun _ => d
  | .emit form => d.push config form
  | .refuse _ e => .error e

/-- What was done, and the draft that it led to or the failure that it ended in. -/
abbrev Logged := List Event × Except Error Draft

namespace Logged

/-- Goes on from the draft, if there is one. -/
def andThen (x : Logged) (next : Draft → Logged) : Logged :=
  match x with
  | (events, .error e) => (events, .error e)
  | (events, .ok d) => (events ++ (next d).1, (next d).2)

/-- One more event in front. -/
def after (event : Event) (x : Logged) : Logged := (event :: x.1, x.2)

theorem andThen_assoc (x : Logged) (f g : Draft → Logged) :
    (x.andThen f).andThen g = x.andThen fun d => (f d).andThen g := by
  obtain ⟨events, _ | d⟩ := x
  · rfl
  · simp only [andThen]
    obtain ⟨later, _ | d'⟩ := f d
    · rfl
    · simp [List.append_assoc]

theorem after_andThen (event : Event) (x : Logged) (f : Draft → Logged) :
    (x.after event).andThen f = (x.andThen f).after event := by
  obtain ⟨events, _ | d⟩ := x <;> rfl

theorem andThen_ok (x : Logged) : (x.andThen fun d => ([], .ok d)) = x := by
  obtain ⟨events, _ | d⟩ := x
  · rfl
  · simp [andThen]

theorem andThen_done (d : Draft) (f : Draft → Logged) : andThen ([], .ok d) f = f d := by
  simp [andThen]

end Logged

section

variable (config : Config) (library : Library)

/-- **Events in order, up to the first that fails.** The one that fails is the last that was done. -/
def follow (d : Draft) : List Event → Logged
  | [] => ([], .ok d)
  | event :: events =>
    match event.perform config library d with
    | .error e => ([event], .error e)
    | .ok d => (follow d events).after event

/-- **Inlining with a record of its events.** The loop is that of `inline`; each event is put down as it
happens. -/
def inlineLog (requested : List String) (d : Draft) : List Form → Logged
  | [] => ([], .ok d)
  | form :: pending =>
    match importNames? form with
    | none =>
      match d.push config form with
      | .error e => ([.emit form], .error e)
      | .ok d => (inlineLog requested d pending).after (.emit form)
    | some (.error e) => ([.refuse form e], .error e)
    | some (.ok names) =>
      match hnew : firstNew? requested names with
      | none => inlineLog requested d pending
      | some (name, rest) =>
        match hforms : library.resolve name with
        | .error e => ([.request name], .error e)
        | .ok forms =>
          have := Library.remaining_lt (firstNew?_new hnew) hforms
          (inlineLog (requested ++ [name]) d (forms ++ importRest rest ++ pending)).after (.request name)
termination_by pending => (library.remaining requested, pending.length)

end

variable {config : Config} {library : Library}

/-- What inlining does at an import that keeps the rules. -/
theorem inlineLog_import {form : Form} {names : List String} (h : importNames? form = some (.ok names))
    (requested : List String) (d : Draft) (pending : List Form) :
    inlineLog config library requested d (form :: pending) =
      match firstNew? requested names with
      | none => inlineLog config library requested d pending
      | some (name, rest) =>
        match library.resolve name with
        | .error e => ([.request name], .error e)
        | .ok forms =>
          (inlineLog config library (requested ++ [name]) d (forms ++ importRest rest ++ pending)).after
            (.request name) := by
  rw [inlineLog]
  simp only [h]
  split
  · rename_i hold
    rw [hold]
  · rename_i name rest hnew
    rw [hnew]
    simp only
    split
    · rename_i hforms
      rw [hforms]
    · rename_i hforms
      rw [hforms]

/-- **The record is of inlining**: it ends in the same draft or failure, and has the same requests. -/
theorem inline_eq_inlineLog (requested : List String) (d : Draft) (pending : List Form) :
    inline config library requested d pending =
      ((inlineLog config library requested d pending).2,
        requested ++ requests (inlineLog config library requested d pending).1) := by
  fun_induction inline config library requested d pending with
  | case1 requested d => simp [inlineLog]
  | case2 requested d form pending hno e hpush => simp [inlineLog, hno, hpush]
  | case3 requested d form pending hno d' hpush ih => simp [inlineLog, hno, hpush, ih, Logged.after]
  | case4 requested d form pending e hbad => simp [inlineLog, hbad]
  | case5 requested d form pending names hnames hold ih => rw [inlineLog_import hnames, hold, ih]
  | case6 requested d form pending names hnames name rest hnew e hforms =>
    simp [inlineLog_import hnames, hnew, hforms]
  | case7 requested d form pending names hnames name rest hnew forms hforms _ ih =>
    rw [inlineLog_import hnames, hnew, ih]
    simp [hforms, Logged.after]

/-! ## Inlining follows the walk -/

theorem firstNew?_cons_of_mem {requested names : List String} {name : String} (h : name ∈ requested) :
    firstNew? requested (name :: names) = firstNew? requested names := by
  rw [firstNew?, if_pos h]

/-- A name that was requested can be dropped from an import. -/
theorem inlineLog_importRest_of_mem {requested names : List String} {name : String} (h : name ∈ requested)
    (hall : ∀ n ∈ name :: names, n ≠ "") (d : Draft) (pending : List Form) :
    inlineLog config library requested d (importRest (name :: names) ++ pending) =
      inlineLog config library requested d (importRest names ++ pending) := by
  have hwhole : importNames? (importForm (name :: names)) = some (.ok (name :: names)) :=
    importNames?_eq_ok_iff.2 ⟨rfl, List.cons_ne_nil _ _, hall⟩
  have hrest : importRest (name :: names) ++ pending = importForm (name :: names) :: pending := rfl
  rw [hrest, inlineLog_import hwhole, firstNew?_cons_of_mem h]
  cases names with
  | nil => rfl
  | cons next names =>
    have htail : importNames? (importForm (next :: names)) = some (.ok (next :: names)) :=
      importNames?_eq_ok_iff.2 ⟨rfl, List.cons_ne_nil _ _, (List.forall_mem_cons.1 hall).2⟩
    exact (inlineLog_import htail requested d pending).symm

/-- A name that was not requested is, and its module comes before the rest of the import. -/
theorem inlineLog_importRest_of_notMem {requested names : List String} {name : String}
    (h : name ∉ requested) (hall : ∀ n ∈ name :: names, n ≠ "") (d : Draft) (pending : List Form) :
    inlineLog config library requested d (importRest (name :: names) ++ pending) =
      match library.resolve name with
      | .error e => ([.request name], .error e)
      | .ok forms =>
        (inlineLog config library (requested ++ [name]) d (forms ++ (importRest names ++ pending))).after
          (.request name) := by
  have hwhole : importNames? (importForm (name :: names)) = some (.ok (name :: names)) :=
    importNames?_eq_ok_iff.2 ⟨rfl, List.cons_ne_nil _ _, hall⟩
  have hrest : importRest (name :: names) ++ pending = importForm (name :: names) :: pending := rfl
  have hnew : firstNew? requested (name :: names) = some (name, names) := by rw [firstNew?, if_neg h]
  rw [hrest, inlineLog_import hwhole, hnew]
  simp only [List.append_assoc]

/-- An import that keeps the rules is what is left of it before its first name. -/
theorem inlineLog_eq_importRest {form : Form} {names : List String}
    (h : importNames? form = some (.ok names)) (requested : List String) (d : Draft) (pending : List Form) :
    inlineLog config library requested d (form :: pending) =
      inlineLog config library requested d (importRest names ++ pending) := by
  obtain ⟨rfl, hne, -⟩ := importNames?_eq_ok_iff.1 h
  cases names with
  | nil => exact absurd rfl hne
  | cons name names => rfl

theorem follow_append (d : Draft) (events later : List Event) :
    follow config library d (events ++ later) =
      (follow config library d events).andThen fun d => follow config library d later := by
  induction events generalizing d with
  | nil => rw [follow, Logged.andThen_done, List.nil_append]
  | cons event events ih =>
    rw [List.cons_append, follow, follow]
    cases hevent : event.perform config library d with
    | error e => rfl
    | ok d' =>
      simp only
      rw [ih, Logged.after_andThen]

/-- **Inlining follows the walk over the forms that come first**, and goes on with what is pending. -/
theorem inlineLog_append (requested : List String) (d : Draft) (forms pending : List Form) :
    inlineLog config library requested d (forms ++ pending) =
      (follow config library d (traceForms library requested forms)).andThen fun d =>
        inlineLog config library (requested ++ requests (traceForms library requested forms)) d pending := by
  -- the names of an import are pending in the form of the import that is left of them
  have hcases : WalkCases library
      (fun requested forms => ∀ d pending, inlineLog config library requested d (forms ++ pending) =
        (follow config library d (traceForms library requested forms)).andThen fun d =>
          inlineLog config library (requested ++ requests (traceForms library requested forms)) d pending)
      (fun requested names => (∀ name ∈ names, name ≠ "") → ∀ d pending,
        inlineLog config library requested d (importRest names ++ pending) =
          (follow config library d (traceNames library requested names)).andThen fun d =>
            inlineLog config library (requested ++ requests (traceNames library requested names)) d
              pending) := by
    constructor
    case nil =>
      intro requested d pending
      simp [follow, Logged.andThen_done]
    case emit =>
      intro requested form forms hform ih d pending
      rw [traceForms_emit hform, List.cons_append, inlineLog, hform, follow, perform]
      cases d.push config form with
      | error e => rfl
      | ok d' =>
        simp only [requests_emit]
        rw [ih d' pending, Logged.after_andThen]
    case refuse =>
      intro requested form forms e hform _ d pending
      rw [traceForms_refuse hform, List.cons_append, inlineLog, hform]
      rfl
    case imports =>
      -- the names of the import first, then the forms behind it
      intro requested form forms names hform hnames ih d pending
      have hall := (importNames?_eq_ok_iff.1 hform).2.2
      rw [traceForms_import hform, List.cons_append, inlineLog_eq_importRest hform, hnames hall,
        follow_append, Logged.andThen_assoc, requests_append, ← List.append_assoc]
      simp only [ih]
    case done =>
      intro requested _ d pending
      simp [follow, Logged.andThen_done, importRest]
    case skip =>
      intro requested name names hold ih hall d pending
      rw [inlineLog_importRest_of_mem hold hall, traceNames_of_mem hold]
      exact ih (List.forall_mem_cons.1 hall).2 d pending
    case unresolved =>
      intro requested name names e hnew hforms _ hall d pending
      rw [inlineLog_importRest_of_notMem hnew hall, hforms, traceNames_of_error hnew hforms, follow, perform,
        hforms]
      rfl
    case resolved =>
      -- the forms of the module first, then the names that are left
      intro requested name names forms hnew hforms hmodule ih hall d pending
      have hrest := ih (List.forall_mem_cons.1 hall).2
      have hasked : ∀ inner later,
          requested ++ name :: (inner ++ later) = requested ++ [name] ++ inner ++ later := by simp
      rw [inlineLog_importRest_of_notMem hnew hall, hforms, traceNames_of_ok hnew hforms, follow, perform,
        hforms]
      simp only [Except.map, requests_request, requests_append]
      rw [hmodule, Logged.after_andThen, follow_append, Logged.andThen_assoc, hasked]
      simp only [hrest]
  exact hcases.forms requested forms d pending

/-- **Inlining does what following the walk does.** -/
theorem inlineLog_eq_follow (requested : List String) (d : Draft) (forms : List Form) :
    inlineLog config library requested d forms =
      follow config library d (traceForms library requested forms) := by
  have hnone : ∀ asked d, inlineLog config library asked d [] = ([], .ok d) := fun asked d => by
    rw [inlineLog]
  have h := @inlineLog_append config library requested d forms []
  simp only [List.append_nil, hnone, Logged.andThen_ok] at h
  exact h

/-! ## The end of a walk -/

/-- Events that lead to a draft one after the other, up to the last of them, which fails. -/
def FailsAt (config : Config) (library : Library) (d : Draft) (events : List Event) (e : Error) : Prop :=
  ∃ done last d', events = done ++ [last] ∧ done.foldlM (perform config library) d = .ok d' ∧
    last.perform config library d' = .error e

theorem follow_snd (d : Draft) (events : List Event) :
    (follow config library d events).2 = events.foldlM (perform config library) d := by
  induction events generalizing d with
  | nil => rfl
  | cons event events ih =>
    rw [follow, List.foldlM_cons]
    cases event.perform config library d with
    | error e => rfl
    | ok d' => exact ih d'

theorem follow_isPrefix (d : Draft) (events : List Event) : (follow config library d events).1 <+: events := by
  induction events generalizing d with
  | nil => exact List.prefix_rfl
  | cons event events ih =>
    rw [follow]
    cases event.perform config library d with
    | error e => exact ⟨events, rfl⟩
    | ok d' => exact List.cons_prefix_cons.2 ⟨rfl, ih d'⟩

theorem follow_fst_of_ok {d d' : Draft} {events : List Event}
    (h : (follow config library d events).2 = .ok d') : (follow config library d events).1 = events := by
  induction events generalizing d with
  | nil => rfl
  | cons event events ih =>
    rw [follow] at h ⊢
    cases hevent : event.perform config library d with
    | error e =>
      rw [hevent] at h
      cases h
    | ok d₁ =>
      rw [hevent] at h
      exact congrArg (event :: ·) (ih h)

theorem follow_failsAt {d : Draft} {events : List Event} {e : Error}
    (h : (follow config library d events).2 = .error e) :
    FailsAt config library d (follow config library d events).1 e := by
  induction events generalizing d with
  | nil => cases h
  | cons event events ih =>
    rw [follow] at h ⊢
    cases hevent : event.perform config library d with
    | error e' =>
      rw [hevent] at h
      cases h
      exact ⟨[], event, d, rfl, rfl, hevent⟩
    | ok d₁ =>
      rw [hevent] at h
      obtain ⟨done, last, d', hevents, hdone, hlast⟩ := ih h
      refine ⟨event :: done, last, d', congrArg (event :: ·) hevents, ?_, hlast⟩
      rw [List.foldlM_cons, hevent]
      exact hdone

/-! ## Programs -/

/-- What the compilation of a program does, in order: nothing if it cannot begin. -/
def history (config : Config) (library : Library) (ρ : Renaming) (forms : List Form) : List Event :=
  match Draft.begin config ρ forms with
  | .error _ => []
  | .ok d => (inlineLog config library [] d forms).1

theorem compileWithImports_of_begin_error {ρ : Renaming} {forms : List Form} {e : Error}
    (h : Draft.begin config ρ forms = .error e) :
    compileWithImports config library ρ forms = (.error e, []) ∧ history config library ρ forms = [] := by
  simp [compileWithImports, history, h]

theorem compileWithImports_of_begin {ρ : Renaming} {forms : List Form} {d : Draft}
    (h : Draft.begin config ρ forms = .ok d) :
    compileWithImports config library ρ forms =
        ((follow config library d (traceForms library [] forms)).2.map fun d => d.program.render config.indent,
          requests (history config library ρ forms)) ∧
      history config library ρ forms = (follow config library d (traceForms library [] forms)).1 := by
  simp [compileWithImports, history, h, inline_eq_inlineLog, inlineLog_eq_follow]

section

variable {ρ : Renaming} {forms : List Form}

/-- The requests for a program are those of its history. -/
theorem requests_history :
    (compileWithImports config library ρ forms).2 = requests (history config library ρ forms) := by
  cases hbegin : Draft.begin config ρ forms with
  | error e =>
    obtain ⟨hrun, hhistory⟩ := @compileWithImports_of_begin_error config library ρ forms e hbegin
    rw [hrun, hhistory, requests_nil]
  | ok d => rw [(compileWithImports_of_begin hbegin).1]

/-- The history of a program is that of the walk, up to some event. -/
theorem history_isPrefix : history config library ρ forms <+: traceForms library [] forms := by
  cases hbegin : Draft.begin config ρ forms with
  | error e =>
    rw [(compileWithImports_of_begin_error hbegin).2]
    exact List.nil_prefix
  | ok d =>
    rw [(compileWithImports_of_begin hbegin).2]
    exact follow_isPrefix d _

/-- What is requested for a program is requested on the walk, in the same order. -/
theorem requests_sublist :
    (compileWithImports config library ρ forms).2.Sublist (requests (traceForms library [] forms)) := by
  rw [requests_history]
  exact history_isPrefix.sublist.filterMap _

/-- **A program compiles if every event of the walk leads on to a draft.** -/
theorem compileWithImports_eq_ok_iff {code : String} :
    (compileWithImports config library ρ forms).1 = .ok code ↔ ∃ d d', Draft.begin config ρ forms = .ok d ∧
      (traceForms library [] forms).foldlM (perform config library) d = .ok d' ∧
      d'.program.render config.indent = code := by
  cases hbegin : Draft.begin config ρ forms with
  | error e => simp [@compileWithImports_of_begin_error config library ρ forms e hbegin]
  | ok d =>
    rw [(@compileWithImports_of_begin config library ρ forms d hbegin).1, follow_snd]
    cases hrun : (traceForms library [] forms).foldlM (perform config library) d with
    | error e => simp [Except.map, hrun]
    | ok d' => simp [Except.map, hrun]

/-- A program that does not compile cannot begin, or the last event of its history fails. -/
theorem failsAt_of_compileWithImports {e : Error}
    (h : (compileWithImports config library ρ forms).1 = .error e) :
    Draft.begin config ρ forms = .error e ∧ history config library ρ forms = [] ∨
      ∃ d, Draft.begin config ρ forms = .ok d ∧
        FailsAt config library d (history config library ρ forms) e := by
  cases hbegin : Draft.begin config ρ forms with
  | error e' =>
    obtain ⟨hrun, hhistory⟩ := @compileWithImports_of_begin_error config library ρ forms e' hbegin
    rw [hrun] at h
    cases h
    exact .inl ⟨rfl, hhistory⟩
  | ok d =>
    obtain ⟨hrun, hhistory⟩ := @compileWithImports_of_begin config library ρ forms d hbegin
    rw [hrun] at h
    cases hout : (follow config library d (traceForms library [] forms)).2 with
    | error e' =>
      rw [hout] at h
      cases h
      rw [hhistory]
      exact .inr ⟨d, rfl, follow_failsAt hout⟩
    | ok d' =>
      rw [hout] at h
      cases h

end

/-- **The compilation of a program follows the walk in depth over its imports.** Its events are all those of
the walk if it succeeds, and up to the first that fails otherwise; its requests are theirs, none of them made
twice. An import that breaks the rules fails before anything more is requested. -/
theorem compileWithImports_follows (config : Config) (library : Library) (ρ : Renaming) (forms : List Form) :
    (compileWithImports config library ρ forms).2 = requests (history config library ρ forms) ∧
      (compileWithImports config library ρ forms).2.Nodup ∧
      history config library ρ forms <+: traceForms library [] forms ∧
      (∀ text, (compileWithImports config library ρ forms).1 = .ok text →
        history config library ρ forms = traceForms library [] forms ∧
          ∃ d d', Draft.begin config ρ forms = .ok d ∧
            (traceForms library [] forms).foldlM (perform config library) d = .ok d' ∧
            d'.program.render config.indent = text) ∧
      (∀ e, (compileWithImports config library ρ forms).1 = .error e →
        Draft.begin config ρ forms = .error e ∧ history config library ρ forms = [] ∨
          ∃ d, Draft.begin config ρ forms = .ok d ∧
            FailsAt config library d (history config library ρ forms) e) ∧
      ∀ form e, importNames? form = some (.error e) → ∀ requested d pending,
        inline config library requested d (form :: pending) = (.error e, requested) := by
  have hnodup : (compileWithImports config library ρ forms).2.Nodup := by
    have hall := nodup_traceForms library List.nodup_nil forms
    rw [List.nil_append] at hall
    exact hall.sublist requests_sublist
  refine ⟨requests_history, hnodup, history_isPrefix, ?_, fun e => failsAt_of_compileWithImports, ?_⟩
  · intro text htext
    obtain ⟨d, d', hbegin, hrun, hcode⟩ := compileWithImports_eq_ok_iff.1 htext
    have hall : history config library ρ forms = traceForms library [] forms := by
      rw [(compileWithImports_of_begin hbegin).2]
      exact follow_fst_of_ok ((follow_snd d _).trans hrun)
    exact ⟨hall, d, d', hbegin, hrun, hcode⟩
  · intro form e hform requested d pending
    rw [inline, hform]

end HostLisp.Compiler
