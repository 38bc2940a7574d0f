import HostLisp.Compiler.Program

/-!
# Compiling programs with imports

`(import "a" "b")` at the top of a program stands for the forms of the modules, in their places. Modules
are requested one at a time, in the order in which their forms are needed, and at most once in a program:
the forms of a module come before the rest of the import that asked for it.

* `Library`: the modules that can be had.
* `inline`: compiles pending forms, with imports replaced as they come.
* `compileWithImports`: the text of a program, and what was requested for it.
-/

namespace HostLisp.Compiler

open Host

/-- Modules by name: their forms, or why they cannot be had. The first entry of a name counts. -/
abbrev Library := List (String × Except Error (List Form))

namespace Library

/-- The forms of a module. -/
def resolve (library : Library) (name : String) : Except Error (List Form) :=
  match library.lookup name with
  | some result => result
  | none => .error (.plain (.moduleUnavailable name "module not found"))

/-- How many entries have not been requested. -/
def remaining (library : Library) (requested : List String) : Nat :=
  library.countP fun entry => entry.1 ∉ requested

theorem remaining_le (library : Library) (requested : List String) (name : String) :
    library.remaining (requested ++ [name]) ≤ library.remaining requested := by
  apply List.countP_mono_left
  intro entry _ h
  simp only [decide_eq_true_eq, List.mem_append, not_or] at h ⊢
  exact h.1

/-- A first request of a module that can be had leaves fewer to request. -/
theorem remaining_lt {library : Library} {requested : List String} {name : String} {forms : List Form}
    (hnew : name ∉ requested) (h : library.resolve name = .ok forms) :
    library.remaining (requested ++ [name]) < library.remaining requested := by
  induction library with
  | nil => simp [resolve] at h
  | cons entry library ih =>
    obtain ⟨key, result⟩ := entry
    have hle := remaining_le library requested name
    unfold remaining at hle ih ⊢
    rw [List.countP_cons, List.countP_cons]
    by_cases he : name = key
    · subst he
      rw [if_neg (by simp), if_pos (by simpa using hnew)]
      omega
    · have hrest : Library.resolve library name = .ok forms := by
        have hne : (name == key) = false := by simpa using he
        simpa [resolve, List.lookup_cons, hne] using h
      have hlt := ih hrest
      have hsame : key ∈ requested ++ [name] ↔ key ∈ requested := by simp [Ne.symm he]
      simp only [hsame]
      omega

end Library

/-- The form that imports modules. -/
def importForm (names : List String) : Form :=
  .list (.symbol Keyword.importModules.name :: names.map fun name => .literal (.string name))

/-- What is left of an import: nothing, or the form that imports the remaining names. -/
def importRest (names : List String) : List Form :=
  if names.isEmpty then [] else [importForm names]

/-- The first name that has not been requested, and the names after it. -/
def firstNew? (requested : List String) : List String → Option (String × List String)
  | [] => none
  | name :: names => if name ∈ requested then firstNew? requested names else some (name, names)

theorem firstNew?_new {requested names rest : List String} {name : String}
    (h : firstNew? requested names = some (name, rest)) : name ∉ requested := by
  induction names with
  | nil => simp [firstNew?] at h
  | cons n names ih =>
    unfold firstNew? at h
    split at h
    · exact ih h
    · rename_i hn
      obtain ⟨rfl, -⟩ := Prod.mk.inj (Option.some.inj h)
      exact hn

/-- The names that a form imports, or `none` if the form is no import. -/
def importNames? (form : Form) : Option (Except Error (List String)) :=
  match form.special? with
  | some (.importModules, args) => some do
    form.checkNesting Form.nestingLimit
    Special.moduleNames form args
  | _ => none

/-- **Compiles pending forms**, with imports replaced as they come. The names requested so far come back
also from a failure. -/
def inline (config : Config) (library : Library) (requested : List String) (d : Draft) :
    List Form → Except Error Draft × List String
  | [] => (.ok d, requested)
  | form :: pending =>
    match importNames? form with
    | none =>
      match d.push config form with
      | .error e => (.error e, requested)
      | .ok d => inline config library requested d pending
    | some (.error e) => (.error e, requested)
    | some (.ok names) =>
      match hnew : firstNew? requested names with
      | none => inline config library requested d pending
      | some (name, rest) =>
        match hforms : library.resolve name with
        | .error e => (.error e, requested ++ [name])
        | .ok forms =>
          have := Library.remaining_lt (firstNew?_new hnew) hforms
          inline config library (requested ++ [name]) d (forms ++ importRest rest ++ pending)
termination_by pending => (library.remaining requested, pending.length)

/-- **The host text of a program with imports**, and the modules requested for it. -/
def compileWithImports (config : Config) (library : Library) (ρ : Renaming) (forms : List Form) :
    Except Error String × List String :=
  match Draft.begin config ρ forms with
  | .error e => (.error e, [])
  | .ok d =>
    let (result, requested) := inline config library [] d forms
    (result.map fun d => d.program.render config.indent, requested)

end HostLisp.Compiler
