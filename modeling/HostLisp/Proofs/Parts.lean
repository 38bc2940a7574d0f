import HostLisp.Special.Basic
import Mathlib.Data.List.Basic

/-!
# The parts of a form

What the arguments of a keyword look like once they have passed its rules. `Special.Parts` has a case
for each special form, so that a proof about a special form meets its arguments and its named parts
together.

* `Special.parts_of_ofArguments`: arguments that pass the rules are of this shape.
* `Special.checks_ofArguments`: arguments that do not pass are refused by a breach of the rules.
* `Form.Reads`: a form is a given special form; `Form.Reads.parts` gives its keyword and arguments.
* `Form.shape_eq_application`, `Form.shape_eq_access`: the other shapes of a list.
-/

namespace HostLisp

/-- What a successful chain of two computations has done. -/
theorem bind_eq_ok_iff {ε α β : Type} {x : Except ε α} {f : α → Except ε β} {b : β} :
    x >>= f = .ok b ↔ ∃ a, x = .ok a ∧ f a = .ok b := by
  cases x <;> simp [bind, Except.bind]

theorem exists_eq_ok_of_isOk {ε α : Type} {x : Except ε α} (h : x.isOk = true) : ∃ a, x = .ok a := by
  cases x with
  | error e => cases h
  | ok a => exact ⟨a, rfl⟩

/-- The names or targets of parameters. -/
def Parameters.names : Parameters → List String
  | .fixed names => names
  | .rest name => [name]

namespace Special

/-- How the arguments of a keyword make up a special form. -/
inductive Parts : Keyword → List Form → Special → Prop
  | var {name : String} {init : Form} (hn : isPropertyName name = false) :
      Parts .var [.symbol name, init] (.var name init)
  | fn {p first : Form} {rest : List Form} {params : Parameters} (hp : parameters p = .ok params) :
      Parts .fn (p :: first :: rest) (.fn params (.ofForms first rest))
  | assignName {name : String} {value : Form} (hn : isPropertyName name = false) :
      Parts .assign [.symbol name, value] (.assign (.name name) value)
  | assignProperty {access value : Form} (ha : access.isPropertyAccess = true) :
      Parts .assign [access, value] (.assign (.property access) value)
  | conditional {test consequent alternative : Form} :
      Parts .conditional [test, consequent, alternative] (.conditional test consequent alternative)
  | quote {datum : Form} : Parts .quote [datum] (.quote datum)
  | quasiquote {template : Form} : Parts .quasiquote [template] (.quasiquote template)
  | unquote {inner : Form} : Parts .unquote [inner] (.unquote inner)
  | unquoteSplicing {inner : Form} : Parts .unquoteSplicing [inner] (.unquoteSplicing inner)
  | member {target key : Form} : Parts .member [target, key] (.member target key)
  | object (entries : List (String × Form)) :
      Parts .object (entries.map fun e => .list [.symbol e.1, e.2]) (.object entries)
  | importModules {args : List Form} {names : List String} :
      Parts .importModules args (.importModules names)
  | list (items : List Form) : Parts .list items (.list items)
  | defineSyntax {args : List Form} : Parts .defineSyntax args .defineSyntax
  | syntaxRules {args : List Form} : Parts .syntaxRules args .syntaxRules

theorem boundName_eq_ok {f : SyntaxFault} {form : Form} {name : String} (h : boundName f form = .ok name) :
    form = .symbol name ∧ isPropertyName name = false := by
  cases form with
  | literal l => cases h
  | list items => cases h
  | symbol n =>
    by_cases hn : isPropertyName n = true
    · simp [boundName, Form.standardName?, hn, refuse] at h
    · simp only [boundName, Form.standardName?, hn] at h
      cases h
      exact ⟨rfl, by simpa using hn⟩

theorem quoted_eq_ok {k : Keyword} {whole inner : Form} {args : List Form}
    (h : quoted k whole args = .ok inner) : args = [inner] := by
  unfold quoted at h
  split at h <;> cases h
  rfl

theorem map_quoted_eq_ok {k : Keyword} {whole : Form} {args : List Form} {g : Form → Special} {s : Special}
    (h : (quoted k whole args).map g = .ok s) : ∃ inner, args = [inner] ∧ s = g inner := by
  cases hq : quoted k whole args with
  | error e => rw [hq] at h; cases h
  | ok inner => rw [hq] at h; cases h; exact ⟨inner, quoted_eq_ok hq, rfl⟩

theorem declaration_eq_ok {whole init : Form} {args : List Form} {name : String}
    (h : declaration whole args = .ok (name, init)) :
    args = [.symbol name, init] ∧ isPropertyName name = false := by
  unfold declaration at h
  split at h
  · cases h
  · cases h
  · obtain ⟨n, hn, h⟩ := bind_eq_ok_iff.1 h
    cases h
    obtain ⟨rfl, hp⟩ := boundName_eq_ok hn
    exact ⟨rfl, hp⟩
  · cases h

theorem entry_eq_ok {form : Form} {e : String × Form} (h : entry form = .ok e) :
    form = .list [.symbol e.1, e.2] := by
  unfold entry at h
  split at h <;> cases h
  rfl

theorem mapM_entry_eq_ok {args : List Form} {entries : List (String × Form)}
    (h : args.mapM entry = .ok entries) : args = entries.map fun e => .list [.symbol e.1, e.2] := by
  induction args generalizing entries with
  | nil => cases h; rfl
  | cons f fs ih =>
    rw [List.mapM_cons] at h
    obtain ⟨e, he, h⟩ := bind_eq_ok_iff.1 h
    obtain ⟨es, hes, h⟩ := bind_eq_ok_iff.1 h
    cases h
    rw [entry_eq_ok he, ih hes, List.map_cons]

theorem assignee_eq_ok {target value : Form} {a : Assignee} (h : assignee target = .ok a) :
    Parts .assign [target, value] (.assign a value) := by
  unfold assignee at h
  split at h
  · rename_i name hn
    cases h
    have hb : boundName .badAssignee target = .ok name := by rw [boundName, hn]
    obtain ⟨rfl, hp⟩ := boundName_eq_ok hb
    exact .assignName hp
  · split at h
    · rename_i ha
      cases h
      exact .assignProperty ha
    · cases h

/-- **Arguments that pass the rules of their keyword are its special form in parts.** -/
theorem parts_of_ofArguments {whole : Form} {k : Keyword} {args : List Form} {s : Special}
    (h : ofArguments whole k args = .ok s) : Parts k args s := by
  cases k with
  | var =>
    obtain ⟨⟨name, init⟩, hd, h⟩ := bind_eq_ok_iff.1 h
    cases h
    obtain ⟨rfl, hn⟩ := declaration_eq_ok hd
    exact .var hn
  | fn =>
    match args with
    | [] => cases h
    | [_] => cases h
    | p :: first :: rest =>
      obtain ⟨params, hp, h⟩ := bind_eq_ok_iff.1 h
      cases h
      exact .fn hp
  | assign =>
    match args with
    | [] => cases h
    | [_] => cases h
    | [target, value] =>
      obtain ⟨a, ha, h⟩ := bind_eq_ok_iff.1 h
      cases h
      exact assignee_eq_ok ha
    | _ :: _ :: _ :: _ => cases h
  | conditional =>
    match args with
    | [] => cases h
    | [_] => cases h
    | [_, _] => cases h
    | [_, _, _] => cases h; exact .conditional
    | _ :: _ :: _ :: _ :: _ => cases h
  | quote | quasiquote | unquote | unquoteSplicing =>
    obtain ⟨inner, rfl, rfl⟩ := map_quoted_eq_ok h
    constructor
  | member =>
    match args with
    | [] => cases h
    | [_] => cases h
    | [_, _] => cases h; exact .member
    | _ :: _ :: _ :: _ => cases h
  | object =>
    obtain ⟨entries, he, h⟩ := bind_eq_ok_iff.1 h
    cases h
    rw [mapM_entry_eq_ok he]
    exact .object entries
  | importModules =>
    obtain ⟨names, -, h⟩ := bind_eq_ok_iff.1 h
    cases h
    exact .importModules
  | list => cases h; exact .list args
  | defineSyntax =>
    match args with
    | [] => cases h
    | [_] => cases h
    | [.symbol _, rules] =>
      simp only [ofArguments] at h
      split at h
      · obtain ⟨-, -, h⟩ := bind_eq_ok_iff.1 h
        cases h
        exact .defineSyntax
      · cases h
    | [.literal _, _] => cases h
    | [.list _, _] => cases h
    | _ :: _ :: _ :: _ => cases h
  | syntaxRules =>
    obtain ⟨-, -, h⟩ := bind_eq_ok_iff.1 h
    cases h
    exact .syntaxRules

/-! ## Faults -/

/-- A check that fails only by a breach of the rules. -/
def Checks {α : Type} (x : Except Error α) : Prop := ∀ e, x = .error e → ∃ f, e.cause = .malformed f

section

variable {α β : Type}

theorem checks_ok (a : α) : Checks (.ok a) := by
  intro e h; cases h

theorem checks_refuse (site : Form) (f : SyntaxFault) : Checks (refuse site f : Except Error α) := by
  intro e h; cases h; exact ⟨f, rfl⟩

theorem Checks.bind {x : Except Error α} {g : α → Except Error β} (hx : Checks x)
    (hg : ∀ a, Checks (g a)) : Checks (x >>= g) := by
  cases x with
  | error e => intro e' h; cases h; exact hx e rfl
  | ok a => exact hg a

theorem Checks.map {x : Except Error α} (hx : Checks x) (g : α → β) : Checks (x.map g) := by
  cases x with
  | error e => intro e' h; cases h; exact hx e rfl
  | ok a => exact checks_ok (g a)

theorem checks_mapM {g : Form → Except Error α} (hg : ∀ f, Checks (g f)) (fs : List Form) :
    Checks (fs.mapM g) := by
  induction fs with
  | nil => exact checks_ok []
  | cons f fs ih =>
    rw [List.mapM_cons]
    exact (hg f).bind fun a => ih.bind fun as => checks_ok (a :: as)

theorem checks_forM {g : Form → Except Error Unit} (hg : ∀ f, Checks (g f)) (fs : List Form) :
    Checks (fs.forM g) := by
  induction fs with
  | nil => exact checks_ok ()
  | cons f fs ih => exact (hg f).bind fun _ => ih

end

theorem checks_boundName (f : SyntaxFault) (form : Form) : Checks (boundName f form) := by
  unfold boundName
  split
  · exact checks_ok _
  · exact checks_refuse _ _

theorem checks_parameters (form : Form) : Checks (parameters form) := by
  unfold parameters
  split
  · exact (checks_mapM (checks_boundName _) _).bind fun _ => checks_ok _
  · exact (checks_boundName _ _).bind fun _ => checks_ok _

theorem checks_assignee (form : Form) : Checks (assignee form) := by
  unfold assignee
  split
  · exact checks_ok _
  · split
    · exact checks_ok _
    · exact checks_refuse _ _

theorem checks_entry (form : Form) : Checks (entry form) := by
  unfold entry
  split
  · exact checks_ok _
  · exact checks_refuse _ _
  · exact checks_refuse _ _

theorem checks_moduleName (form : Form) : Checks (moduleName form) := by
  unfold moduleName
  split
  · split
    · exact checks_refuse _ _
    · exact checks_ok _
  · exact checks_refuse _ _

theorem checks_moduleNames (whole : Form) (args : List Form) : Checks (moduleNames whole args) := by
  unfold moduleNames
  split
  · exact checks_refuse _ _
  · exact checks_mapM checks_moduleName _

theorem checks_reservedSymbol (form : Form) : Checks (reservedSymbol form) := by
  unfold reservedSymbol
  split
  · exact checks_ok _
  · exact checks_refuse _ _

theorem checks_rule (form : Form) : Checks (rule form) := by
  unfold rule
  split
  case h_3 => exact checks_ok _
  all_goals exact checks_refuse _ _

theorem checks_transformer (whole : Form) (args : List Form) : Checks (transformer whole args) := by
  unfold transformer
  split
  · exact checks_refuse _ _
  · exact checks_refuse _ _
  · exact (checks_forM checks_reservedSymbol _).bind fun _ => checks_forM checks_rule _
  · exact checks_refuse _ _

theorem checks_quoted (k : Keyword) (whole : Form) (args : List Form) : Checks (quoted k whole args) := by
  unfold quoted
  split
  · exact checks_refuse _ _
  · exact checks_ok _
  · exact checks_refuse _ _

theorem checks_declaration (whole : Form) (args : List Form) : Checks (declaration whole args) := by
  unfold declaration
  split
  · exact checks_refuse _ _
  · exact checks_refuse _ _
  · exact (checks_boundName _ _).bind fun _ => checks_ok _
  · exact checks_refuse _ _

/-- **Arguments are refused by a breach of the rules of their keyword only.** -/
theorem checks_ofArguments (whole : Form) (k : Keyword) (args : List Form) :
    Checks (ofArguments whole k args) := by
  cases k with
  | var => exact (checks_declaration whole args).bind fun _ => checks_ok _
  | fn =>
    simp only [ofArguments]
    split
    · exact checks_refuse _ _
    · exact checks_refuse _ _
    · exact (checks_parameters _).bind fun _ => checks_ok _
  | assign =>
    simp only [ofArguments]
    split
    case h_3 => exact (checks_assignee _).bind fun _ => checks_ok _
    all_goals exact checks_refuse _ _
  | conditional =>
    simp only [ofArguments]
    split
    case h_4 => exact checks_ok _
    all_goals exact checks_refuse _ _
  | quote => exact (checks_quoted _ _ _).map _
  | quasiquote => exact (checks_quoted _ _ _).map _
  | unquote => exact (checks_quoted _ _ _).map _
  | unquoteSplicing => exact (checks_quoted _ _ _).map _
  | member =>
    simp only [ofArguments]
    split
    case h_3 => exact checks_ok _
    all_goals exact checks_refuse _ _
  | object => exact (checks_mapM checks_entry args).bind fun _ => checks_ok _
  | importModules => exact (checks_moduleNames whole args).bind fun _ => checks_ok _
  | list => exact checks_ok _
  | defineSyntax =>
    simp only [ofArguments]
    split
    case h_3 =>
      split
      · exact (checks_transformer _ _).bind fun _ => checks_ok _
      · exact checks_refuse _ _
    all_goals exact checks_refuse _ _
  | syntaxRules => exact (checks_transformer whole args).bind fun _ => checks_ok _

theorem checks_propertyArguments (whole : Form) (args : List Form) :
    Checks (propertyArguments whole args) := by
  unfold propertyArguments
  split
  · exact checks_refuse _ _
  · exact checks_ok _

end Special

namespace Form

/-- A form is a special form that keeps the rules of its keyword. -/
def Reads (f : Form) (s : Special) : Prop :=
  ∃ k args, f.shape = .special k args ∧ Special.ofArguments f k args = .ok s

theorem shape_eq_special {f : Form} {k : Keyword} {args : List Form} (h : f.shape = .special k args) :
    ∃ name, f = .list (.symbol name :: args) ∧ Keyword.ofName? name = some k := by
  unfold shape at h
  split at h
  · cases h
  · cases h
  · cases h
  · unfold headedShape at h
    split at h
    · rename_i name
      split at h
      · rename_i hk
        cases h; exact ⟨name, rfl, hk⟩
      · cases h
      · cases h
    · cases h

theorem Reads.parts {f : Form} {s : Special} (h : f.Reads s) :
    ∃ name k args, f = .list (.symbol name :: args) ∧ Keyword.ofName? name = some k ∧
      Special.Parts k args s := by
  obtain ⟨k, args, hs, ha⟩ := h
  obtain ⟨name, rfl, hk⟩ := shape_eq_special hs
  exact ⟨name, k, args, rfl, hk, Special.parts_of_ofArguments ha⟩

theorem shape_eq_literal {f : Form} {l : Literal} (h : f.shape = .literal l) : f = .literal l := by
  unfold shape at h
  split at h
  · cases h; rfl
  · cases h
  · cases h
  · unfold headedShape at h
    split at h
    · split at h <;> cases h
    · cases h

theorem shape_eq_name {f : Form} {n : String} (h : f.shape = .name n) : f = .symbol n := by
  unfold shape at h
  split at h
  · cases h
  · cases h; rfl
  · cases h
  · unfold headedShape at h
    split at h
    · split at h <;> cases h
    · cases h

theorem special?_eq_some {f : Form} {k : Keyword} {args : List Form} (h : f.special? = some (k, args)) :
    ∃ name, f = .list (.symbol name :: args) ∧ Keyword.ofName? name = some k := by
  unfold special? at h
  split at h
  · rename_i name args
    obtain ⟨k, hk, h⟩ := Option.map_eq_some_iff.1 h
    cases h
    exact ⟨name, rfl, hk⟩
  · cases h

theorem reads_var {f init : Form} {args : List Form} {name : String} (h : f.special? = some (.var, args))
    (hd : Special.declaration f args = .ok (name, init)) : f.Reads (.var name init) := by
  obtain ⟨n, rfl, hk⟩ := special?_eq_some h
  refine ⟨.var, args, ?_, ?_⟩
  · simp [shape, headedShape, hk]
  · simp only [Special.ofArguments, hd]; rfl

/-- A template that is neither unquoted nor spliced as a whole. -/
def PlainTemplate (t : Form) : Prop :=
  ∀ args, t.special? ≠ some (.unquote, args) ∧ t.special? ≠ some (.unquoteSplicing, args)

theorem shape_eq_access {f : Form} {key : String} {args : List Form} (h : f.shape = .access key args) :
    ∃ name, f = .list (.symbol name :: args) ∧ Keyword.ofName? name = none ∧
      propertyKey? name = some key := by
  unfold shape at h
  split at h
  · cases h
  · cases h
  · cases h
  · unfold headedShape at h
    split at h
    · rename_i name
      split at h
      · cases h
      · rename_i hk hp
        cases h; exact ⟨name, rfl, hk, hp⟩
      · cases h
    · cases h

theorem shape_eq_application {f head : Form} {args : List Form} (h : f.shape = .application head args) :
    f = .list (head :: args) ∧
      ∀ name, head = .symbol name → Keyword.ofName? name = none ∧ propertyKey? name = none := by
  unfold shape at h
  split at h
  · cases h
  · cases h
  · cases h
  · unfold headedShape at h
    split at h
    · rename_i name
      split at h
      · cases h
      · cases h
      · rename_i hk hp
        cases h
        refine ⟨rfl, ?_⟩
        intro m hm; cases hm; exact ⟨hk, hp⟩
    · rename_i hne
      cases h
      exact ⟨rfl, fun m hm => absurd hm (hne m)⟩

end Form

end HostLisp
