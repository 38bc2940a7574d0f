import HostLisp.Job
import HostLisp.Proofs.Parts

/-!
# What forms declare

A declaration binds its name for all that runs after it in the same scope, wherever in an expression it
stands. `Form.declarations` collects the names that a form declares in its own scope, and apart from
them those that stand in a branch of a conditional, which may not run. Quoted data declares nothing, the
unquoted parts of a template do, and what the body of a function declares stays inside.

* `Form.declarations`, `Form.templateDeclarations`: the declarations of code and of a template.
* `Form.hostFree`: no list is headed by `.`, `obj` or a property name.
-/

namespace HostLisp

/-- Names that are declared. -/
structure Declarations where
  /-- in the scope at hand, in order -/
  own : List String
  /-- in branches of conditionals, also inside functions -/
  branched : List String

namespace Declarations

/-- No declarations. -/
def none : Declarations := ⟨[], []⟩

/-- Declarations one after the other. -/
def append (c d : Declarations) : Declarations := ⟨c.own ++ d.own, c.branched ++ d.branched⟩

/-- A declaration in front of others. -/
def declare (name : String) (d : Declarations) : Declarations := ⟨name :: d.own, d.branched⟩

/-- Declarations in the body of a function. -/
def inBody (d : Declarations) : Declarations := ⟨[], d.branched⟩

/-- Declarations in a branch of a conditional. -/
def inBranch (d : Declarations) : Declarations := ⟨d.own, d.own ++ d.branched⟩

@[simp] theorem append_none (d : Declarations) : d.append none = d := by
  simp [append, none]

@[simp] theorem none_append (d : Declarations) : none.append d = d := by
  simp [append, none]

end Declarations

namespace Form

mutual

/-- The declarations of code. -/
def declarations : Form → Declarations
  | .list (.symbol name :: args) =>
    match Keyword.ofName? name, args with
    | some .quote, _ => .none
    | some .quasiquote, args => templateDeclarationsEach args
    | some .fn, _ :: body => (declarationsEach body).inBody
    | some .var, .symbol x :: rest => .declare x (declarationsEach rest)
    | some .conditional, test :: branches =>
      (declarations test).append (declarationsEach branches).inBranch
    | some .object, entries => entryDeclarations entries
    | _, args => declarationsEach args
  | .list (head :: args) => (declarations head).append (declarationsEach args)
  | _ => .none

/-- The declarations of code from left to right. -/
def declarationsEach : List Form → Declarations
  | [] => .none
  | f :: fs => (declarations f).append (declarationsEach fs)

/-- The declarations in the values of an object. -/
def entryDeclarations : List Form → Declarations
  | [] => .none
  | .list [_, value] :: entries => (declarations value).append (entryDeclarations entries)
  | _ :: entries => entryDeclarations entries

/-- The declarations of a template. -/
def templateDeclarations : Form → Declarations
  | .list (.symbol name :: args) =>
    match Keyword.ofName? name with
    | some .unquote | some .unquoteSplicing => declarationsEach args
    | _ => templateDeclarationsEach args
  | .list items => templateDeclarationsEach items
  | _ => .none

/-- The declarations of templates from left to right. -/
def templateDeclarationsEach : List Form → Declarations
  | [] => .none
  | f :: fs => (templateDeclarations f).append (templateDeclarationsEach fs)

end

/-- Whether a list with this head is about a host object. -/
def isHostHead : Form → Bool
  | .symbol name =>
    Keyword.ofName? name = some .member || Keyword.ofName? name = some .object ||
      (propertyKey? name).isSome
  | _ => false

mutual

/-- No list is headed by `.`, `obj` or a property name. -/
def hostFree : Form → Bool
  | .list items => !items.head?.any isHostHead && hostFreeEach items
  | _ => true

/-- No list in any of the forms is headed by `.`, `obj` or a property name. -/
def hostFreeEach : List Form → Bool
  | [] => true
  | f :: fs => hostFree f && hostFreeEach fs

end

end Form

/-- The declarations of a form in its role. -/
def Job.declarations : Job → Declarations
  | .form f => f.declarations
  | .template f => f.templateDeclarations

namespace Form

/-! ## The equations -/

@[simp] theorem declarationsEach_nil : declarationsEach [] = .none := rfl

@[simp] theorem declarationsEach_cons (f : Form) (fs : List Form) :
    declarationsEach (f :: fs) = f.declarations.append (declarationsEach fs) := rfl

@[simp] theorem templateDeclarationsEach_nil : templateDeclarationsEach [] = .none := rfl

@[simp] theorem templateDeclarationsEach_cons (f : Form) (fs : List Form) :
    templateDeclarationsEach (f :: fs) = f.templateDeclarations.append (templateDeclarationsEach fs) := rfl

/-- A list headed by a symbol. -/
theorem declarations_headed (name : String) (args : List Form) :
    (Form.list (.symbol name :: args)).declarations = match Keyword.ofName? name, args with
      | some .quote, _ => .none
      | some .quasiquote, args => templateDeclarationsEach args
      | some .fn, _ :: body => (declarationsEach body).inBody
      | some .var, .symbol x :: rest => .declare x (declarationsEach rest)
      | some .conditional, test :: branches =>
        (declarations test).append (declarationsEach branches).inBranch
      | some .object, entries => entryDeclarations entries
      | _, args => declarationsEach args :=
  declarations.eq_def _

/-- A template list headed by a symbol. -/
theorem templateDeclarations_headed (name : String) (args : List Form) :
    (Form.list (.symbol name :: args)).templateDeclarations = match Keyword.ofName? name with
      | some .unquote | some .unquoteSplicing => declarationsEach args
      | _ => templateDeclarationsEach args := rfl

theorem declarationsEach_append (fs gs : List Form) :
    declarationsEach (fs ++ gs) = (declarationsEach fs).append (declarationsEach gs) := by
  induction fs with
  | nil => simp
  | cons f fs ih => simp [ih, Declarations.append]

/-! ## The declarations of each special form -/

variable {f : Form}

theorem declarations_literal {l : Literal} (h : f.shape = .literal l) : f.declarations = .none := by
  rw [shape_eq_literal h]; rfl

theorem declarations_name {n : String} (h : f.shape = .name n) : f.declarations = .none := by
  rw [shape_eq_name h]; rfl

theorem declarations_var {name : String} {init : Form} (h : f.Reads (.var name init)) :
    f.declarations = .declare name init.declarations := by
  obtain ⟨_, _, _, rfl, hk, hp⟩ := h.parts
  cases hp
  rw [declarations_headed, hk]
  simp

theorem ofForms_forms (first : Form) (rest : List Form) :
    (Body.ofForms first rest).forms = first :: rest := by
  induction rest generalizing first with
  | nil => rfl
  | cons next rest ih =>
    have := ih next
    simp only [Body.forms, Body.ofForms, List.cons_append] at this ⊢
    rw [this]

theorem declarations_fn {params : Parameters} {body : Body} (h : f.Reads (.fn params body)) :
    f.declarations = (declarationsEach body.forms).inBody := by
  obtain ⟨_, _, _, rfl, hk, hp⟩ := h.parts
  cases hp
  rw [declarations_headed, hk, ofForms_forms]

theorem declarations_assignName {name : String} {value : Form} (h : f.Reads (.assign (.name name) value)) :
    f.declarations = value.declarations := by
  obtain ⟨_, _, _, rfl, hk, hp⟩ := h.parts
  cases hp
  rw [declarations_headed, hk]
  exact Declarations.append_none _

theorem declarations_assignProperty {access value : Form} (h : f.Reads (.assign (.property access) value)) :
    f.declarations = access.declarations.append value.declarations := by
  obtain ⟨_, _, _, rfl, hk, hp⟩ := h.parts
  cases hp
  rw [declarations_headed, hk]
  simp

theorem declarations_conditional {t c a : Form} (h : f.Reads (.conditional t c a)) :
    f.declarations = t.declarations.append (c.declarations.append a.declarations).inBranch := by
  obtain ⟨_, _, _, rfl, hk, hp⟩ := h.parts
  cases hp
  rw [declarations_headed, hk]
  simp

theorem declarations_quote {datum : Form} (h : f.Reads (.quote datum)) : f.declarations = .none := by
  obtain ⟨_, _, _, rfl, hk, hp⟩ := h.parts
  cases hp
  rw [declarations_headed, hk]

theorem declarations_quasiquote {template : Form} (h : f.Reads (.quasiquote template)) :
    f.declarations = template.templateDeclarations := by
  obtain ⟨_, _, _, rfl, hk, hp⟩ := h.parts
  cases hp
  rw [declarations_headed, hk]
  simp

theorem declarations_list {items : List Form} (h : f.Reads (.list items)) :
    f.declarations = declarationsEach items := by
  obtain ⟨_, _, _, rfl, hk, hp⟩ := h.parts
  cases hp
  rw [declarations_headed, hk]

theorem declarations_member {target key : Form} (h : f.Reads (.member target key)) :
    f.declarations = target.declarations.append key.declarations := by
  obtain ⟨_, _, _, rfl, hk, hp⟩ := h.parts
  cases hp
  rw [declarations_headed, hk]
  simp

theorem entryDeclarations_map (entries : List (String × Form)) :
    entryDeclarations (entries.map fun e => .list [.symbol e.1, e.2]) =
      declarationsEach (entries.map Prod.snd) := by
  induction entries with
  | nil => rfl
  | cons e es ih => simp only [List.map_cons, declarationsEach_cons, ← ih]; rfl

theorem declarations_object {entries : List (String × Form)} (h : f.Reads (.object entries)) :
    f.declarations = declarationsEach (entries.map Prod.snd) := by
  obtain ⟨_, _, _, rfl, hk, hp⟩ := h.parts
  cases hp
  rw [declarations_headed, hk, ← entryDeclarations_map]

theorem declarations_application {head : Form} {args : List Form} (h : f.shape = .application head args) :
    f.declarations = head.declarations.append (declarationsEach args) := by
  obtain ⟨rfl, hs⟩ := shape_eq_application h
  cases head with
  | symbol name =>
    rw [declarations_headed, (hs name rfl).1]
    exact (Declarations.none_append _).symm
  | literal l => rfl
  | list items => rfl

theorem declarations_access {key : String} {args : List Form} (h : f.shape = .access key args) :
    f.declarations = declarationsEach args := by
  obtain ⟨_, rfl, hk, -⟩ := shape_eq_access h
  rw [declarations_headed, hk]

/-! ## The declarations of templates -/

theorem templateDeclarations_unquoted {k : Keyword} {args : List Form}
    (hk : k = .unquote ∨ k = .unquoteSplicing) (h : f.special? = some (k, args)) :
    f.templateDeclarations = declarationsEach args := by
  obtain ⟨name, rfl, hn⟩ := special?_eq_some h
  rw [templateDeclarations_headed, hn]
  rcases hk with rfl | rfl <;> rfl

theorem templateDeclarations_list {items : List Form} (h : (Form.list items).PlainTemplate) :
    (Form.list items).templateDeclarations = templateDeclarationsEach items := by
  match items with
  | [] => rfl
  | .literal _ :: _ => rfl
  | .list _ :: _ => rfl
  | .symbol name :: args =>
    have hp := h args
    simp only [special?] at hp
    rw [templateDeclarations_headed]
    split
    · rename_i hk; simp [hk] at hp
    · rename_i hk; simp [hk] at hp
    · exact (Declarations.none_append _).symm

theorem templateDeclarations_atom (h : ∀ items, f ≠ .list items) : f.templateDeclarations = .none := by
  cases f with
  | literal _ => rfl
  | symbol _ => rfl
  | list items => exact absurd rfl (h items)

end Form

end HostLisp
