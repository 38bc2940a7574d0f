import HostLisp.Host.Expr
import HostLisp.Host.Renaming
import HostLisp.Job

/-!
# From forms to host expressions

Compilation takes a form and a renaming to a host expression and a renaming. Renamings thread from left to
right as scopes do in evaluation. As there, `Codegen.layer` does one level of a job, and
`Codegen.compile` stacks layers up to the depth limit.

* `quoted`: quoted data as host code.
* `joined`: the pieces of a template list as one array.
* `Codegen.compile`: a job, at a number of levels left.
-/

namespace HostLisp

open Host

/-- A host expression and the renaming behind it, or a failure. -/
abbrev Compiled := Except Error (Expr × Renaming)

/-- How levels below are compiled. -/
abbrev Emitter := Job → Renaming → Compiled

namespace Codegen

/-- Fails at a form. -/
def fail {α : Type} (site : Form) (cause : Cause) : Except Error α :=
  .error (.raised site cause)

mutual

/-- Quoted data as host code. -/
def quoted : Form → Expr
  | .literal l => .literal l
  | .symbol name => .intern name
  | .list items => .array (quotedEach items)

/-- Quoted items as host code. -/
def quotedEach : List Form → List Expr
  | [] => []
  | f :: fs => quoted f :: quotedEach fs

end

/-- The target of a name that has to be bound. -/
def targetOf (ρ : Renaming) (name : String) : Except Error String :=
  match ρ.target? name with
  | some target => .ok target
  | none => fail (.symbol name) (.undefinedIdentifier name)

/-- Fresh targets for names from left to right. -/
def putEach : List String → Renaming → Except Error (List String × Renaming)
  | [], ρ => return ([], ρ)
  | name :: names, ρ => do
    let (target, ρ) ← ρ.put name (.symbol name)
    let (targets, ρ) ← putEach names ρ
    return (target :: targets, ρ)

/-- Fresh targets for the parameters of a function. -/
def putParameters (params : Parameters) (ρ : Renaming) : Except Error (Parameters × Renaming) :=
  match params with
  | .fixed names => do
    let (targets, ρ) ← putEach names ρ
    return (.fixed targets, ρ)
  | .rest name => do
    let (target, ρ) ← ρ.put name (.symbol name)
    return (.rest target, ρ)

/-- A part of a template list: an item, or an array whose items go in its place. -/
inductive Part where
  | item (e : Expr)
  | splice (e : Expr)

/-- An array of items that stand side by side, in front of further pieces. -/
def flush (run : List Expr) (pieces : List Expr) : List Expr :=
  if run.isEmpty then pieces else .array run :: pieces

/-- The pieces of a template list. Items side by side share an array, also across a splice that adds
nothing. -/
def piecesFrom (run : List Expr) : List Part → List Expr
  | [] => flush run []
  | .item e :: parts => piecesFrom (run ++ [e]) parts
  | .splice e :: parts =>
    if e.isEmptyArray then piecesFrom run parts else flush run (e :: piecesFrom [] parts)

/-- A template list as one expression. -/
def joined (parts : List Part) : Expr :=
  match piecesFrom [] parts with
  | [] => .array []
  | [piece] => piece
  | pieces => .concat pieces

section

variable (below : Emitter)

/-- Expressions for forms from left to right. -/
def compileEach : List Form → Renaming → Except Error (List Expr × Renaming)
  | [], ρ => return ([], ρ)
  | f :: fs, ρ => do
    let (e, ρ) ← below (.form f) ρ
    let (es, ρ) ← compileEach fs ρ
    return (e :: es, ρ)

/-- The fields of an object from left to right. -/
def compileFields : List (String × Form) → Renaming → Except Error (List (String × Expr) × Renaming)
  | [], ρ => return ([], ρ)
  | (key, f) :: fields, ρ => do
    let (e, ρ) ← below (.form f) ρ
    let (es, ρ) ← compileFields fields ρ
    return ((key, e) :: es, ρ)

/-- A declaration: its target, its first value and the renaming behind it. The name is bound before the
value is compiled. -/
def compileVar (name : String) (init : Form) (ρ : Renaming) :
    Except Error (String × Expr × Renaming) := do
  let (target, ρ) ← ρ.put name (.symbol name)
  let (e, ρ) ← below (.form init) ρ
  return (target, e, ρ)

/-- The end of a function body: expressions to run, and the one to return. A declaration there is run, and
its target returned. -/
def compileTail (tail : Form) (ρ : Renaming) : Except Error (List Expr × Expr) :=
  match tail.special? with
  | some (.var, args) => do
    let (name, init) ← Special.declaration tail args
    let (target, e, _) ← compileVar below name init ρ
    return ([.declare target e], .identifier target)
  | _ => do
    let (e, _) ← below (.form tail) ρ
    return ([], e)

/-- A function. What its body binds stays inside. -/
def compileFn (params : Parameters) (body : Body) (ρ : Renaming) : Except Error Expr := do
  let (params, ρ) ← putParameters params ρ
  let (leading, ρ) ← compileEach below body.leading ρ
  let (last, result) ← compileTail below body.last ρ
  return .function params (leading ++ last) result

/-- The host code of a special form. -/
def compileSpecial (site : Form) (special : Special) (ρ : Renaming) : Compiled :=
  match special with
  | .var name init => do
    let (target, e, ρ) ← compileVar below name init ρ
    return (.declare target e, ρ)
  | .fn params body => do return (← compileFn below params body ρ, ρ)
  | .assign (.name name) value => do
    let target ← targetOf ρ name
    let (e, ρ) ← below (.form value) ρ
    return (.assign (.identifier target) e, ρ)
  | .assign (.property access) value => do
    let (place, ρ) ← below (.form access) ρ
    let (e, ρ) ← below (.form value) ρ
    return (.assign place e, ρ)
  | .conditional test consequent alternative => do
    let (test, ρ) ← below (.form test) ρ
    let (consequent, ρ) ← below (.form consequent) ρ
    let (alternative, ρ) ← below (.form alternative) ρ
    return (.conditional test consequent alternative, ρ)
  | .quote datum => return (quoted datum, ρ)
  | .quasiquote template => below (.template template) ρ
  | .list items => do
    let (es, ρ) ← compileEach below items ρ
    return (.array es, ρ)
  | .member target key => do
    let (target, ρ) ← below (.form target) ρ
    let (key, ρ) ← below (.form key) ρ
    return (.index target key, ρ)
  | .object entries => do
    let (fields, ρ) ← compileFields below entries ρ
    return (.object fields, ρ)
  | .unquote _ => fail site (.misplaced (.outsideTemplate .unquote))
  | .unquoteSplicing _ => fail site (.misplaced (.outsideTemplate .unquoteSplicing))
  | .importModules _ => fail site (.misplaced .importInside)
  | .defineSyntax => fail site (.misplaced (.unexpandedInCompilation .defineSyntax))
  | .syntaxRules => fail site (.misplaced (.unexpandedInCompilation .syntaxRules))

/-- The host code of a property access, or of a call if arguments follow the object. -/
def compileAccess (key : String) (target : Form) (args : List Form) (ρ : Renaming) : Compiled := do
  let (target, ρ) ← below (.form target) ρ
  if args.isEmpty then return (.member target key, ρ)
  let (es, ρ) ← compileEach below args ρ
  return (.call (.member target key) es, ρ)

/-- The host code of a form. -/
def compileForm (form : Form) (ρ : Renaming) : Compiled :=
  match form.shape with
  | .literal l => return (.literal l, ρ)
  | .name name => do return (.identifier (← targetOf ρ name), ρ)
  | .empty => fail form .emptyApplication
  | .special k args => do
    let special ← Special.ofArguments form k args
    compileSpecial below form special ρ
  | .access key args => do
    let (target, args) ← Special.propertyArguments form args
    compileAccess below key target args ρ
  | .application head args => do
    let (callee, ρ) ← below (.form head) ρ
    let (es, ρ) ← compileEach below args ρ
    return (.call callee es, ρ)

/-- One part of a template list. -/
def compilePart (item : Form) (ρ : Renaming) : Except Error (Part × Renaming) :=
  match item.special? with
  | some (.unquoteSplicing, args) => do
    let inner ← Special.quoted .unquoteSplicing item args
    let (e, ρ) ← below (.form inner) ρ
    return (.splice e, ρ)
  | _ => do
    let (e, ρ) ← below (.template item) ρ
    return (.item e, ρ)

/-- The parts of a template list from left to right. -/
def compileParts : List Form → Renaming → Except Error (List Part × Renaming)
  | [], ρ => return ([], ρ)
  | item :: items, ρ => do
    let (part, ρ) ← compilePart below item ρ
    let (parts, ρ) ← compileParts items ρ
    return (part :: parts, ρ)

/-- The host code of a template. -/
def compileTemplate (template : Form) (ρ : Renaming) : Compiled :=
  match template.special? with
  | some (.unquote, args) => do
    let inner ← Special.quoted .unquote template args
    below (.form inner) ρ
  | some (.unquoteSplicing, _) => fail template (.misplaced .outsideList)
  | _ =>
    match template with
    | .list items => do
      let (parts, ρ) ← compileParts below items ρ
      return (joined parts, ρ)
    | _ => return (quoted template, ρ)

/-- One level of a job. -/
def layer : Emitter
  | .form f, ρ => compileForm below f ρ
  | .template f, ρ => compileTemplate below f ρ

end

/-- **A job with a number of levels left**, under a limit that failures name. -/
def compile (limit : Nat) : Nat → Emitter
  | 0 => fun job _ => fail job.site (.limitExceeded (.depth limit))
  | levels + 1 => layer (compile limit levels)

end Codegen

end HostLisp
