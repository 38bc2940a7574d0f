import HostLisp.Error

/-!
# Special forms

`Special.ofArguments` turns a keyword and its arguments into a special form with named parts, or says
which rule they break. The evaluator and the compiler work on the parts, so neither has to look at a
shape again. The number of arguments is judged first, then the arguments from left to right.
-/

namespace HostLisp

/-- The parameters of a function: a fixed number of names, or one name for all arguments. -/
inductive Parameters where
  | fixed (names : List String)
  | rest (name : String)
deriving DecidableEq

/-- The forms of a function body: some that run first, and the one that gives the result. -/
structure Body where
  leading : List Form
  last : Form

/-- All forms of a body in order. -/
def Body.forms (b : Body) : List Form := b.leading ++ [b.last]

/-- The body made of a form and those after it. -/
def Body.ofForms (first : Form) : List Form → Body
  | [] => ⟨[], first⟩
  | next :: rest =>
    let body := ofForms next rest
    ⟨first :: body.leading, body.last⟩

/-- What an assignment writes to: a name, or a place inside a host object. -/
inductive Assignee where
  | name (name : String)
  | property (access : Form)

/-- A special form that keeps the rules of its keyword. -/
inductive Special where
  | var (name : String) (init : Form)
  | fn (params : Parameters) (body : Body)
  | assign (target : Assignee) (value : Form)
  | conditional (test consequent alternative : Form)
  | quote (datum : Form)
  | quasiquote (template : Form)
  | unquote (inner : Form)
  | unquoteSplicing (inner : Form)
  | member (target key : Form)
  | object (entries : List (String × Form))
  | importModules (names : List String)
  | list (items : List Form)
  | defineSyntax
  | syntaxRules

namespace Special

/-- A breach of the rules, reported at a form. -/
def refuse {α : Type} (site : Form) (f : SyntaxFault) : Except Error α :=
  .error (.raised site (.malformed f))

/-- The name that a form binds. -/
def boundName (f : SyntaxFault) (form : Form) : Except Error String :=
  match form.standardName? with
  | some name => .ok name
  | none => refuse form f

/-- The parameters of a function: a list of names, or one name. -/
def parameters : Form → Except Error Parameters
  | .list names => do return .fixed (← names.mapM (boundName .badParameter))
  | form => do return .rest (← boundName .badParameter form)

/-- What an assignment may write to. -/
def assignee (form : Form) : Except Error Assignee :=
  match form.standardName? with
  | some name => .ok (.name name)
  | none => if form.isPropertyAccess then .ok (.property form) else refuse form .badAssignee

/-- One entry of an object: a key and a value. -/
def entry : Form → Except Error (String × Form)
  | .list [.symbol key, value] => .ok (key, value)
  | .list [key, _] => refuse key .entryKeyNotSymbol
  | form => refuse form .entryNotPair

/-- The name of a module. -/
def moduleName : Form → Except Error String
  | form@(.literal (.string s)) => if s = "" then refuse form .moduleNameEmpty else .ok s
  | form => refuse form .moduleNameNotString

/-- The names of an import: at least one. -/
def moduleNames (whole : Form) : List Form → Except Error (List String)
  | [] => refuse whole (.empty .importModules)
  | args => args.mapM moduleName

/-- A symbol of the list that a transformer reserves. -/
def reservedSymbol : Form → Except Error Unit
  | .symbol _ => .ok ()
  | form => refuse form .badReservedSymbol

/-- A rule of a transformer: a pattern headed by a name, and a template. -/
def rule (form : Form) : Except Error Unit :=
  match form with
  | .list [] => refuse form .emptyRule
  | .list [_] => refuse form .ruleWithoutTemplate
  | .list [.list (.symbol _ :: _), _] => .ok ()
  | .list [pattern@(.list _), _] => refuse pattern .patternWithoutName
  | .list [pattern, _] => refuse pattern .patternNotList
  | .list _ => refuse form .ruleExcess
  | _ => refuse form .badRule

/-- The rules of a transformer. -/
def transformer (whole : Form) : List Form → Except Error Unit
  | [] => refuse whole (.empty .syntaxRules)
  | [_] => refuse whole .noRules
  | .list reserved :: rules => do
    reserved.forM reservedSymbol
    rules.forM rule
  | reserved :: _ => refuse reserved .badReservedList

/-- The one argument of a quotation. -/
def quoted (k : Keyword) (whole : Form) : List Form → Except Error Form
  | [] => refuse whole (.empty k)
  | [inner] => .ok inner
  | _ => refuse whole (.excess k)

/-- The parts of a declaration: a name and its first value. -/
def declaration (whole : Form) : List Form → Except Error (String × Form)
  | [] => refuse whole (.empty .var)
  | [_] => refuse whole (.noValue .var)
  | [name, init] => do return (← boundName .badIdentifier name, init)
  | _ => refuse whole (.excess .var)

/-- **The special form of a keyword and its arguments.** Faults of the form as a whole are reported at
`whole`, others at the part that has them. -/
def ofArguments (whole : Form) : Keyword → List Form → Except Error Special
  | .var, args => do
    let (name, init) ← declaration whole args
    return .var name init
  | .fn, args =>
    match args with
    | [] => refuse whole (.empty .fn)
    | [_] => refuse whole .noBody
    | params :: first :: rest => do return .fn (← parameters params) (.ofForms first rest)
  | .assign, args =>
    match args with
    | [] => refuse whole (.empty .assign)
    | [_] => refuse whole (.noValue .assign)
    | [target, value] => do return .assign (← assignee target) value
    | _ => refuse whole (.excess .assign)
  | .conditional, args =>
    match args with
    | [] => refuse whole (.empty .conditional)
    | [_] => refuse whole .noClauses
    | [_, _] => refuse whole .noElse
    | [test, consequent, alternative] => .ok (.conditional test consequent alternative)
    | _ => refuse whole (.excess .conditional)
  | .quote, args => (quoted .quote whole args).map .quote
  | .quasiquote, args => (quoted .quasiquote whole args).map .quasiquote
  | .unquote, args => (quoted .unquote whole args).map .unquote
  | .unquoteSplicing, args => (quoted .unquoteSplicing whole args).map .unquoteSplicing
  | .member, args =>
    match args with
    | [] => refuse whole (.empty .member)
    | [_] => refuse whole .noKey
    | [target, key] => .ok (.member target key)
    | _ => refuse whole (.excess .member)
  | .object, args => do return .object (← args.mapM entry)
  | .importModules, args => do return .importModules (← moduleNames whole args)
  | .list, args => .ok (.list args)
  | .defineSyntax, args =>
    match args with
    | [] => refuse whole (.empty .defineSyntax)
    | [_] => refuse whole .noTransformer
    | [.symbol _, rules] =>
      match rules.special? with
      | some (.syntaxRules, args) => do
        transformer rules args
        return .defineSyntax
      | _ => refuse rules .badTransformer
    | [name, _] => refuse name .macroNameNotSymbol
    | _ => refuse whole (.excess .defineSyntax)
  | .syntaxRules, args => do
    transformer whole args
    return .syntaxRules

/-- The arguments of a property access: an object, then the arguments of a call if there are any. -/
def propertyArguments (whole : Form) : List Form → Except Error (Form × List Form)
  | [] => refuse whole .noTarget
  | target :: args => .ok (target, args)

end Special

end HostLisp
