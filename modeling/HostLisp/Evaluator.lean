import HostLisp.Job
import HostLisp.Store

/-!
# Evaluation

Evaluation takes a form and a scope to a value and a scope. Scopes thread from left to right: a name that
an argument declares is visible to the arguments after it, and to what comes after the call.

What can be asked is a `Job`: to evaluate a form, or to rebuild a template. `Evaluator.layer` does one
level of a job and leaves the levels below to the function it is given; `Evaluator.perform` stacks layers
up to the depth limit. What a run has written to memory stays, also when the run fails.

* `Evaluator.perform`: a job, at a number of levels left.
* `Evaluator.evaluate`: a program, form by form.
* `Evaluator.bind`, `Evaluator.get?`: names from outside.
-/

namespace HostLisp

/-- What evaluations change: the cells, and how many closures have been made. -/
structure Memory where
  store : Store
  closures : Nat

/-- The memory before anything has run. -/
def Memory.fresh : Memory := ⟨.empty, 0⟩

/-- A computation on memory that can fail. A failure keeps what was written before it. -/
abbrev Eval := ExceptT Error (StateM Memory)

namespace Eval

/-- Fails at a form. -/
def fail {α : Type} (site : Form) (cause : Cause) : Eval α :=
  throw (.raised site cause)

/-- A computation that leaves memory alone. -/
def ofExcept {α : Type} (e : Except Error α) : Eval α :=
  ExceptT.mk (pure e)

/-- A new cell. -/
def alloc (content : Option Value) : Eval CellId := do
  let m ← get
  let (cell, store) ← ofExcept (m.store.alloc content)
  set { m with store }
  return cell

/-- The content of a cell. -/
def read (cell : CellId) : Eval (Option Value) := do
  ofExcept ((← get).store.read cell)

/-- Writes a value to a cell. -/
def write (cell : CellId) (v : Value) : Eval Unit := do
  let m ← get
  let store ← ofExcept (m.store.write cell v)
  set { m with store }

/-- A stamp that no closure has yet. -/
def stamp : Eval Nat :=
  modifyGet fun m => (m.closures, { m with closures := m.closures + 1 })

end Eval

/-- How levels below are performed. -/
abbrev Performer := Job → Scope → Eval (Value × Scope)

namespace Evaluator

/-- The value of a name. -/
def lookup (site : Form) (name : String) (σ : Scope) : Eval Value :=
  match σ.find? name with
  | none => .fail site (.undefinedIdentifier name)
  | some cell => do
    match ← Eval.read cell with
    | some v => return v
    | none => .fail site (.uninitialized name)

section

variable (below : Performer)

/-- The values of forms from left to right. -/
def evalEach : List Form → Scope → Eval (List Value × Scope)
  | [], σ => return ([], σ)
  | f :: fs, σ => do
    let (v, σ) ← below (.form f) σ
    let (vs, σ) ← evalEach fs σ
    return (v :: vs, σ)

/-- The value of the last of some forms, run in order. -/
def evalBody : List Form → Form → Scope → Eval Value
  | [], last, σ => do return (← below (.form last) σ).1
  | f :: fs, last, σ => do
    let (_, σ) ← below (.form f) σ
    evalBody fs last σ

/-- New cells for names, each with a value. -/
def bindEach : List (String × Value) → Scope → Eval Scope
  | [], σ => return σ
  | (name, v) :: rest, σ => do
    let cell ← Eval.alloc (some v)
    bindEach rest (σ.bind name cell)

/-- Calls a closure on values. Its body runs in the scope the closure was made in, with the parameters
bound. -/
def call (site : Form) (c : Closure) (args : List Value) : Eval Value := do
  let bindings ← match c.params with
    | .fixed names =>
      if names.length = args.length then pure (names.zip args)
      else .fail site (.arityMismatch names.length args.length)
    | .rest name => pure [(name, .list args)]
  let σ ← bindEach bindings c.scope
  evalBody below c.body.leading c.body.last σ

/-- The value of an application. Head and arguments are evaluated before the head has to be a
function. -/
def apply (site head : Form) (args : List Form) (σ : Scope) : Eval (Value × Scope) := do
  let (callee, σ) ← below (.form head) σ
  let (values, σ) ← evalEach below args σ
  match callee with
  | .closure c => return (← call below site c values, σ)
  | _ => .fail site (.wrongType (.notFunction callee.typeName))

/-- The value of a special form. -/
def evalSpecial (site : Form) (special : Special) (σ : Scope) : Eval (Value × Scope) :=
  match special with
  | .var name init => do
    let cell ← Eval.alloc none
    let (v, σ) ← below (.form init) (σ.bind name cell)
    Eval.write cell v
    return (v, σ)
  | .fn params body => do
    let stamp ← Eval.stamp
    return (.closure ⟨stamp, params, body, σ⟩, σ)
  | .assign (.name name) value =>
    match σ.find? name with
    | none => .fail (.symbol name) (.undefinedIdentifier name)
    | some cell => do
      let (v, σ) ← below (.form value) σ
      Eval.write cell v
      return (v, σ)
  | .assign (.property _) _ => .fail site (.misplaced (.hostObject Keyword.assign.name))
  | .conditional test consequent alternative => do
    let (v, σ) ← below (.form test) σ
    below (.form (if v.isTruthy then consequent else alternative)) σ
  | .quote datum => return (.ofForm datum, σ)
  | .quasiquote template => below (.template template) σ
  | .list items => do
    let (vs, σ) ← evalEach below items σ
    return (.list vs, σ)
  | .unquote _ => .fail site (.misplaced (.outsideTemplate .unquote))
  | .unquoteSplicing _ => .fail site (.misplaced (.outsideTemplate .unquoteSplicing))
  | .importModules _ => .fail site (.misplaced .importInside)
  | .member _ _ => .fail site (.misplaced (.hostObject Keyword.member.name))
  | .object _ => .fail site (.misplaced (.hostObject Keyword.object.name))
  | .defineSyntax => .fail site (.misplaced (.unexpandedInEvaluation .defineSyntax))
  | .syntaxRules => .fail site (.misplaced (.unexpandedInEvaluation .syntaxRules))

/-- The value of a form. -/
def evalForm (form : Form) (σ : Scope) : Eval (Value × Scope) :=
  match form.shape with
  | .literal l => return (.literal l, σ)
  | .name name => do return (← lookup form name σ, σ)
  | .empty => .fail form .emptyApplication
  | .special k args => do
    let special ← Eval.ofExcept (Special.ofArguments form k args)
    evalSpecial below form special σ
  | .access key args => do
    let _ ← Eval.ofExcept (Special.propertyArguments form args)
    .fail form (.misplaced (.hostObject ("." ++ key)))
  | .application head args => apply below form head args σ

/-- What one item adds to a rebuilt list: the items of a spliced list, or one value. -/
def rebuildItem (item : Form) (σ : Scope) : Eval (List Value × Scope) :=
  match item.special? with
  | some (.unquoteSplicing, args) => do
    let inner ← Eval.ofExcept (Special.quoted .unquoteSplicing item args)
    let (v, σ) ← below (.form inner) σ
    match v with
    | .list vs => return (vs, σ)
    | _ => .fail item (.wrongType (.spliceNotList v.typeName))
  | _ => do
    let (v, σ) ← below (.template item) σ
    return ([v], σ)

/-- The items of a rebuilt list. -/
def rebuildEach : List Form → Scope → Eval (List Value × Scope)
  | [], σ => return ([], σ)
  | item :: items, σ => do
    let (vs, σ) ← rebuildItem below item σ
    let (rest, σ) ← rebuildEach items σ
    return (vs ++ rest, σ)

/-- The value of a template. -/
def rebuild (template : Form) (σ : Scope) : Eval (Value × Scope) :=
  match template.special? with
  | some (.unquote, args) => do
    let inner ← Eval.ofExcept (Special.quoted .unquote template args)
    below (.form inner) σ
  | some (.unquoteSplicing, _) => .fail template (.misplaced .outsideList)
  | _ =>
    match template with
    | .list items => do
      let (vs, σ) ← rebuildEach below items σ
      return (.list vs, σ)
    | _ => return (.ofForm template, σ)

/-- One level of a job. -/
def layer : Performer
  | .form f, σ => evalForm below f σ
  | .template f, σ => rebuild below f σ

end

/-- **A job with a number of levels left**, under a limit that failures name. -/
def perform (limit : Nat) : Nat → Performer
  | 0 => fun job _ => .fail job.site (.limitExceeded (.depth limit))
  | levels + 1 => layer (perform limit levels)

/-- The forms of a program in order; the value is that of the last one. -/
def runAll (limit : Nat) : Option Value → List Form → Scope → Eval (Option Value × Scope)
  | v, [], σ => return (v, σ)
  | _, f :: fs, σ => do
    Eval.ofExcept (f.checkNesting Form.nestingLimit)
    let (v, σ) ← perform limit limit (.form f) σ
    runAll limit (some v) fs σ

end Evaluator

/-- A memory, and how many levels deep programs may go in it. -/
structure Evaluator where
  maxDepth : Nat
  memory : Memory

namespace Evaluator

/-- How deep programs may go unless said otherwise. -/
def defaultMaxDepth : Nat := 128

/-- An evaluator with nothing in its memory. -/
def fresh (maxDepth : Nat) : Evaluator := ⟨maxDepth, .fresh⟩

/-- **Evaluates a program in a scope.** The value is that of the last form, and there is none for an empty
program. -/
def evaluate (ev : Evaluator) (forms : List Form) (σ : Scope) :
    Except Error (Option Value × Scope) × Evaluator :=
  let (result, memory) := (runAll ev.maxDepth none forms σ).run.run ev.memory
  (result, { ev with memory })

/-- Binds a name to a value in a new cell. -/
def bind (ev : Evaluator) (σ : Scope) (name : String) (v : Value) : Except Error Scope × Evaluator :=
  match ev.memory.store.alloc (some v) with
  | .ok (cell, store) => (.ok (Scope.bind σ name cell), { ev with memory := { ev.memory with store } })
  | .error e => (.error e, ev)

/-- The value of a name, if its cell is in this evaluator and has one. -/
def get? (ev : Evaluator) (σ : Scope) (name : String) : Option Value := do
  let cell ← Scope.find? σ name
  let content ← ev.memory.store.content? cell
  content

end Evaluator

end HostLisp
