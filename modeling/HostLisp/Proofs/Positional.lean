import HostLisp.Evaluator
import HostLisp.Proofs.CompilationDepth
import HostLisp.Proofs.ImportWalk

/-!
# Arguments by position

The rules of a keyword are checked and its arguments are taken apart in one go, so that the evaluator and the compiler
work on named parts. One can also check the rules only, and leave it to every step to take the arguments it needs by
their position, to look at their shape again, and to fall back on some error of its own where they are not as
expected. Here are the evaluator and the compiler in this way, with `report` for the errors to fall back on. They are
the evaluator and the compiler themselves whatever `report` is: **the rules leave nothing to report.**

* `Breach`: what a step can miss. `Special.argument`, `Special.nameOf`: arguments by position, and their shape.
* `Evaluator.Positional`, `Codegen.Positional`, `Compiler.Positional`: evaluation, code generation and imports.
* `Evaluator.Positional.layer_eq`, `Codegen.Positional.layer_eq`: **one level by position is one level.**
* `Compiler.Positional.nextRequest_eq`: an import loses no name, also when it is put back with fewer names.
* `Compiler.internal_of_compile`: the one internal error of compiling.
* `positional_eq`: **programs evaluate and compile by position as they do with named parts.**
-/

namespace HostLisp

open Host

/-! ## Arguments -/

/-- What a step can miss in arguments that it takes by position. -/
inductive Breach where
  | outOfRange (index : Nat)
  /-- a form that has to be a name -/
  | notName (form : Form)
  | noBody
  | entryNotPair (entry : Form)
  | entryKeyNotSymbol (key : Form)
  /-- a module name of an import that gets lost -/
  | nameLost

theorem ok_bind {ε α β : Type} (a : α) (f : α → Except ε β) : (Except.ok a >>= f) = f a := rfl

/-- A place inside a host object is a list. -/
theorem Form.exists_list_of_isPropertyAccess {f : Form} (h : f.isPropertyAccess = true) : ∃ items, f = .list items := by
  cases f with
  | literal l => cases h
  | symbol name => cases h
  | list items => exact ⟨items, rfl⟩

namespace Special

/-- The rules of a keyword. The parts are left out. -/
def check (whole : Form) (k : Keyword) (args : List Form) : Except Error Unit :=
  (ofArguments whole k args).map fun _ => ()

/-- The rule of a property access. -/
def checkAccess (whole : Form) (args : List Form) : Except Error Unit :=
  (propertyArguments whole args).map fun _ => ()

section

variable (report : Breach → Error)

/-- The item at an index. -/
def argument {α : Type} (items : List α) (i : Nat) : Except Error α :=
  match items[i]? with
  | some a => .ok a
  | none => .error (report (.outOfRange i))

/-- The items from an index on. -/
def argumentsFrom {α : Type} (items : List α) (i : Nat) : Except Error (List α) :=
  if i ≤ items.length then .ok (items.drop i) else .error (report (.outOfRange i))

/-- The name that a form is. -/
def nameOf (form : Form) : Except Error String :=
  match form.standardName? with
  | some name => .ok name
  | none => .error (report (.notName form))

/-- The names that a form has for parameters. -/
def parametersOf : Form → Except Error Parameters
  | .list names => do return .fixed (← names.mapM (nameOf report))
  | form => do return .rest (← nameOf report form)

/-- The body of a function: all arguments but the first. -/
def bodyOf (args : List Form) : Except Error Body := do
  match ← argumentsFrom report args 1 with
  | first :: rest => return .ofForms first rest
  | [] => .error (report .noBody)

/-- The key and the value of an entry. -/
def entryOf : Form → Except Error (String × Form)
  | .list [.symbol key, value] => .ok (key, value)
  | .list [key, _] => .error (report (.entryKeyNotSymbol key))
  | form => .error (report (.entryNotPair form))

variable {report}

theorem nameOf_symbol {name : String} (h : isPropertyName name = false) : nameOf report (.symbol name) = .ok name := by
  simp [nameOf, Form.standardName?, h]

theorem nameOf_of_boundName {f : SyntaxFault} {form : Form} {name : String} (h : boundName f form = .ok name) :
    nameOf report form = .ok name := by
  obtain ⟨rfl, hname⟩ := boundName_eq_ok h
  exact nameOf_symbol hname

theorem mapM_nameOf {f : SyntaxFault} {forms : List Form} {names : List String}
    (h : forms.mapM (boundName f) = .ok names) : forms.mapM (nameOf report) = .ok names := by
  induction forms generalizing names with
  | nil => exact h
  | cons form forms ih =>
    rw [List.mapM_cons] at h ⊢
    obtain ⟨name, hname, h⟩ := bind_eq_ok_iff.1 h
    obtain ⟨rest, hrest, h⟩ := bind_eq_ok_iff.1 h
    rw [nameOf_of_boundName hname, ih hrest]
    exact h

/-- Parameters that keep the rules are names. -/
theorem parametersOf_eq {form : Form} {params : Parameters} (h : parameters form = .ok params) :
    parametersOf report form = .ok params := by
  unfold parameters at h
  split at h
  · obtain ⟨names, hnames, h⟩ := bind_eq_ok_iff.1 h
    rw [parametersOf, mapM_nameOf hnames]
    exact h
  · rename_i hlist
    obtain ⟨name, hname, h⟩ := bind_eq_ok_iff.1 h
    rw [parametersOf, nameOf_of_boundName hname]
    · exact h
    · exact hlist

/-- **To check and go on by position is to take apart and go on with the parts**, if the two ways to go on agree. -/
theorem check_bind {β : Type} {whole : Form} {k : Keyword} {args : List Form} {y : Except Error β}
    {f : Special → Except Error β} (h : ∀ s, Parts k args s → y = f s) :
    (check whole k args >>= fun _ => y) = ofArguments whole k args >>= f := by
  unfold check
  cases hs : ofArguments whole k args with
  | error e => rfl
  | ok s => exact h s (parts_of_ofArguments hs)

/-- The same as `check_bind` in the evaluator. -/
theorem ofExcept_check_bind {β : Type} {whole : Form} {k : Keyword} {args : List Form} {y : Eval β}
    {f : Special → Eval β} (h : ∀ s, Parts k args s → y = f s) :
    (Eval.ofExcept (check whole k args) >>= fun _ => y) = Eval.ofExcept (ofArguments whole k args) >>= f := by
  unfold check
  cases hs : ofArguments whole k args with
  | error e => rfl
  | ok s => exact h s (parts_of_ofArguments hs)

/-- A quotation that keeps the rules has its one argument. -/
theorem check_argument {k : Keyword} {whole : Form} {args : List Form} {g : Form → Special}
    (hk : ofArguments whole k args = (quoted k whole args).map g) :
    (check whole k args >>= fun _ => argument report args 0) = quoted k whole args := by
  rw [check, hk]
  match args with
  | [] => rfl
  | [inner] => rfl
  | _ :: _ :: _ => rfl

end

end Special

open Special

/-! ## Evaluation -/

namespace Evaluator

namespace Positional

section

variable (report : Breach → Error) (below : Performer)

/-- The value of a special form. -/
def evalSpecial (site : Form) (k : Keyword) (args : List Form) (σ : Scope) : Eval (Value × Scope) :=
  match k with
  | .var => do
    let name ← Eval.ofExcept (argument report args 0 >>= nameOf report)
    let cell ← Eval.alloc none
    let init ← Eval.ofExcept (argument report args 1)
    let (v, σ) ← below (.form init) (σ.bind name cell)
    Eval.write cell v
    return (v, σ)
  | .fn => do
    let params ← Eval.ofExcept (argument report args 0 >>= parametersOf report)
    let body ← Eval.ofExcept (bodyOf report args)
    let stamp ← Eval.stamp
    return (.closure ⟨stamp, params, body, σ⟩, σ)
  | .assign => do
    let target ← Eval.ofExcept (argument report args 0)
    match target with
    | .symbol name =>
      match σ.find? name with
      | none => .fail target (.undefinedIdentifier name)
      | some cell => do
        let value ← Eval.ofExcept (argument report args 1)
        let (v, σ) ← below (.form value) σ
        Eval.write cell v
        return (v, σ)
    | _ => .fail site (.misplaced (.hostObject Keyword.assign.name))
  | .conditional => do
    let test ← Eval.ofExcept (argument report args 0)
    let (v, σ) ← below (.form test) σ
    let branch ← Eval.ofExcept (argument report args (if v.isTruthy then 1 else 2))
    below (.form branch) σ
  | .quote => do
    let datum ← Eval.ofExcept (argument report args 0)
    return (.ofForm datum, σ)
  | .quasiquote => do
    let template ← Eval.ofExcept (argument report args 0)
    below (.template template) σ
  | .list => do
    let (vs, σ) ← evalEach below args σ
    return (.list vs, σ)
  | .unquote => .fail site (.misplaced (.outsideTemplate .unquote))
  | .unquoteSplicing => .fail site (.misplaced (.outsideTemplate .unquoteSplicing))
  | .importModules => .fail site (.misplaced .importInside)
  | .member => .fail site (.misplaced (.hostObject Keyword.member.name))
  | .object => .fail site (.misplaced (.hostObject Keyword.object.name))
  | .defineSyntax => .fail site (.misplaced (.unexpandedInEvaluation .defineSyntax))
  | .syntaxRules => .fail site (.misplaced (.unexpandedInEvaluation .syntaxRules))

/-- The value of a form. -/
def evalForm (form : Form) (σ : Scope) : Eval (Value × Scope) :=
  match form.shape with
  | .literal l => return (.literal l, σ)
  | .name name => do return (← lookup form name σ, σ)
  | .empty => .fail form .emptyApplication
  | .special k args => do
    Eval.ofExcept (check form k args)
    evalSpecial report below form k args σ
  | .access key args => do
    Eval.ofExcept (checkAccess form args)
    .fail form (.misplaced (.hostObject ("." ++ key)))
  | .application head args => apply below form head args σ

/-- What one item adds to a rebuilt list. -/
def rebuildItem (item : Form) (σ : Scope) : Eval (List Value × Scope) :=
  match item.special? with
  | some (.unquoteSplicing, args) => do
    Eval.ofExcept (check item .unquoteSplicing args)
    let inner ← Eval.ofExcept (argument report args 0)
    let (v, σ) ← below (.form inner) σ
    match v with
    | .list vs => return (vs, σ)
    | _ => .fail item (.wrongType (.spliceNotList v.typeName))
  | _ => do
    let (v, σ) ← below (.template item) σ
    return ([v], σ)

/-- The items of a rebuilt list. -/
def rebuildEach : List Form → Scope → Eval (List Value × Scope)
  | [], σ => return ([], σ)
  | item :: items, σ => do
    let (vs, σ) ← rebuildItem report below item σ
    let (rest, σ) ← rebuildEach items σ
    return (vs ++ rest, σ)

/-- The value of a template. -/
def rebuild (template : Form) (σ : Scope) : Eval (Value × Scope) :=
  match template.special? with
  | some (.unquote, args) => do
    Eval.ofExcept (check template .unquote args)
    let inner ← Eval.ofExcept (argument report args 0)
    below (.form inner) σ
  | some (.unquoteSplicing, _) => .fail template (.misplaced .outsideList)
  | _ =>
    match template with
    | .list items => do
      let (vs, σ) ← rebuildEach report below items σ
      return (.list vs, σ)
    | _ => return (.ofForm template, σ)

/-- One level of a job. -/
def layer : Performer
  | .form f, σ => evalForm report below f σ
  | .template f, σ => rebuild report below f σ

end

section

variable (report : Breach → Error)

/-- A job with a number of levels left. -/
def perform (limit : Nat) : Nat → Performer
  | 0 => fun job _ => .fail job.site (.limitExceeded (.depth limit))
  | levels + 1 => layer report (perform limit levels)

/-- The forms of a program in order. -/
def runAll (limit : Nat) : Option Value → List Form → Scope → Eval (Option Value × Scope)
  | v, [], σ => return (v, σ)
  | _, f :: fs, σ => do
    Eval.ofExcept (f.checkNesting Form.nestingLimit)
    let (v, σ) ← perform report limit limit (.form f) σ
    runAll limit (some v) fs σ

/-- Evaluates a program in a scope. -/
def evaluate (ev : Evaluator) (forms : List Form) (σ : Scope) : Except Error (Option Value × Scope) × Evaluator :=
  let (result, memory) := (runAll report ev.maxDepth none forms σ).run.run ev.memory
  (result, { ev with memory })

end

variable {report : Breach → Error} {below : Performer}

/-- **What a special form needs is where it is looked for.** -/
theorem evalSpecial_eq {k : Keyword} {args : List Form} {special : Special} (h : Parts k args special) (site : Form)
    (σ : Scope) : evalSpecial report below site k args σ = Evaluator.evalSpecial below site special σ := by
  cases h with
  | var hname =>
    simp only [evalSpecial, argument, List.getElem?_cons_zero, List.getElem?_cons_succ, ok_bind, nameOf_symbol hname]
    rfl
  | fn hparams =>
    simp only [evalSpecial, argument, List.getElem?_cons_zero, ok_bind, parametersOf_eq hparams]
    rfl
  | assignProperty haccess =>
    obtain ⟨items, rfl⟩ := Form.exists_list_of_isPropertyAccess haccess
    rfl
  | conditional =>
    -- one of the branches is looked for only once the test is known
    refine congrArg (below _ σ >>= ·) (funext fun p => ?_)
    simp only
    cases p.1.isTruthy
    · rfl
    · rfl
  | assignName | quote | quasiquote | list | unquote | unquoteSplicing | member | object | importModules
  | defineSyntax | syntaxRules => rfl

theorem evalForm_eq (form : Form) (σ : Scope) :
    evalForm report below form σ = Evaluator.evalForm below form σ := by
  unfold evalForm Evaluator.evalForm
  cases form.shape with
  | literal | name | empty | application => rfl
  | special k args => exact ofExcept_check_bind fun s hs => evalSpecial_eq hs form σ
  | access key args =>
    cases args with
    | nil => rfl
    | cons target args => rfl

/-- An unquotation in a template is checked on its own. -/
theorem ofExcept_check_quoted {β : Type} {k : Keyword} {whole : Form} {args : List Form} {g : Form → Special}
    (hk : ofArguments whole k args = (quoted k whole args).map g) (f : Form → Eval β) :
    (Eval.ofExcept (check whole k args) >>= fun _ => Eval.ofExcept (argument report args 0) >>= f) =
      Eval.ofExcept (quoted k whole args) >>= f := by
  rw [← check_argument hk]
  cases check whole k args with
  | error e => rfl
  | ok u => rfl

theorem rebuildItem_eq (item : Form) (σ : Scope) :
    rebuildItem report below item σ = Evaluator.rebuildItem below item σ := by
  unfold rebuildItem Evaluator.rebuildItem
  rcases item.special? with _ | ⟨k, args⟩
  · rfl
  · cases k with
    | unquoteSplicing => exact ofExcept_check_quoted rfl _
    | _ => rfl

theorem rebuildEach_eq (items : List Form) (σ : Scope) :
    rebuildEach report below items σ = Evaluator.rebuildEach below items σ := by
  induction items generalizing σ with
  | nil => rfl
  | cons item items ih =>
    simp only [rebuildEach, Evaluator.rebuildEach, rebuildItem_eq, ih]

theorem rebuild_eq (template : Form) (σ : Scope) :
    rebuild report below template σ = Evaluator.rebuild below template σ := by
  unfold rebuild Evaluator.rebuild
  simp only [rebuildEach_eq]
  rcases template.special? with _ | ⟨k, args⟩
  · rfl
  · cases k with
    | unquote => exact ofExcept_check_quoted rfl _
    | _ => rfl

/-- **One level of a job by position is one level of the job.** -/
theorem layer_eq (below : Performer) : layer report below = Evaluator.layer below := by
  funext job σ
  cases job with
  | form f => exact evalForm_eq f σ
  | template f => exact rebuild_eq f σ

theorem perform_eq (limit levels : Nat) : perform report limit levels = Evaluator.perform limit levels := by
  induction levels with
  | zero => rfl
  | succ levels ih => rw [perform, Evaluator.perform, layer_eq, ih]

theorem runAll_eq (limit : Nat) (v : Option Value) (forms : List Form) (σ : Scope) :
    runAll report limit v forms σ = Evaluator.runAll limit v forms σ := by
  induction forms generalizing v σ with
  | nil => rfl
  | cons f fs ih => simp only [runAll, Evaluator.runAll, perform_eq, ih]

theorem evaluate_eq (ev : Evaluator) (forms : List Form) (σ : Scope) :
    evaluate report ev forms σ = ev.evaluate forms σ := by
  rw [evaluate, runAll_eq]
  rfl

end Positional

end Evaluator

/-! ## Code generation -/

namespace Codegen

namespace Positional

section

variable (report : Breach → Error)

/-- Fresh targets for names from left to right. -/
def putEach : List Form → Renaming → Except Error (List String × Renaming)
  | [], ρ => return ([], ρ)
  | form :: forms, ρ => do
    let name ← nameOf report form
    let (target, ρ) ← ρ.put name form
    let (targets, ρ) ← putEach forms ρ
    return (target :: targets, ρ)

/-- Fresh targets for the parameters of a function. -/
def putParameters (form : Form) (ρ : Renaming) : Except Error (Parameters × Renaming) :=
  match form with
  | .list names => do
    let (targets, ρ) ← putEach report names ρ
    return (.fixed targets, ρ)
  | _ => do
    let name ← nameOf report form
    let (target, ρ) ← ρ.put name form
    return (.rest target, ρ)

variable (below : Emitter)

/-- The fields of an object from left to right. -/
def compileFields : List Form → Renaming → Except Error (List (String × Expr) × Renaming)
  | [], ρ => return ([], ρ)
  | form :: forms, ρ => do
    let (key, value) ← entryOf report form
    let (e, ρ) ← below (.form value) ρ
    let (es, ρ) ← compileFields forms ρ
    return ((key, e) :: es, ρ)

/-- A declaration. -/
def compileVar (args : List Form) (ρ : Renaming) : Except Error (String × Expr × Renaming) := do
  let form ← argument report args 0
  let name ← nameOf report form
  let (target, ρ) ← ρ.put name form
  let init ← argument report args 1
  let (e, ρ) ← below (.form init) ρ
  return (target, e, ρ)

/-- The end of a function body. A declaration there does not come by way of the other forms, and is checked here. -/
def compileTail (tail : Form) (ρ : Renaming) : Except Error (List Expr × Expr) :=
  match tail.special? with
  | some (.var, args) => do
    check tail .var args
    let (target, e, _) ← compileVar report below args ρ
    return ([.declare target e], .identifier target)
  | _ => do
    let (e, _) ← below (.form tail) ρ
    return ([], e)

/-- A function. -/
def compileFn (args : List Form) (ρ : Renaming) : Except Error Expr := do
  let form ← argument report args 0
  let (params, ρ) ← putParameters report form ρ
  let body ← bodyOf report args
  let (leading, ρ) ← compileEach below body.leading ρ
  let (last, result) ← compileTail report below body.last ρ
  return .function params (leading ++ last) result

/-- The host code of a special form. -/
def compileSpecial (site : Form) (k : Keyword) (args : List Form) (ρ : Renaming) : Compiled :=
  match k with
  | .var => do
    let (target, e, ρ) ← compileVar report below args ρ
    return (.declare target e, ρ)
  | .fn => do return (← compileFn report below args ρ, ρ)
  | .assign => do
    let form ← argument report args 0
    let (place, ρ) ← match form with
      | .symbol name => do pure (Expr.identifier (← targetOf ρ name), ρ)
      | _ => below (.form form) ρ
    let value ← argument report args 1
    let (e, ρ) ← below (.form value) ρ
    return (.assign place e, ρ)
  | .conditional => do
    let (test, ρ) ← below (.form (← argument report args 0)) ρ
    let (consequent, ρ) ← below (.form (← argument report args 1)) ρ
    let (alternative, ρ) ← below (.form (← argument report args 2)) ρ
    return (.conditional test consequent alternative, ρ)
  | .quote => do return (quoted (← argument report args 0), ρ)
  | .quasiquote => do below (.template (← argument report args 0)) ρ
  | .list => do
    let (es, ρ) ← compileEach below args ρ
    return (.array es, ρ)
  | .member => do
    let (target, ρ) ← below (.form (← argument report args 0)) ρ
    let (key, ρ) ← below (.form (← argument report args 1)) ρ
    return (.index target key, ρ)
  | .object => do
    let (fields, ρ) ← compileFields report below args ρ
    return (.object fields, ρ)
  | .unquote => fail site (.misplaced (.outsideTemplate .unquote))
  | .unquoteSplicing => fail site (.misplaced (.outsideTemplate .unquoteSplicing))
  | .importModules => fail site (.misplaced .importInside)
  | .defineSyntax => fail site (.misplaced (.unexpandedInCompilation .defineSyntax))
  | .syntaxRules => fail site (.misplaced (.unexpandedInCompilation .syntaxRules))

/-- The host code of a property access, or of a call if arguments follow the object. -/
def compileAccess (key : String) (args : List Form) (ρ : Renaming) : Compiled := do
  let (target, ρ) ← below (.form (← argument report args 0)) ρ
  if args.length = 1 then return (.member target key, ρ)
  let (es, ρ) ← compileEach below (← argumentsFrom report args 1) ρ
  return (.call (.member target key) es, ρ)

/-- The host code of a form. -/
def compileForm (form : Form) (ρ : Renaming) : Compiled :=
  match form.shape with
  | .literal l => return (.literal l, ρ)
  | .name name => do return (.identifier (← targetOf ρ name), ρ)
  | .empty => fail form .emptyApplication
  | .special k args => do
    check form k args
    compileSpecial report below form k args ρ
  | .access key args => do
    checkAccess form args
    compileAccess report below key args ρ
  | .application head args => do
    let (callee, ρ) ← below (.form head) ρ
    let (es, ρ) ← compileEach below args ρ
    return (.call callee es, ρ)

/-- One part of a template list. -/
def compilePart (item : Form) (ρ : Renaming) : Except Error (Part × Renaming) :=
  match item.special? with
  | some (.unquoteSplicing, args) => do
    check item .unquoteSplicing args
    let (e, ρ) ← below (.form (← argument report args 0)) ρ
    return (.splice e, ρ)
  | _ => do
    let (e, ρ) ← below (.template item) ρ
    return (.item e, ρ)

/-- The parts of a template list from left to right. -/
def compileParts : List Form → Renaming → Except Error (List Part × Renaming)
  | [], ρ => return ([], ρ)
  | item :: items, ρ => do
    let (part, ρ) ← compilePart report below item ρ
    let (parts, ρ) ← compileParts items ρ
    return (part :: parts, ρ)

/-- The host code of a template. -/
def compileTemplate (template : Form) (ρ : Renaming) : Compiled :=
  match template.special? with
  | some (.unquote, args) => do
    check template .unquote args
    below (.form (← argument report args 0)) ρ
  | some (.unquoteSplicing, _) => fail template (.misplaced .outsideList)
  | _ =>
    match template with
    | .list items => do
      let (parts, ρ) ← compileParts report below items ρ
      return (joined parts, ρ)
    | _ => return (quoted template, ρ)

/-- One level of a job. -/
def layer : Emitter
  | .form f, ρ => compileForm report below f ρ
  | .template f, ρ => compileTemplate report below f ρ

/-- A job with a number of levels left. -/
def compile (limit : Nat) : Nat → Emitter
  | 0 => fun job _ => fail job.site (.limitExceeded (.depth limit))
  | levels + 1 => layer report (compile limit levels)

end

variable {report : Breach → Error} {below : Emitter}

/-- Names are looked at one after the other, with targets put in between. -/
theorem putEach_eq {f : SyntaxFault} {forms : List Form} {names : List String}
    (h : forms.mapM (boundName f) = .ok names) (ρ : Renaming) :
    putEach report forms ρ = Codegen.putEach names ρ := by
  induction forms generalizing names ρ with
  | nil => cases h; rfl
  | cons form forms ih =>
    rw [List.mapM_cons] at h
    obtain ⟨name, hname, h⟩ := bind_eq_ok_iff.1 h
    obtain ⟨rest, hrest, h⟩ := bind_eq_ok_iff.1 h
    cases h
    obtain ⟨rfl, hstandard⟩ := boundName_eq_ok hname
    simp only [putEach, Codegen.putEach, nameOf_symbol hstandard, ok_bind, ih hrest]

theorem putParameters_eq {form : Form} {params : Parameters} (h : parameters form = .ok params) (ρ : Renaming) :
    putParameters report form ρ = Codegen.putParameters params ρ := by
  unfold parameters at h
  split at h
  · obtain ⟨names, hnames, h⟩ := bind_eq_ok_iff.1 h
    cases h
    simp only [putParameters, Codegen.putParameters, putEach_eq hnames]
  · obtain ⟨name, hname, h⟩ := bind_eq_ok_iff.1 h
    cases h
    obtain ⟨rfl, hstandard⟩ := boundName_eq_ok hname
    simp only [putParameters, Codegen.putParameters, nameOf_symbol hstandard, ok_bind]

theorem compileFields_eq (entries : List (String × Form)) (ρ : Renaming) :
    compileFields report below (entries.map fun e => .list [.symbol e.1, e.2]) ρ =
      Codegen.compileFields below entries ρ := by
  induction entries generalizing ρ with
  | nil => rfl
  | cons entry entries ih =>
    simp only [List.map_cons, compileFields, Codegen.compileFields, entryOf, ok_bind, ih]

theorem compileVar_eq {name : String} (hname : isPropertyName name = false) (init : Form) (ρ : Renaming) :
    compileVar report below [.symbol name, init] ρ = Codegen.compileVar below name init ρ := by
  simp only [compileVar, argument, List.getElem?_cons_zero, ok_bind, nameOf_symbol hname]
  rfl

theorem compileTail_eq (tail : Form) (ρ : Renaming) :
    compileTail report below tail ρ = Codegen.compileTail below tail ρ := by
  unfold compileTail Codegen.compileTail
  rcases tail.special? with _ | ⟨k, args⟩
  · rfl
  · cases k with
    | var =>
      simp only [check, ofArguments]
      cases hd : declaration tail args with
      | error e => rfl
      | ok p =>
        obtain ⟨rfl, hname⟩ := declaration_eq_ok hd
        simp only [ok_bind]
        rw [← compileVar_eq hname]
        rfl
    | _ => rfl

theorem compileFn_eq {p first : Form} {rest : List Form} {params : Parameters} (hp : parameters p = .ok params)
    (ρ : Renaming) :
    compileFn report below (p :: first :: rest) ρ = Codegen.compileFn below params (.ofForms first rest) ρ := by
  simp only [compileFn, argument, List.getElem?_cons_zero, ok_bind, putParameters_eq hp, compileTail_eq]
  rfl

/-- **What a special form needs is where it is looked for.** -/
theorem compileSpecial_eq {k : Keyword} {args : List Form} {special : Special} (h : Parts k args special) (site : Form)
    (ρ : Renaming) : compileSpecial report below site k args ρ = Codegen.compileSpecial below site special ρ := by
  cases h with
  | var hname => simp only [compileSpecial, Codegen.compileSpecial, compileVar_eq hname]
  | fn hparams => simp only [compileSpecial, Codegen.compileSpecial, compileFn_eq hparams]
  | assignName hname =>
    simp only [compileSpecial, Codegen.compileSpecial, argument, List.getElem?_cons_zero, ok_bind]
    cases targetOf ρ _ with
    | error e => rfl
    | ok target => rfl
  | assignProperty haccess =>
    obtain ⟨items, rfl⟩ := Form.exists_list_of_isPropertyAccess haccess
    rfl
  | object entries => simp only [compileSpecial, Codegen.compileSpecial, compileFields_eq]
  | conditional | quote | quasiquote | list | member | unquote | unquoteSplicing | importModules | defineSyntax
  | syntaxRules => rfl

/-- Without the rules something may be missed: `(quote)` has nothing to quote. -/
example (site : Form) (ρ : Renaming) :
    compileSpecial report below site .quote [] ρ = .error (report (.outOfRange 0)) := rfl

theorem compileAccess_eq (key : String) (target : Form) (args : List Form) (ρ : Renaming) :
    compileAccess report below key (target :: args) ρ = Codegen.compileAccess below key target args ρ := by
  refine congrArg (below _ ρ >>= ·) (funext fun p => ?_)
  cases args with
  | nil => rfl
  | cons arg args => rfl

theorem compileForm_eq (form : Form) (ρ : Renaming) :
    compileForm report below form ρ = Codegen.compileForm below form ρ := by
  unfold compileForm Codegen.compileForm
  cases form.shape with
  | literal | name | empty | application => rfl
  | special k args => exact check_bind fun s hs => compileSpecial_eq hs form ρ
  | access key args =>
    cases args with
    | nil => rfl
    | cons target args => exact compileAccess_eq key target args ρ

theorem check_quoted {β : Type} {k : Keyword} {whole : Form} {args : List Form} {g : Form → Special}
    (hk : ofArguments whole k args = (Special.quoted k whole args).map g) (f : Form → Except Error β) :
    (check whole k args >>= fun _ => argument report args 0 >>= f) = Special.quoted k whole args >>= f := by
  rw [← check_argument hk, bind_assoc]

theorem compilePart_eq (item : Form) (ρ : Renaming) :
    compilePart report below item ρ = Codegen.compilePart below item ρ := by
  unfold compilePart Codegen.compilePart
  rcases item.special? with _ | ⟨k, args⟩
  · rfl
  · cases k with
    | unquoteSplicing => exact check_quoted rfl _
    | _ => rfl

theorem compileParts_eq (items : List Form) (ρ : Renaming) :
    compileParts report below items ρ = Codegen.compileParts below items ρ := by
  induction items generalizing ρ with
  | nil => rfl
  | cons item items ih => simp only [compileParts, Codegen.compileParts, compilePart_eq, ih]

theorem compileTemplate_eq (template : Form) (ρ : Renaming) :
    compileTemplate report below template ρ = Codegen.compileTemplate below template ρ := by
  unfold compileTemplate Codegen.compileTemplate
  simp only [compileParts_eq]
  rcases template.special? with _ | ⟨k, args⟩
  · rfl
  · cases k with
    | unquote => exact check_quoted rfl _
    | _ => rfl

/-- **One level of a job by position is one level of the job.** -/
theorem layer_eq (below : Emitter) : layer report below = Codegen.layer below := by
  funext job ρ
  cases job with
  | form f => exact compileForm_eq f ρ
  | template f => exact compileTemplate_eq f ρ

theorem compile_eq (limit levels : Nat) : compile report limit levels = Codegen.compile limit levels := by
  induction levels with
  | zero => rfl
  | succ levels ih => rw [compile, Codegen.compile, layer_eq, ih]

end Positional

end Codegen

/-! ## Programs -/

namespace Compiler

namespace Positional

section

variable (report : Breach → Error)

/-- A draft with one more statement. -/
def push (config : Config) (d : Draft) (form : Form) : Except Error Draft := do
  form.checkNesting Form.nestingLimit
  let d ← if !d.program.table && SymbolTable.needed [form] then d.addTable else pure d
  let (e, ρ) ← Codegen.Positional.compile report config.maxDepth config.maxDepth (.form form) d.names
  return ⟨ρ, { d.program with statements := d.program.statements ++ [e] }⟩

/-- The host text of a program. -/
def compile (config : Config) (ρ : Renaming) (forms : List Form) : Except Error String := do
  let d ← Draft.begin config ρ forms
  let d ← forms.foldlM (push report config) d
  return d.program.render config.indent

/-- The module name that a form is. -/
def importName? : Form → Option String
  | .literal (.string s) => some s
  | _ => none

/-- What the arguments of an import ask for next: the first module that has not been requested, and the rest behind it as
an import of its own. Forms that are no names would be passed over, and the names behind them would not stand where
the arguments do. -/
def nextRequest (requested : List String) (args : List Form) : Except Error (Option (String × List Form)) :=
  let names := args.filterMap importName?
  if names.length < args.length then .error (report .nameLost)
  else
    match names.findIdx? fun name => name ∉ requested with
    | none => return none
    | some position => do
      let name ← argument report names position
      let remaining ← argumentsFrom report args (position + 1)
      let rest : List Form :=
        if remaining.isEmpty then [] else [.list (.symbol Keyword.importModules.name :: remaining)]
      return some (name, rest)

/-- What an import asks for next, or `none` for a form that is no import. -/
def importStep (requested : List String) (form : Form) : Option (Except Error (Option (String × List Form))) :=
  match form.special? with
  | some (.importModules, args) => some do
    form.checkNesting Form.nestingLimit
    check form .importModules args
    nextRequest report requested args
  | _ => none

end

variable {report : Breach → Error}

theorem push_eq (config : Config) : push report config = fun d form => d.push config form := by
  funext d form
  unfold push Draft.push
  rw [Codegen.Positional.compile_eq]

theorem compile_eq (config : Config) (ρ : Renaming) (forms : List Form) :
    compile report config ρ forms = Compiler.compile config ρ forms := by
  unfold compile Compiler.compile compileProgram
  rw [push_eq]
  cases Draft.begin config ρ forms with
  | error e => rfl
  | ok d =>
    simp only [ok_bind]
    cases forms.foldlM (Draft.push config) d with
    | error e => rfl
    | ok d => rfl

/-- The first name that has not been requested, by its position. -/
theorem firstNew?_eq (requested names : List String) :
    firstNew? requested names = (names.findIdx? fun name => name ∉ requested).bind fun i =>
      names[i]?.map fun name => (name, names.drop (i + 1)) := by
  induction names with
  | nil => rfl
  | cons name names ih =>
    rw [firstNew?, List.findIdx?_cons]
    by_cases h : name ∈ requested
    · -- the name is passed over, and the positions behind it are one higher
      have hold : decide (name ∉ requested) = false := by simp [h]
      rw [if_pos h, ih, hold, if_neg Bool.false_ne_true, Option.bind_map]
      rfl
    · have hnew : decide (name ∉ requested) = true := by simp [h]
      rw [if_neg h, hnew, if_pos rfl]
      rfl

theorem filterMap_importName? (names : List String) :
    (names.map fun name => Form.literal (.string name)).filterMap importName? = names := by
  rw [List.filterMap_map]
  exact List.filterMap_some

/-- **An import loses no name**, and what is put back of it is an import of the names behind. -/
theorem nextRequest_eq (requested names : List String) :
    nextRequest report requested (names.map fun name => .literal (.string name)) =
      .ok ((firstNew? requested names).map fun p => (p.1, importRest p.2)) := by
  unfold nextRequest
  rw [filterMap_importName?, List.length_map, firstNew?_eq]
  simp only [Nat.lt_irrefl, if_false]
  cases hposition : names.findIdx? fun name => name ∉ requested with
  | none => rfl
  | some position =>
    obtain ⟨hlt, -⟩ := List.findIdx?_eq_some_iff_getElem.1 hposition
    have hname : names[position]? = some names[position] := List.getElem?_eq_getElem hlt
    have hremaining : position + 1 ≤ (names.map fun name => Form.literal (.string name)).length := by
      rw [List.length_map]
      omega
    simp only [argument, hname, ok_bind, argumentsFrom, if_pos hremaining, Option.bind_some, Option.map_some,
      importRest, importForm, ← List.map_drop, List.isEmpty_map]
    rfl

theorem importStep_eq (requested : List String) (form : Form) : importStep report requested form =
    (importNames? form).map fun names => names.map fun names =>
      (firstNew? requested names).map fun p => (p.1, importRest p.2) := by
  unfold importStep importNames?
  rcases form.special? with _ | ⟨k, args⟩
  · rfl
  · cases k with
    | importModules =>
      simp only [Option.map_some, check, ofArguments]
      cases form.checkNesting Form.nestingLimit with
      | error e => rfl
      | ok u =>
        cases hnames : moduleNames form args with
        | error e => rfl
        | ok names =>
          obtain ⟨-, rfl, -⟩ := moduleNames_eq_ok_iff.1 hnames
          exact congrArg some (nextRequest_eq requested names)
    | _ => rfl

theorem importStep_new {requested : List String} {form : Form} {name : String} {rest : List Form}
    (h : importStep report requested form = some (.ok (some (name, rest)))) : name ∉ requested := by
  rw [importStep_eq] at h
  obtain ⟨names?, -, h⟩ := Option.map_eq_some_iff.1 h
  cases names? with
  | error e => cases h
  | ok names =>
    obtain ⟨p, hp, heq⟩ := Option.map_eq_some_iff.1 (Except.ok.inj h)
    cases heq
    exact firstNew?_new hp

section

variable (report : Breach → Error) (config : Config) (library : Library)

/-- Compiles pending forms, with imports replaced as they come. -/
def inline (requested : List String) (d : Draft) : List Form → Except Error Draft × List String
  | [] => (.ok d, requested)
  | form :: pending =>
    match hstep : importStep report requested form with
    | none =>
      match push report config d form with
      | .error e => (.error e, requested)
      | .ok d => inline requested d pending
    | some (.error e) => (.error e, requested)
    | some (.ok none) => inline requested d pending
    | some (.ok (some (name, rest))) =>
      match hforms : library.resolve name with
      | .error e => (.error e, requested ++ [name])
      | .ok forms =>
        have := Library.remaining_lt (importStep_new hstep) hforms
        inline (requested ++ [name]) d (forms ++ rest ++ pending)
termination_by pending => (library.remaining requested, pending.length)

/-- The host text of a program with imports, and the modules requested for it. -/
def compileWithImports (ρ : Renaming) (forms : List Form) : Except Error String × List String :=
  match Draft.begin config ρ forms with
  | .error e => (.error e, [])
  | .ok d =>
    let (result, requested) := inline report config library [] d forms
    (result.map fun d => d.program.render config.indent, requested)

end

variable {config : Config} {library : Library}

/-- What happens to the first pending form. -/
theorem inline_cons (requested : List String) (d : Draft) (form : Form) (pending : List Form) :
    inline report config library requested d (form :: pending) =
      match importStep report requested form with
      | none =>
        match d.push config form with
        | .error e => (.error e, requested)
        | .ok d => inline report config library requested d pending
      | some (.error e) => (.error e, requested)
      | some (.ok none) => inline report config library requested d pending
      | some (.ok (some (name, rest))) =>
        match library.resolve name with
        | .error e => (.error e, requested ++ [name])
        | .ok forms => inline report config library (requested ++ [name]) d (forms ++ rest ++ pending) := by
  rw [inline, push_eq]
  split
  · rename_i hstep
    rw [hstep]
  · rename_i hstep
    rw [hstep]
  · rename_i hstep
    rw [hstep]
  · rename_i hstep
    split
    · rename_i hforms
      simp only [hstep, hforms]
    · rename_i hforms
      simp only [hstep, hforms]

/-- **Imports replaced by position are imports replaced.** -/
theorem inline_eq (requested : List String) (d : Draft) (pending : List Form) :
    inline report config library requested d pending = Compiler.inline config library requested d pending := by
  fun_induction Compiler.inline config library requested d pending with
  | case1 requested d => rw [inline]
  | case2 requested d form pending hno e hpush => simp [inline_cons, importStep_eq, hno, hpush]
  | case3 requested d form pending hno d' hpush ih => simp [inline_cons, importStep_eq, hno, hpush, ih]
  | case4 requested d form pending e hbad => simp [inline_cons, importStep_eq, hbad, Except.map]
  | case5 requested d form pending names hnames hold ih =>
    simp [inline_cons, importStep_eq, hnames, hold, Except.map, ih]
  | case6 requested d form pending names hnames name rest hnew e hforms =>
    simp [inline_cons, importStep_eq, hnames, hnew, hforms, Except.map]
  | case7 requested d form pending names hnames name rest hnew forms hforms _ ih =>
    rw [inline_cons, importStep_eq, hnames, ← ih]
    simp [hnew, hforms, Except.map]

theorem compileWithImports_eq (config : Config) (library : Library) (ρ : Renaming) (forms : List Form) :
    compileWithImports report config library ρ forms = Compiler.compileWithImports config library ρ forms := by
  unfold compileWithImports Compiler.compileWithImports
  cases Draft.begin config ρ forms with
  | error e => rfl
  | ok d => simp only [inline_eq]

end Positional

end Compiler

/-! ## Internal errors -/

/-- Of the internal errors, only that the name of the symbol table is taken. -/
def Codegen.Comparison.onlyTable : Codegen.Comparison where
  quits _ := False
  shares e := ∀ f, e.cause = .internal f → e = .plain (.internal (.tableNameTaken tableName))
  shares_of_ordinary _ h := h.2

theorem Codegen.compile_onlyTable (limit levels : Nat) (job : Job) (ρ : Renaming) :
    Comparison.onlyTable.Meets (compile limit levels job ρ) (compile limit levels job ρ) := by
  induction levels generalizing job ρ with
  | zero => exact .error fun f hcause => by cases hcause
  | succ levels ih => exact layer_meets (fun j _ s => ih j s) ρ

/-- **The one internal error of compiling.** -/
theorem Compiler.internal_of_compile {config : Config} {ρ : Renaming} {forms : List Form} {e : Error}
    (h : compile config ρ forms = .error e) {f : InternalFault} (hcause : e.cause = .internal f) :
    e = .plain (.internal (.tableNameTaken tableName)) := by
  have hmeets : Codegen.Comparison.onlyTable.Meets (compile (config.withDepth config.maxDepth) ρ forms)
      (compile (config.withDepth config.maxDepth) ρ forms) :=
    compile_meets config ρ fun g _ s => Codegen.compile_onlyTable config.maxDepth config.maxDepth (.form g) s
  rcases hmeets.of_error h with hshares | hquits
  · exact hshares f hcause
  · exact hquits.elim

/-- **The rules of the keywords suffice.** The evaluator and the compiler never miss an argument of a special form that
has been checked, whatever they would report: to look for arguments where they should stand, in forms, templates, ends
of functions and imports, gives every program the outcome it has with its forms taken apart. The only internal error
of compiling is that the name of the symbol table is taken. -/
theorem positional_eq (report : Breach → Error) :
    (∀ (ev : Evaluator) (forms : List Form) (σ : Scope),
      Evaluator.Positional.evaluate report ev forms σ = ev.evaluate forms σ) ∧
    (∀ (config : Compiler.Config) (ρ : Renaming) (forms : List Form),
      Compiler.Positional.compile report config ρ forms = Compiler.compile config ρ forms) ∧
    (∀ (config : Compiler.Config) (library : Compiler.Library) (ρ : Renaming) (forms : List Form),
      Compiler.Positional.compileWithImports report config library ρ forms =
        Compiler.compileWithImports config library ρ forms) ∧
    ∀ (config : Compiler.Config) (ρ : Renaming) (forms : List Form) (e : Error) (f : InternalFault),
      Compiler.compile config ρ forms = .error e → e.cause = .internal f →
        e = .plain (.internal (.tableNameTaken tableName)) :=
  ⟨Evaluator.Positional.evaluate_eq, Compiler.Positional.compile_eq, Compiler.Positional.compileWithImports_eq,
    fun _ _ _ _ _ h hcause => Compiler.internal_of_compile h hcause⟩

/-- `(fn (x) (var y 'x))` -/
def quotingFunction : List Form :=
  [.list [.symbol "fn", .list [.symbol "x"], .list [.symbol "var", .symbol "y", .wrap .quote (.symbol "x")]]]

/-- A quoted symbol needs the table, but its name is a global: the one internal error, by position too. -/
theorem positional_eq_quotingFunction : ∃ e,
    Compiler.compile .default (.ofGlobals ["symbol"]) quotingFunction = .error e ∧
      e.cause = .internal (.tableNameTaken tableName) ∧ e = .plain (.internal (.tableNameTaken tableName)) ∧
      Compiler.Positional.compile (fun _ => .plain .emptyApplication) .default (.ofGlobals ["symbol"]) quotingFunction =
        .error e := by
  have h : (match Compiler.compile .default (.ofGlobals ["symbol"]) quotingFunction with
      | .error e => decide (e.cause = .internal (.tableNameTaken tableName))
      | .ok _ => false) = true := by decide +kernel
  split at h
  · rename_i e he
    have hcause := of_decide_eq_true h
    obtain ⟨-, hcompile, -, hinternal⟩ := positional_eq fun _ => .plain .emptyApplication
    exact ⟨e, he, hcause, hinternal _ _ _ e _ he hcause, (hcompile _ _ _).trans he⟩
  · cases h

end HostLisp
