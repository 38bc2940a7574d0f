import HostLisp.Proofs.Hygiene

/-!
# One level at a time

What one level of compiling does with a job depends on the jobs inside it, and on nothing else of the levels
below. So two compilations of a job can be compared by comparing the jobs inside it, also where they fail.

* `Job.inner`: the jobs inside a job.
* `Comparison`, `Comparison.Meets`: two outcomes that are the same, unless the first one quits.
* `layer_meets`: **a level compares as the jobs inside it do.**
* `mem_inner_of_asks`: a level asks for jobs inside only. `OnTheWay.invariant`: what passes from a job to the
  jobs inside it holds of all jobs on the way.
-/

namespace HostLisp

open Host

/-! ## The jobs inside a job -/

/-- What is compiled of the last form of a function body: of a declaration its first value. -/
def Form.tailJob (f : Form) : Job :=
  match f.special? with
  | some (.var, [_, init]) => .form init
  | _ => .form f

/-- What is compiled of an item of a template list: of a splice what is spliced. -/
def Form.itemJob (f : Form) : Job :=
  match f.special? with
  | some (.unquoteSplicing, [inner]) => .form inner
  | _ => .template f

/-- The jobs inside a special form, from left to right. -/
def Special.inner : Special → List Job
  | .var _ init => [.form init]
  | .fn _ body => body.leading.map .form ++ [body.last.tailJob]
  | .assign (.name _) value => [.form value]
  | .assign (.property access) value => [.form access, .form value]
  | .conditional test consequent alternative => [.form test, .form consequent, .form alternative]
  | .quasiquote template => [.template template]
  | .list items => items.map .form
  | .member target key => [.form target, .form key]
  | .object entries => entries.map fun e => .form e.2
  | _ => []

/-- **The jobs inside a job**, from left to right. A special form that breaks its rules has none. -/
def Job.inner : Job → List Job
  | .form f =>
    match f.shape with
    | .special k args =>
      match Special.ofArguments f k args with
      | .ok s => s.inner
      | .error _ => []
    | .access _ args => args.map .form
    | .application head args => (head :: args).map .form
    | _ => []
  | .template t =>
    match t.special?, t with
    | some (.unquote, args), _ => args.map .form
    | some (.unquoteSplicing, _), _ => []
    | _, .list items => items.map Form.itemJob
    | _, _ => []

theorem Form.Reads.inner_eq {f : Form} {s : Special} (h : f.Reads s) : (Job.form f).inner = s.inner := by
  obtain ⟨k, args, hs, ha⟩ := h
  simp only [Job.inner, hs, ha]

theorem Form.tailJob_of_var {f init : Form} {args : List Form} {name : String}
    (hs : f.special? = some (.var, args)) (hd : Special.declaration f args = .ok (name, init)) :
    f.tailJob = .form init := by
  obtain ⟨rfl, -⟩ := Special.declaration_eq_ok hd
  simp only [Form.tailJob, hs]

theorem Form.tailJob_of_ne {f : Form} (hs : ∀ args, f.special? ≠ some (.var, args)) : f.tailJob = .form f := by
  unfold Form.tailJob
  split
  · exact absurd ‹_› (hs _)
  · rfl

theorem Form.itemJob_of_splice {f inner : Form} {args : List Form}
    (hs : f.special? = some (.unquoteSplicing, args))
    (hq : Special.quoted .unquoteSplicing f args = .ok inner) : f.itemJob = .form inner := by
  cases Special.quoted_eq_ok hq
  simp only [Form.itemJob, hs]

theorem Form.itemJob_of_ne {f : Form} (hs : ∀ args, f.special? ≠ some (.unquoteSplicing, args)) :
    f.itemJob = .template f := by
  unfold Form.itemJob
  split
  · exact absurd ‹_› (hs _)
  · rfl

theorem Form.PlainTemplate.inner_eq {items : List Form} (h : (Form.list items).PlainTemplate) :
    (Job.template (.list items)).inner = items.map Form.itemJob := by
  simp only [Job.inner]
  split
  · exact absurd ‹_› (h _).1
  · exact absurd ‹_› (h _).2
  · rename_i heq _ _
    cases heq
    rfl
  · rename_i hne
    exact absurd rfl (hne items)

namespace Codegen

/-! ## Two compilations side by side -/

/-- An error that says that a job goes too deep. -/
def TooDeep (e : Error) : Prop := ∃ bound, e.cause = .limitExceeded (.depth bound)

/-- An error that does not come from the levels: not that a job goes too deep, and of the internal errors only that the
name of the symbol table is taken. -/
def Ordinary (e : Error) : Prop :=
  ¬TooDeep e ∧ ∀ f, e.cause = .internal f → e = .plain (.internal (.tableNameTaken tableName))

/-- **How two compilations compare.** Both may fail with the errors that they share. The first one may *quit* with
some errors, which leaves the second one free. -/
structure Comparison where
  quits : Error → Prop
  shares : Error → Prop
  shares_of_ordinary : ∀ e, Ordinary e → shares e

namespace Comparison

variable {α β : Type}

/-- Outcomes that compare. -/
inductive Meets (C : Comparison) : Except Error α → Except Error α → Prop
  | ok (a : α) : Meets C (.ok a) (.ok a)
  | error {e : Error} (h : C.shares e) : Meets C (.error e) (.error e)
  | quits {e : Error} {y : Except Error α} (h : C.quits e) : Meets C (.error e) y

namespace Meets

variable {C : Comparison}

/-- **Two computations, each followed by another.** -/
theorem bind {x y : Except Error α} {f g : α → Except Error β} (hx : C.Meets x y)
    (hf : ∀ a, x = .ok a → C.Meets (f a) (g a)) : C.Meets (x >>= f) (y >>= g) := by
  cases hx with
  | ok a => exact hf a rfl
  | error h => exact .error h
  | quits h => exact .quits h

/-- A computation with a known result, followed by another. -/
theorem bind_ok {x : Except Error α} {a : α} {f : α → Except Error β} {y : Except Error β} (hx : C.Meets x (.ok a))
    (hf : C.Meets (f a) y) : C.Meets (x >>= f) y := by
  cases hx with
  | ok => exact hf
  | quits h => exact .quits h

theorem map {x y : Except Error α} (h : C.Meets x y) (f : α → β) : C.Meets (x.map f) (y.map f) := by
  cases h with
  | ok a => exact .ok (f a)
  | error h => exact .error h
  | quits h => exact .quits h

theorem quits_or_eq {x y : Except Error α} (h : C.Meets x y) : (∃ e, x = .error e ∧ C.quits e) ∨ x = y := by
  cases h with
  | ok a => exact .inr rfl
  | error h => exact .inr rfl
  | quits h => exact .inl ⟨_, rfl, h⟩

theorem of_error {x y : Except Error α} {e : Error} (h : C.Meets x y) (he : x = .error e) :
    C.shares e ∨ C.quits e := by
  cases h with
  | ok a => cases he
  | error h => cases he; exact .inl h
  | quits h => cases he; exact .inr h

/-- Any computation compares with itself, if its errors are ordinary. -/
theorem self {x : Except Error α} (h : ∀ e, x = .error e → Ordinary e) : C.Meets x x := by
  cases x with
  | ok a => exact .ok a
  | error e => exact .error (C.shares_of_ordinary e (h e rfl))

theorem of_checks {x : Except Error α} (h : Special.Checks x) : C.Meets x x := by
  refine self fun e he => ?_
  obtain ⟨f, hf⟩ := h e he
  refine ⟨fun ⟨bound, hcause⟩ => ?_, fun g hcause => ?_⟩
  · rw [hcause] at hf
    cases hf
  · rw [hcause] at hf
    cases hf

theorem fail {site : Form} {cause : Cause} (h : ∀ bound, cause ≠ .limitExceeded (.depth bound))
    (h' : ∀ f, cause ≠ .internal f) :
    C.Meets (Codegen.fail site cause : Except Error α) (Codegen.fail site cause) :=
  .error (C.shares_of_ordinary _ ⟨fun ⟨bound, hcause⟩ => h bound hcause, fun f hcause => absurd hcause (h' f)⟩)

theorem targetOf (ρ : Renaming) (name : String) : C.Meets (Codegen.targetOf ρ name) (Codegen.targetOf ρ name) := by
  unfold Codegen.targetOf
  split
  · exact .ok _
  · exact fail (by simp) (by simp)

theorem put (ρ : Renaming) (name : String) (site : Form) : C.Meets (ρ.put name site) (ρ.put name site) := by
  unfold Renaming.put
  split
  · exact fail (by simp) (by simp)
  · exact .ok _

/-- Items handled from left to right. -/
theorem threads {step step' : α → Renaming → Except Error (β × Renaming)}
    {run run' : List α → Renaming → Except Error (List β × Renaming)} (hnil : ∀ ρ, run [] ρ = .ok ([], ρ))
    (hcons : ∀ a as ρ, run (a :: as) ρ =
      step a ρ >>= fun p => run as p.2 >>= fun q => .ok (p.1 :: q.1, q.2))
    (hnil' : ∀ ρ, run' [] ρ = .ok ([], ρ))
    (hcons' : ∀ a as ρ, run' (a :: as) ρ =
      step' a ρ >>= fun p => run' as p.2 >>= fun q => .ok (p.1 :: q.1, q.2))
    {as : List α} (h : ∀ a ∈ as, ∀ ρ, C.Meets (step a ρ) (step' a ρ)) (ρ : Renaming) :
    C.Meets (run as ρ) (run' as ρ) := by
  induction as generalizing ρ with
  | nil =>
    rw [hnil, hnil']
    exact .ok _
  | cons a as ih =>
    obtain ⟨ha, has⟩ := List.forall_mem_cons.1 h
    rw [hcons, hcons']
    exact bind (ha ρ) fun p _ => bind (ih has p.2) fun q _ => .ok _

theorem putEach (names : List String) (ρ : Renaming) :
    C.Meets (Codegen.putEach names ρ) (Codegen.putEach names ρ) :=
  threads (fun _ => rfl) (fun _ _ _ => rfl) (fun _ => rfl) (fun _ _ _ => rfl)
    (fun n _ s => put s n (.symbol n)) ρ

theorem putParameters (params : Parameters) (ρ : Renaming) :
    C.Meets (Codegen.putParameters params ρ) (Codegen.putParameters params ρ) := by
  cases params with
  | fixed names => exact bind (putEach names ρ) fun p _ => .ok _
  | rest name => exact bind (put ρ name _) fun p _ => .ok _

end Meets

end Comparison

/-! ## One level -/

section

open Comparison

variable {C : Comparison} {below other : Emitter}

theorem compileEach_meets {fs : List Form} (h : ∀ f ∈ fs, ∀ s, C.Meets (below (.form f) s) (other (.form f) s))
    (ρ : Renaming) : C.Meets (compileEach below fs ρ) (compileEach other fs ρ) :=
  .threads (fun _ => rfl) (fun _ _ _ => rfl) (fun _ => rfl) (fun _ _ _ => rfl) h ρ

theorem compileFields_meets {entries : List (String × Form)}
    (h : ∀ e ∈ entries, ∀ s, C.Meets (below (.form e.2) s) (other (.form e.2) s)) (ρ : Renaming) :
    C.Meets (compileFields below entries ρ) (compileFields other entries ρ) := by
  induction entries generalizing ρ with
  | nil => exact .ok _
  | cons e entries ih =>
    obtain ⟨he, hes⟩ := List.forall_mem_cons.1 h
    exact .bind (he ρ) fun p _ => .bind (ih hes p.2) fun q _ => .ok _

theorem compilePart_meets {item : Form} (h : ∀ s, C.Meets (below item.itemJob s) (other item.itemJob s))
    (ρ : Renaming) : C.Meets (compilePart below item ρ) (compilePart other item ρ) := by
  unfold compilePart
  split
  · rename_i args hs
    refine .bind (.of_checks (Special.checks_quoted _ _ _)) fun inner hq => ?_
    rw [Form.itemJob_of_splice hs hq] at h
    exact .bind (h ρ) fun p _ => .ok _
  · rename_i hs
    rw [Form.itemJob_of_ne hs] at h
    exact .bind (h ρ) fun p _ => .ok _

theorem compileParts_meets {items : List Form}
    (h : ∀ f ∈ items, ∀ s, C.Meets (below f.itemJob s) (other f.itemJob s)) (ρ : Renaming) :
    C.Meets (compileParts below items ρ) (compileParts other items ρ) :=
  .threads (fun _ => rfl) (fun _ _ _ => rfl) (fun _ => rfl) (fun _ _ _ => rfl)
    (fun f hf => compilePart_meets (h f hf)) ρ

theorem compileVar_meets {name : String} {init : Form}
    (h : ∀ s, C.Meets (below (.form init) s) (other (.form init) s)) (ρ : Renaming) :
    C.Meets (compileVar below name init ρ) (compileVar other name init ρ) :=
  .bind (.put ρ name _) fun p _ => .bind (h p.2) fun _ _ => .ok _

theorem compileTail_meets {tail : Form} (h : ∀ s, C.Meets (below tail.tailJob s) (other tail.tailJob s))
    (ρ : Renaming) : C.Meets (compileTail below tail ρ) (compileTail other tail ρ) := by
  unfold compileTail
  split
  · rename_i args hs
    refine .bind (.of_checks (Special.checks_declaration _ _)) fun ⟨name, init⟩ hd => ?_
    rw [Form.tailJob_of_var hs hd] at h
    exact .bind (compileVar_meets h ρ) fun p _ => .ok _
  · rename_i hs
    rw [Form.tailJob_of_ne hs] at h
    exact .bind (h ρ) fun p _ => .ok _

theorem compileFn_meets {params : Parameters} {body : Body}
    (hl : ∀ f ∈ body.leading, ∀ s, C.Meets (below (.form f) s) (other (.form f) s))
    (ht : ∀ s, C.Meets (below body.last.tailJob s) (other body.last.tailJob s)) (ρ : Renaming) :
    C.Meets (compileFn below params body ρ) (compileFn other params body ρ) :=
  .bind (.putParameters params ρ) fun p _ => .bind (compileEach_meets hl p.2) fun q _ =>
    .bind (compileTail_meets ht q.2) fun _ _ => .ok _

theorem compileSpecial_meets {site : Form} {special : Special}
    (h : ∀ j ∈ special.inner, ∀ s, C.Meets (below j s) (other j s)) (ρ : Renaming) :
    C.Meets (compileSpecial below site special ρ) (compileSpecial other site special ρ) := by
  cases special with
  | var name init =>
    simp only [Special.inner, List.forall_mem_singleton] at h
    exact .bind (compileVar_meets h ρ) fun p _ => .ok _
  | fn params body =>
    simp only [Special.inner, List.forall_mem_append, List.forall_mem_map, List.forall_mem_singleton] at h
    exact .bind (compileFn_meets h.1 h.2 ρ) fun p _ => .ok _
  | assign target value =>
    cases target with
    | name name =>
      simp only [Special.inner, List.forall_mem_singleton] at h
      exact .bind (.targetOf ρ name) fun t _ => .bind (h ρ) fun p _ => .ok _
    | property access =>
      simp only [Special.inner, List.forall_mem_cons] at h
      exact .bind (h.1 ρ) fun p _ => .bind (h.2.1 p.2) fun q _ => .ok _
  | conditional test consequent alternative =>
    simp only [Special.inner, List.forall_mem_cons] at h
    exact .bind (h.1 ρ) fun p _ => .bind (h.2.1 p.2) fun q _ => .bind (h.2.2.1 q.2) fun r _ => .ok _
  | quote datum => exact .ok _
  | quasiquote template =>
    simp only [Special.inner, List.forall_mem_singleton] at h
    exact h ρ
  | list items =>
    simp only [Special.inner, List.forall_mem_map] at h
    exact .bind (compileEach_meets h ρ) fun p _ => .ok _
  | member target key =>
    simp only [Special.inner, List.forall_mem_cons] at h
    exact .bind (h.1 ρ) fun p _ => .bind (h.2.1 p.2) fun q _ => .ok _
  | object entries =>
    simp only [Special.inner, List.forall_mem_map] at h
    exact .bind (compileFields_meets h ρ) fun p _ => .ok _
  | unquote | unquoteSplicing | importModules | defineSyntax | syntaxRules => exact .fail (by simp) (by simp)

theorem compileForm_meets {f : Form} (h : ∀ j ∈ (Job.form f).inner, ∀ s, C.Meets (below j s) (other j s))
    (ρ : Renaming) : C.Meets (compileForm below f ρ) (compileForm other f ρ) := by
  unfold compileForm
  unfold Job.inner at h
  cases hshape : f.shape with
  | literal l => exact .ok _
  | name n => exact .bind (.targetOf ρ n) fun t _ => .ok _
  | empty => exact .fail (by simp) (by simp)
  | special k args =>
    refine .bind (.of_checks (Special.checks_ofArguments _ _ _)) fun s hs => ?_
    simp only [hshape, hs] at h
    exact compileSpecial_meets h ρ
  | access key args =>
    refine .bind (.of_checks (Special.checks_propertyArguments _ _)) fun ⟨target, rest⟩ hargs => ?_
    cases args with
    | nil => cases hargs
    | cons target args =>
      cases hargs
      simp only [hshape, List.forall_mem_map, List.forall_mem_cons] at h
      refine .bind (h.1 ρ) fun p _ => ?_
      dsimp only
      split_ifs
      · exact .ok _
      · exact .bind (compileEach_meets h.2 p.2) fun q _ => .ok _
  | application head args =>
    simp only [hshape, List.forall_mem_map, List.forall_mem_cons] at h
    exact .bind (h.1 ρ) fun p _ => .bind (compileEach_meets h.2 p.2) fun q _ => .ok _

theorem compileTemplate_meets {t : Form} (h : ∀ j ∈ (Job.template t).inner, ∀ s, C.Meets (below j s) (other j s))
    (ρ : Renaming) : C.Meets (compileTemplate below t ρ) (compileTemplate other t ρ) := by
  unfold compileTemplate
  split
  · rename_i args hs
    refine .bind (.of_checks (Special.checks_quoted _ _ _)) fun inner hq => ?_
    simp only [Job.inner, hs, Special.quoted_eq_ok hq, List.map_cons, List.map_nil,
      List.forall_mem_singleton] at h
    exact h ρ
  · exact .fail (by simp) (by simp)
  · rename_i hu hsp
    split
    · rw [Form.PlainTemplate.inner_eq fun args => ⟨hu args, hsp args⟩, List.forall_mem_map] at h
      exact .bind (compileParts_meets h ρ) fun p _ => .ok _
    · exact .ok _

/-- **A level compares as the jobs inside it do.** -/
theorem layer_meets {job : Job} (h : ∀ j ∈ job.inner, ∀ s, C.Meets (below j s) (other j s)) (ρ : Renaming) :
    C.Meets (layer below job ρ) (layer other job ρ) := by
  cases job with
  | form f => exact compileForm_meets h ρ
  | template t => exact compileTemplate_meets h ρ

end

/-! ## Jobs on the way -/

/-- All that counts is the same. -/
def Comparison.same : Comparison := ⟨fun _ => False, fun _ => True, fun _ _ => trivial⟩

theorem Comparison.same_meets_iff {α : Type} {x y : Except Error α} : same.Meets x y ↔ x = y := by
  constructor
  · intro h
    rcases h.quits_or_eq with ⟨_, -, hq⟩ | heq
    · exact hq.elim
    · exact heq
  · rintro rfl
    cases x with
    | ok a => exact .ok a
    | error e => exact .error trivial

/-- **A level asks for jobs inside only.** -/
theorem mem_inner_of_asks {below : Emitter} {job job' : Job} {ρ s : Renaming} (h : Asks below job ρ job' s) :
    job' ∈ job.inner := by
  obtain ⟨other, hother, hne⟩ := h
  -- if not, then the change goes unnoticed
  by_contra hn
  refine hne (Comparison.same_meets_iff.1 (layer_meets (fun j hj t => ?_) ρ))
  refine Comparison.same_meets_iff.2 (hother j t ?_)
  rintro heq
  cases heq
  exact hn hj

/-- **What passes from a job to the jobs inside it holds of all jobs on the way.** -/
theorem OnTheWay.invariant {P : Job → Prop} (hP : ∀ job, P job → ∀ j ∈ job.inner, P j) {limit levels n : Nat}
    {job job' : Job} {ρ s : Renaming} (hw : OnTheWay limit levels job ρ n job' s) (h : P job) : P job' := by
  induction hw with
  | here => exact h
  | further ha _ ih => exact ih (hP _ h _ (mem_inner_of_asks ha))

end Codegen

end HostLisp
