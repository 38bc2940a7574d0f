import HostLisp.Compiler.Program
import HostLisp.Proofs.Grammar
import HostLisp.Proofs.Levels

/-!
# The depth limit of compilation

A program that compiles within a depth limit cannot tell what the limit is: under a higher limit it gives the
same text or fails in the same way. Each level goes into a form by at least one list, so a limit above the
nesting of all forms is never met.

* `Job.depth_lt_of_mem_inner`: the jobs inside a job nest less than the job.
* `Codegen.compile_upToDepth`, `Codegen.compile_withinDepth`: one job under two limits, and under a limit above
  its nesting.
* `Compiler.compile_meets`: programs compare as their forms do.
* `Compiler.compile_eq_of_depth_le`: **a program goes too deep, or compiles as under any higher limit; and only
  forms that nest as deep as the limit go too deep.**
-/

namespace HostLisp

open Host

/-! ## Nesting -/

namespace Form

theorem depth_le_depthEach {f : Form} {fs : List Form} (h : f ∈ fs) : f.depth ≤ depthEach fs :=
  depthEach_le_iff.1 (Nat.le_refl _) f h

theorem depthEach_lt_of_special? {f : Form} {k : Keyword} {args : List Form} (h : f.special? = some (k, args)) :
    depthEach args < f.depth := by
  obtain ⟨name, rfl, -⟩ := special?_eq_some h
  rw [depth, depthEach]
  omega

theorem depth_tailJob_le (f : Form) : f.tailJob.site.depth ≤ f.depth := by
  unfold tailJob
  split
  · rename_i name init hs
    have hinit : init.depth ≤ depthEach [name, init] := depth_le_depthEach (by simp)
    have hargs := depthEach_lt_of_special? hs
    simp only [Job.site]
    omega
  · exact Nat.le_refl _

theorem depth_itemJob_le (f : Form) : f.itemJob.site.depth ≤ f.depth := by
  unfold itemJob
  split
  · rename_i inner hs
    have hinner : inner.depth ≤ depthEach [inner] := depth_le_depthEach (by simp)
    have hargs := depthEach_lt_of_special? hs
    simp only [Job.site]
    omega
  · exact Nat.le_refl _

end Form

theorem Special.Parts.depth_inner_le {k : Keyword} {args : List Form} {s : Special} (h : Parts k args s) :
    ∀ j ∈ s.inner, j.site.depth ≤ Form.depthEach args := by
  cases h with
  | @fn p first rest params hp =>
    have hbody : ∀ f ∈ (Body.ofForms first rest).forms, f.depth ≤ Form.depthEach (p :: first :: rest) := by
      intro f hf
      rw [Form.ofForms_forms] at hf
      exact Form.depth_le_depthEach (List.mem_cons_of_mem p hf)
    simp only [Body.forms, List.forall_mem_append, List.forall_mem_singleton] at hbody
    simp only [Special.inner, List.forall_mem_append, List.forall_mem_map, List.forall_mem_singleton]
    exact ⟨hbody.1, Nat.le_trans (Form.depth_tailJob_le _) hbody.2⟩
  | object entries =>
    simp only [Special.inner, List.forall_mem_map]
    intro e he
    have hentry := Form.depth_le_depthEach (List.mem_map_of_mem (f := fun e => Form.list [.symbol e.1, e.2]) he)
    simp only [Form.depth, Form.depthEach] at hentry
    simp only [Job.site]
    omega
  | list items =>
    simp only [Special.inner, List.forall_mem_map]
    exact fun f hf => Form.depth_le_depthEach hf
  | var | assignName | assignProperty | conditional | quasiquote | member =>
    simp only [Special.inner, List.mem_cons, List.not_mem_nil, or_false, forall_eq_or_imp, forall_eq, Job.site,
      Form.depthEach]
    omega
  | quote | unquote | unquoteSplicing | importModules | defineSyntax | syntaxRules =>
    exact List.forall_mem_nil _

/-- **The jobs inside a job nest less than the job.** -/
theorem Job.depth_lt_of_mem_inner {job j : Job} (hj : j ∈ job.inner) : j.site.depth < job.site.depth := by
  have of_mem {items : List Form} {f : Form} (hf : f ∈ items) : f.depth < (Form.list items).depth :=
    Nat.lt_succ_of_le (Form.depth_le_depthEach hf)
  unfold Job.inner at hj
  split at hj
  · rename_i f
    split at hj
    · rename_i k args hshape
      split at hj
      · rename_i s hs
        obtain ⟨name, rfl, -⟩ := Form.shape_eq_special hshape
        have hle := (Special.parts_of_ofArguments hs).depth_inner_le j hj
        have hlt : Form.depthEach args < (Form.list (.symbol name :: args)).depth := by
          rw [Form.depth, Form.depthEach]
          omega
        exact Nat.lt_of_le_of_lt hle hlt
      · cases hj
    · rename_i key args hshape
      obtain ⟨name, rfl, -⟩ := Form.shape_eq_access hshape
      obtain ⟨f, hf, rfl⟩ := List.mem_map.1 hj
      exact of_mem (List.mem_cons_of_mem _ hf)
    · rename_i head args hshape
      obtain ⟨rfl, -⟩ := Form.shape_eq_application hshape
      obtain ⟨f, hf, rfl⟩ := List.mem_map.1 hj
      exact of_mem hf
    · cases hj
  · rename_i t
    split at hj
    · rename_i args hs
      obtain ⟨f, hf, rfl⟩ := List.mem_map.1 hj
      exact Nat.lt_of_le_of_lt (Form.depth_le_depthEach hf) (Form.depthEach_lt_of_special? hs)
    · cases hj
    · obtain ⟨f, hf, rfl⟩ := List.mem_map.1 hj
      exact Nat.lt_of_le_of_lt (Form.depth_itemJob_le f) (of_mem hf)
    · cases hj

/-! ## Jobs -/

namespace Codegen

/-- The first compilation may quit because it goes deeper than its limit. -/
def Comparison.upToDepth (limit : Nat) : Comparison where
  quits e := e.cause = .limitExceeded (.depth limit)
  shares _ := True
  shares_of_ordinary _ _ := trivial

/-- Nothing goes too deep. -/
def Comparison.withinDepth : Comparison where
  quits _ := False
  shares e := ¬TooDeep e
  shares_of_ordinary _ h := h.1

theorem compile_upToDepth (low high levels more : Nat) (job : Job) (ρ : Renaming) :
    (Comparison.upToDepth low).Meets (compile low levels job ρ) (compile high (levels + more) job ρ) := by
  induction levels generalizing job ρ with
  | zero => exact .quits rfl
  | succ levels ih =>
    rw [Nat.succ_add]
    exact layer_meets (fun j _ s => ih j s) ρ

theorem compile_withinDepth {limit levels : Nat} {job : Job} (h : job.site.depth < levels) (ρ : Renaming) :
    Comparison.withinDepth.Meets (compile limit levels job ρ) (compile limit levels job ρ) := by
  induction levels generalizing job ρ with
  | zero => cases h
  | succ levels ih =>
    refine layer_meets (fun j hj s => ih ?_ s) ρ
    have hlt := Job.depth_lt_of_mem_inner hj
    omega

end Codegen

/-! ## Programs -/

namespace Compiler

open Codegen

/-- The same way to compile under another depth limit. -/
def Config.withDepth (config : Config) (limit : Nat) : Config := { config with maxDepth := limit }

section

variable {C : Comparison} {config : Config} {low high : Nat}

theorem checkNesting_meets (f : Form) (bound : Nat) : C.Meets (f.checkNesting bound) (f.checkNesting bound) := by
  unfold Form.checkNesting
  split_ifs
  · refine .self fun e he => ?_
    cases he
    refine ⟨fun ⟨bound', hcause⟩ => ?_, fun f hcause => ?_⟩
    · cases hcause
    · cases hcause
  · exact .ok ()

theorem addTable_meets (d : Draft) : C.Meets d.addTable d.addTable := by
  unfold Draft.addTable
  split
  · exact .ok _
  · refine .self fun e he => ?_
    cases he
    refine ⟨fun ⟨bound, hcause⟩ => ?_, fun _ _ => rfl⟩
    cases hcause

theorem begin_meets (ρ : Renaming) (forms : List Form) :
    C.Meets (Draft.begin config ρ forms) (Draft.begin config ρ forms) := by
  have hcheck : C.Meets (forms.forM fun f => f.checkNesting Form.nestingLimit)
      (forms.forM fun f => f.checkNesting Form.nestingLimit) := by
    induction forms with
    | nil => exact .ok ()
    | cons f fs ih => exact .bind (checkNesting_meets f _) fun _ _ => ih
  refine .bind hcheck fun _ _ => ?_
  dsimp only
  split_ifs
  · exact addTable_meets _
  · exact .ok _

theorem push_meets {f : Form}
    (h : ∀ ρ, C.Meets (Codegen.compile low low (.form f) ρ) (Codegen.compile high high (.form f) ρ)) (d : Draft) :
    C.Meets (d.push (config.withDepth low) f) (d.push (config.withDepth high) f) := by
  refine .bind (checkNesting_meets f _) fun _ _ => ?_
  dsimp only
  split_ifs
  · exact .bind (addTable_meets d) fun d' _ => .bind (h d'.names) fun p _ => .ok _
  · exact .bind (.ok d) fun d' _ => .bind (h d'.names) fun p _ => .ok _

/-- **Programs compare as their forms do.** -/
theorem compile_meets (config : Config) (ρ : Renaming) {forms : List Form}
    (h : ∀ f ∈ forms, ∀ s,
      C.Meets (Codegen.compile low low (.form f) s) (Codegen.compile high high (.form f) s)) :
    C.Meets (compile (config.withDepth low) ρ forms) (compile (config.withDepth high) ρ forms) := by
  have hfold (d : Draft) : C.Meets (forms.foldlM (Draft.push (config.withDepth low)) d)
      (forms.foldlM (Draft.push (config.withDepth high)) d) := by
    clear ρ
    induction forms generalizing d with
    | nil => exact .ok d
    | cons f fs ih =>
      rw [List.foldlM_cons, List.foldlM_cons]
      obtain ⟨hf, hfs⟩ := List.forall_mem_cons.1 h
      exact .bind (push_meets hf d) fun d' _ => ih hfs d'
  have hprogram : C.Meets (compileProgram (config.withDepth low) ρ forms)
      (compileProgram (config.withDepth high) ρ forms) :=
    .bind (begin_meets ρ forms) fun d _ => .bind (hfold d) fun d' _ => .ok _
  exact hprogram.map _

end

/-- **Raising the depth limit.** A program goes too deep, or compiles as under any higher limit: to the same text
or with the same error. It does not go too deep if its forms nest less than the limit. -/
theorem compile_eq_of_depth_le (config : Config) (ρ : Renaming) (forms : List Form) {low high : Nat}
    (h : low ≤ high) :
    ((∃ e, compile (config.withDepth low) ρ forms = .error e ∧ e.cause = .limitExceeded (.depth low)) ∨
      compile (config.withDepth low) ρ forms = compile (config.withDepth high) ρ forms) ∧
    ((∀ f ∈ forms, f.nestingDepth < low) →
      ∀ e bound, compile (config.withDepth low) ρ forms = .error e → e.cause ≠ .limitExceeded (.depth bound)) := by
  constructor
  · obtain ⟨more, rfl⟩ := Nat.exists_eq_add_of_le h
    have hmeets := compile_meets config ρ fun (f : Form) (_ : f ∈ forms) s =>
      compile_upToDepth low (low + more) low more (.form f) s
    exact hmeets.quits_or_eq
  · intro hnesting e bound he hcause
    have hform (f : Form) (hf : f ∈ forms) (s : Renaming) :
        Comparison.withinDepth.Meets (Codegen.compile low low (.form f) s) (Codegen.compile low low (.form f) s) := by
      refine compile_withinDepth ?_ s
      rw [Job.site, ← f.nestingDepth_eq_depth]
      exact hnesting f hf
    have hmeets := compile_meets config ρ hform
    rcases hmeets.of_error he with hshallow | hquits
    · exact hshallow ⟨bound, hcause⟩
    · exact hquits

/-- ``(var f (fn (x) `(x ,x)))`` -/
def templateFunction : Form :=
  .list [.symbol "var", .symbol "f", .list [.symbol "fn", .list [.symbol "x"],
    .list [.symbol "quasiquote", .list [.symbol "x", .list [.symbol "unquote", .symbol "x"]]]]]

/-- A function with a template nests five deep: it goes too deep at five levels, and compiles at six as at any
greater number of levels. -/
theorem compile_templateFunction_at_six :
    templateFunction.nestingDepth = 5 ∧
    (∃ e, compile (Config.default.withDepth 5) .empty [templateFunction] = .error e ∧
      e.cause = .limitExceeded (.depth 5)) ∧
    (∃ text, compile (Config.default.withDepth 6) .empty [templateFunction] = .ok text) ∧
    ∀ high, 6 ≤ high → compile (Config.default.withDepth 6) .empty [templateFunction] =
      compile (Config.default.withDepth high) .empty [templateFunction] := by
  have hdepth : templateFunction.nestingDepth = 5 := by decide +kernel
  have hnesting : ∀ f ∈ [templateFunction], f.nestingDepth < 6 := by
    rw [List.forall_mem_singleton, hdepth]
    decide
  have hfails : (compile (Config.default.withDepth 5) .empty [templateFunction]).isOk = false := by decide +kernel
  obtain ⟨text, htext⟩ : ∃ text, compile (Config.default.withDepth 6) .empty [templateFunction] = .ok text :=
    exists_eq_ok_of_isOk (by decide +kernel)
  refine ⟨hdepth, ?_, ⟨text, htext⟩, fun high h => ?_⟩
  · rcases (compile_eq_of_depth_le .default .empty [templateFunction] (by decide : 5 ≤ 6)).1 with hdeep | heq
    · exact hdeep
    · rw [heq, htext] at hfails
      cases hfails
  · obtain ⟨hcases, hshallow⟩ := compile_eq_of_depth_le .default .empty [templateFunction] h
    rcases hcases with ⟨e, he, hcause⟩ | heq
    · exact absurd hcause (hshallow hnesting e 6 he)
    · exact heq

end Compiler

end HostLisp
