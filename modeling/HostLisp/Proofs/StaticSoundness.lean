import HostLisp.Compiler.Program
import HostLisp.Proofs.Hygiene
import HostLisp.Proofs.Scoping

/-!
# Programs that compile find their names

A program that compiles has passed every check that the compiler makes: its special forms keep their
rules, its templates and unquotations match, and every name has a target where it is used. Evaluation
makes the same checks while it runs. It goes another way at a conditional only: the compiler passes through
both branches and keeps what either declares, and evaluation runs one of them.

So a program that compiles, and that has no host object in it, fails at run time because of values
alone, or because of a name that a branch declares and the run has not been through, or for want of a cell
when all that there can be are there.

* `Job.Plain`: no host object, and all names declared in branches are among some given ones.
* `Admitted`: the jobs that compile. `Admitted.admits`: **they keep the rules of scoping.**
* `evaluate_of_compile`: what is left to fail.
-/

namespace HostLisp

open Host

/-- A job without host objects whose branches declare only given names. -/
structure Job.Plain (B : List String) (job : Job) : Prop where
  hostFree : job.site.hostFree = true
  branched : ∀ n ∈ job.declarations.branched, n ∈ B

/-- The jobs that a special form consists of. -/
def Special.jobs : Special → List Job
  | .var _ init => [.form init]
  | .fn _ body => body.forms.map .form
  | .assign (.name _) value => [.form value]
  | .conditional test consequent alternative => [.form test, .form consequent, .form alternative]
  | .quasiquote template => [.template template]
  | .list items => items.map .form
  | _ => []

namespace Form

theorem hostFreeEach_iff {fs : List Form} : hostFreeEach fs = true ↔ ∀ f ∈ fs, f.hostFree = true := by
  induction fs with
  | nil => simp [hostFreeEach]
  | cons f fs ih => simp [hostFreeEach, ih]

theorem hostFree_cons {head : Form} {args : List Form} (h : (Form.list (head :: args)).hostFree = true) :
    head.isHostHead = false ∧ ∀ f ∈ head :: args, f.hostFree = true := by
  rw [hostFree, Bool.and_eq_true, hostFreeEach_iff] at h
  exact ⟨by simpa using h.1, h.2⟩

theorem mem_branched_declarationsEach {fs : List Form} {n : String} :
    n ∈ (declarationsEach fs).branched ↔ ∃ f ∈ fs, n ∈ f.declarations.branched := by
  induction fs with
  | nil => simp [declarationsEach, Declarations.none]
  | cons f fs ih => simp [declarationsEach, Declarations.append, ih]

theorem mem_branched_templateDeclarationsEach {fs : List Form} {n : String} :
    n ∈ (templateDeclarationsEach fs).branched ↔ ∃ f ∈ fs, n ∈ f.templateDeclarations.branched := by
  induction fs with
  | nil => simp [templateDeclarationsEach, Declarations.none]
  | cons f fs ih => simp [templateDeclarationsEach, Declarations.append, ih]

end Form

namespace Job.Plain

open Form

variable {B : List String} {f : Form}

/-- The branches of a conditional declare given names only. -/
theorem own_branches {t c a : Form} (h : Job.Plain B (.form f)) (hf : f.Reads (.conditional t c a)) :
    (∀ n ∈ c.declarations.own, n ∈ B) ∧ ∀ n ∈ a.declarations.own, n ∈ B := by
  have hb := h.branched
  rw [Job.declarations, declarations_conditional hf] at hb
  simp only [Declarations.append, Declarations.inBranch, List.mem_append] at hb
  exact ⟨fun n hn => hb n (by tauto), fun n hn => hb n (by tauto)⟩

/-- **The parts of a plain special form are plain.** -/
theorem of_reads {s : Special} (h : Job.Plain B (.form f)) (hf : f.Reads s) :
    ∀ job ∈ s.jobs, job.Plain B := by
  obtain ⟨name, k, args, rfl, hk, hp⟩ := hf.parts
  have hfree : ∀ g ∈ args, g.hostFree = true :=
    fun g hg => (hostFree_cons h.hostFree).2 g (List.mem_cons_of_mem _ hg)
  have hb := h.branched
  rw [Job.declarations] at hb
  cases hp with
  | @var n init hn =>
    rw [declarations_var hf] at hb
    simp only [Special.jobs, List.mem_singleton, forall_eq]
    exact ⟨hfree init (by simp), hb⟩
  | @fn p first rest params hp =>
    rw [declarations_fn hf] at hb
    simp only [Special.jobs, List.mem_map, forall_exists_index, and_imp]
    rintro _ g hg rfl
    refine ⟨hfree g ?_, fun n hn => hb n (mem_branched_declarationsEach.2 ⟨g, hg, hn⟩)⟩
    rw [ofForms_forms] at hg
    exact List.mem_cons_of_mem _ hg
  | @assignName n value hn =>
    rw [declarations_assignName hf] at hb
    simp only [Special.jobs, List.mem_singleton, forall_eq]
    exact ⟨hfree value (by simp), hb⟩
  | @conditional t c a =>
    rw [declarations_conditional hf] at hb
    simp only [Declarations.append, Declarations.inBranch, List.mem_append] at hb
    simp only [Special.jobs, List.mem_cons, List.not_mem_nil, or_false]
    rintro _ (rfl | rfl | rfl)
    · exact ⟨hfree t (by simp), fun n hn => hb n (by tauto)⟩
    · exact ⟨hfree c (by simp), fun n hn => hb n (by tauto)⟩
    · exact ⟨hfree a (by simp), fun n hn => hb n (by tauto)⟩
  | @quasiquote t =>
    rw [declarations_quasiquote hf] at hb
    simp only [Special.jobs, List.mem_singleton, forall_eq]
    exact ⟨hfree t (by simp), hb⟩
  | list items =>
    rw [declarations_list hf] at hb
    simp only [Special.jobs, List.mem_map, forall_exists_index, and_imp]
    rintro _ g hg rfl
    exact ⟨hfree g hg, fun n hn => hb n (mem_branched_declarationsEach.2 ⟨g, hg, hn⟩)⟩
  | assignProperty | quote | unquote | unquoteSplicing | member | object | importModules | defineSyntax
    | syntaxRules => intro job hj; cases hj

/-- The head and the arguments of a plain application are plain. -/
theorem of_application {head : Form} {args : List Form} (h : Job.Plain B (.form f))
    (hf : f.shape = .application head args) : ∀ g ∈ head :: args, Job.Plain B (.form g) := by
  have hb := h.branched
  rw [Job.declarations, declarations_application hf] at hb
  obtain ⟨rfl, -⟩ := shape_eq_application hf
  intro g hg
  refine ⟨(hostFree_cons h.hostFree).2 g hg, fun n hn => hb n ?_⟩
  exact mem_branched_declarationsEach.2 ⟨g, hg, hn⟩

/-- What is unquoted in a plain template is plain. -/
theorem of_unquoted {t inner : Form} {k : Keyword} (hk : k = .unquote ∨ k = .unquoteSplicing)
    (h : Job.Plain B (.template t)) (ht : t.special? = some (k, [inner])) : Job.Plain B (.form inner) := by
  have hb := h.branched
  rw [Job.declarations, templateDeclarations_unquoted hk ht] at hb
  simp only [declarationsEach, Declarations.append_none] at hb
  obtain ⟨name, rfl, -⟩ := special?_eq_some ht
  exact ⟨(hostFree_cons h.hostFree).2 inner (by simp), hb⟩

theorem of_templateList {items : List Form} (h : Job.Plain B (.template (.list items)))
    (hp : (Form.list items).PlainTemplate) : ∀ t ∈ items, Job.Plain B (.template t) := by
  have hb := h.branched
  rw [Job.declarations, templateDeclarations_list hp] at hb
  have hfree := h.hostFree
  rw [Job.site, Form.hostFree, Bool.and_eq_true, hostFreeEach_iff] at hfree
  intro t ht
  exact ⟨hfree.2 t ht, fun n hn => hb n (mem_branched_templateDeclarationsEach.2 ⟨t, ht, hn⟩)⟩

/-- The keyword of a plain form is not one of a host object. -/
theorem parts {s : Special} (h : Job.Plain B (.form f)) (hf : f.Reads s) :
    ∃ k args, Special.Parts k args s ∧ k ≠ .member ∧ k ≠ .object := by
  obtain ⟨name, k, args, rfl, hk, hp⟩ := hf.parts
  have hhead := (hostFree_cons h.hostFree).1
  simp only [isHostHead, hk, Bool.or_eq_false_iff, decide_eq_false_iff_not, Option.some.injEq] at hhead
  exact ⟨k, args, hp, hhead.1.1, hhead.1.2⟩

theorem not_member {target key : Form} (h : Job.Plain B (.form f)) : ¬f.Reads (.member target key) := by
  intro hf
  obtain ⟨k, args, hp, hk, -⟩ := h.parts hf
  cases hp; exact hk rfl

theorem not_object {entries : List (String × Form)} (h : Job.Plain B (.form f)) :
    ¬f.Reads (.object entries) := by
  intro hf
  obtain ⟨k, args, hp, -, hk⟩ := h.parts hf
  cases hp; exact hk rfl

theorem not_access {key : String} {args : List Form} (h : Job.Plain B (.form f)) :
    f.shape ≠ .access key args := by
  intro hf
  obtain ⟨name, rfl, hk, hp⟩ := shape_eq_access hf
  have := (hostFree_cons h.hostFree).1
  simp [isHostHead, hk, hp] at this

theorem not_assignProperty {access value : Form} (h : Job.Plain B (.form f)) :
    ¬f.Reads (.assign (.property access) value) := by
  intro hf
  obtain ⟨name, k, args, rfl, hk, hp⟩ := hf.parts
  cases hp with
  | assignProperty ha =>
    -- the place assigned to is a list inside the form, and its head is the host's
    have hfree := (hostFree_cons h.hostFree).2 access (by simp)
    unfold isPropertyAccess at ha
    split at ha
    · rename_i n args
      have hn := (hostFree_cons hfree).1
      simp only [isHostHead, Bool.or_eq_false_iff] at hn
      split at ha
      · rename_i hm; simp [hm] at hn
      · simp [hn.2] at ha
    · cases ha

end Job.Plain

/-! ## Jobs that compile keep the rules of scoping -/

namespace Codegen

open Evaluator Renaming

/-- The names that have a target, but for some given ones. -/
def visible (B : List String) (ρ : Renaming) : Set String := {n | (ρ.target? n).isSome = true ∧ n ∉ B}

/-- The plain jobs that compile, with the names that are visible before and behind them. -/
def Admitted (limit : Nat) (B : List String) : Admission := fun S job S' =>
  job.Plain B ∧ ∃ levels ρ e ρ', compile limit levels job ρ = .ok (e, ρ') ∧ S = visible B ρ ∧
    S' = visible B ρ'

/-- Failures that values bring about, and names that are not found among some given ones. -/
def Tolerated (limit : Nat) (B : List String) (e : Error) : Prop :=
  e.cause.Dynamic limit ∨ ∃ n ∈ B, e.cause = .undefinedIdentifier n

section

variable {B : List String} {limit depth levels : Nat} {ρ ρ' : Renaming}

theorem visible_subset_of_puts {names targets : List String} (h : Puts ρ names targets ρ') :
    visible B ρ' ⊆ visible B ρ ∪ {n | n ∈ names} := by
  rintro n ⟨hn, hB⟩
  rcases (h.isSome_target?_iff n).1 hn with hn | hn
  · exact Or.inl ⟨hn, hB⟩
  · exact Or.inr hn

theorem visible_eq_of_puts {names targets : List String} (h : Puts ρ names targets ρ')
    (hB : ∀ n ∈ names, n ∈ B) : visible B ρ' = visible B ρ := by
  ext n
  constructor
  · rintro ⟨hn, hnB⟩
    exact ⟨((h.isSome_target?_iff n).1 hn).resolve_right fun hm => hnB (hB n hm), hnB⟩
  · rintro ⟨hn, hnB⟩
    exact ⟨(h.isSome_target?_iff n).2 (Or.inl hn), hnB⟩

theorem tolerated_of_bound {site : Form} {n target : String} (ht : ρ.target? n = some target)
    (hn : n ∉ visible B ρ) : Tolerated depth B (.raised site (.undefinedIdentifier n)) := by
  refine Or.inr ⟨n, ?_, rfl⟩
  by_contra hB
  exact hn ⟨by rw [ht]; rfl, hB⟩

theorem admitted_of_compile {job : Job} {e : Expr} (hp : job.Plain B)
    (h : compile limit levels job ρ = .ok (e, ρ')) : Admitted limit B (visible B ρ) job (visible B ρ') :=
  ⟨hp, levels, ρ, e, ρ', h, rfl, rfl⟩

theorem admitsEach_of_emitsEach {fs : List Form} {es : List Expr} (hp : ∀ f ∈ fs, Job.Plain B (.form f))
    (h : EmitsEach (.of (compile limit levels)) fs ρ es ρ') :
    AdmitsEach (Admitted limit B) (visible B ρ) fs (visible B ρ') := by
  induction h with
  | nil ρ => exact .nil _
  | cons h _ ih =>
    exact .cons (admitted_of_compile (hp _ List.mem_cons_self) h)
      (ih fun g hg => hp g (List.mem_cons_of_mem _ hg))

/-- The end of a body compiles on its own too. A declaration there takes one level more. -/
theorem admitted_of_emitsTail {tail : Form} {es : List Expr} {e : Expr} (hp : Job.Plain B (.form tail))
    (h : EmitsTail (.of (compile limit levels)) tail ρ es e ρ') :
    Admitted limit B (visible B ρ) (.form tail) (visible B ρ') := by
  cases h with
  | declaration hs hd hput h =>
    have hc : compile limit (levels + 1) (.form tail) ρ = .ok (.declare _ _, ρ') :=
      layer_eq_ok_iff.2 (.var (Form.reads_var hs hd) hput h)
    exact admitted_of_compile hp hc
  | other hs h => exact admitted_of_compile hp h

theorem admitsItems_of_emitsParts {items : List Form} {parts : List Part}
    (hp : ∀ t ∈ items, Job.Plain B (.template t))
    (h : Threads (EmitsPart (.of (compile limit levels))) items ρ parts ρ') :
    Chain (AdmitsItem (Tolerated depth B) (Admitted limit B)) (visible B ρ) items (visible B ρ') := by
  induction h with
  | nil ρ => exact .nil _
  | cons h _ ih =>
    refine .cons ?_ (ih fun g hg => hp g (List.mem_cons_of_mem _ hg))
    have ht := hp _ List.mem_cons_self
    cases h with
    | splice hs hq h =>
      have hinner := ht.of_unquoted (Or.inr rfl) (Special.quoted_eq_ok hq ▸ hs)
      exact .splice hs hq (admitted_of_compile hinner h)
    | item hs h => exact .item hs (admitted_of_compile ht h)

/-- **Jobs that compile keep the rules of scoping.** -/
theorem Admitted.admits {S S' : Set String} {job : Job} (h : Admitted limit B S job S') :
    Admits (Tolerated depth B) (Admitted limit B) S job S' := by
  -- no induction: the jobs of a level compile with one level less, so they are admitted again
  obtain ⟨hp, levels, ρ, e, ρ', hc, rfl, rfl⟩ := h
  cases levels with
  | zero => cases hc
  | succ levels =>
    cases layer_eq_ok_iff.1 hc with
    | literal h => exact .literal h
    | name h ht => exact .name h (tolerated_of_bound ht)
    | @var f init n _ _ _ _ _ h hput hi =>
      have hinit := hp.of_reads h (.form init) (by simp [Special.jobs])
      refine .var h ?_ (admitted_of_compile hinit hi)
      have hsub := visible_subset_of_puts (B := B) (.one hput)
      intro m hm
      rcases hsub hm with hm | hm
      · exact Or.inr hm
      · exact Or.inl (List.mem_singleton.1 hm)
    | @fn f params targets body _ _ _ _ _ _ _ h hput hl ht =>
      have hbody : ∀ g ∈ body.forms, Job.Plain B (.form g) :=
        fun g hg => hp.of_reads h _ (List.mem_map_of_mem hg)
      refine .fn h ⟨_, _, _, visible_subset_of_puts (putParameters_puts hput),
        admitsEach_of_emitsEach (fun g hg => hbody g (by simp [Body.forms, hg])) hl,
        admitted_of_emitsTail (hbody _ (by simp [Body.forms])) ht⟩
    | @assignName f value _ _ _ _ _ h ht hv =>
      have hvalue := hp.of_reads h (.form value) (by simp [Special.jobs])
      exact .assign h (tolerated_of_bound ht) (admitted_of_compile hvalue hv)
    | assignProperty h => exact absurd h hp.not_assignProperty
    | @conditional f t c a _ _ _ _ ρ₁ ρ₂ _ h ht hcons halt =>
      have hjobs := hp.of_reads h
      have ht := admitted_of_compile (hjobs (.form t) (by simp [Special.jobs])) ht
      have hc' := admitted_of_compile (hjobs (.form c) (by simp [Special.jobs])) hcons
      have ha' := admitted_of_compile (hjobs (.form a) (by simp [Special.jobs])) halt
      -- what the branches add is not visible
      obtain ⟨hownc, howna⟩ := hp.own_branches h
      have h₂ : visible B ρ₂ = visible B ρ₁ := visible_eq_of_puts (compile_puts hcons) hownc
      have h₃ : visible B ρ' = visible B ρ₁ := (visible_eq_of_puts (compile_puts halt) howna).trans h₂
      rw [h₂] at hc' ha'
      rw [h₃] at ha' ⊢
      exact .conditional h ht hc' ha'
    | quote h => exact .quote h
    | @quasiquote f t _ _ _ h ht =>
      exact .quasiquote h (admitted_of_compile (hp.of_reads h (.template t) (by simp [Special.jobs])) ht)
    | list h hi =>
      exact .list h (admitsEach_of_emitsEach (fun g hg => hp.of_reads h _ (List.mem_map_of_mem hg)) hi)
    | member h => exact absurd h hp.not_member
    | object h => exact absurd h hp.not_object
    | access h => exact absurd h hp.not_access
    | accessCall h => exact absurd h hp.not_access
    | application h hh ha =>
      have hparts := hp.of_application h
      exact .application h (admitted_of_compile (hparts _ List.mem_cons_self) hh)
        (admitsEach_of_emitsEach (fun g hg => hparts g (List.mem_cons_of_mem _ hg)) ha)
    | unquote hs hq hi =>
      have hinner := hp.of_unquoted (Or.inl rfl) (Special.quoted_eq_ok hq ▸ hs)
      exact .unquote hs hq (admitted_of_compile hinner hi)
    | templateList hs hparts =>
      exact .templateList hs (admitsItems_of_emitsParts (hp.of_templateList hs) hparts)
    | templateAtom h => exact .templateAtom h

end

end Codegen

/-! ## Programs -/

namespace Compiler

open Codegen Evaluator

theorem Draft.target?_addTable {d d' : Draft} (h : d.addTable = .ok d') (n : String) :
    d'.names.target? n = d.names.target? n := by
  unfold addTable Renaming.reserve? at h
  split at h
  · rename_i ρ hρ
    split at hρ
    · cases hρ
    · cases hρ; cases h; rfl
  · cases h

/-- A statement is compiled behind the names of the draft; the symbol table adds none. -/
theorem Draft.push_eq_ok {config : Config} {d d' : Draft} {f : Form} (h : d.push config f = .ok d') :
    f.checkNesting Form.nestingLimit = .ok () ∧ ∃ ρ e, (∀ n, ρ.target? n = d.names.target? n) ∧
      Codegen.compile config.maxDepth config.maxDepth (.form f) ρ = .ok (e, d'.names) := by
  obtain ⟨_, hn, h⟩ := bind_eq_ok_iff.1 h
  refine ⟨hn, ?_⟩
  split at h
  · obtain ⟨d₁, ht, h⟩ := bind_eq_ok_iff.1 h
    obtain ⟨⟨e, ρ⟩, hc, h⟩ := bind_eq_ok_iff.1 h
    cases h
    exact ⟨d₁.names, e, Draft.target?_addTable ht, hc⟩
  · obtain ⟨d₁, ht, h⟩ := bind_eq_ok_iff.1 h
    obtain ⟨⟨e, ρ⟩, hc, h⟩ := bind_eq_ok_iff.1 h
    cases ht; cases h
    exact ⟨d.names, e, fun _ => rfl, hc⟩

theorem admitsEach_of_push {config : Config} {B : List String} {forms : List Form} {d d' : Draft}
    (hp : ∀ f ∈ forms, Job.Plain B (.form f)) (h : forms.foldlM (Draft.push config) d = .ok d') :
    (∀ f ∈ forms, f.checkNesting Form.nestingLimit = .ok ()) ∧
      AdmitsEach (Admitted config.maxDepth B) (visible B d.names) forms (visible B d'.names) := by
  induction forms generalizing d with
  | nil => cases h; exact ⟨by simp, .nil _⟩
  | cons f fs ih =>
    rw [List.foldlM_cons] at h
    obtain ⟨d₁, hpush, h⟩ := bind_eq_ok_iff.1 h
    obtain ⟨hn, ρ, e, hρ, hc⟩ := Draft.push_eq_ok hpush
    obtain ⟨hns, hs⟩ := ih (fun g hg => hp g (List.mem_cons_of_mem _ hg)) h
    have hv : visible B ρ = visible B d.names := by
      ext n; simp only [visible, hρ]
    have hf := admitted_of_compile (hp f List.mem_cons_self) hc
    rw [hv] at hf
    refine ⟨?_, .cons hf hs⟩
    intro g hg
    rcases List.mem_cons.1 hg with rfl | hg
    · exact hn
    · exact hns g hg

theorem Draft.target?_begin {config : Config} {ρ : Renaming} {forms : List Form} {d : Draft}
    (h : Draft.begin config ρ forms = .ok d) (n : String) : d.names.target? n = ρ.target? n := by
  obtain ⟨_, -, h⟩ := bind_eq_ok_iff.1 h
  split at h
  · rw [Draft.target?_addTable h]
  · cases h; rfl

/-- **The forms of a program that compiles keep the rules of scoping**, from no names on. -/
theorem admitsEach_of_compile {config : Config} {B : List String} {forms : List Form} {text : String}
    (hp : ∀ f ∈ forms, Job.Plain B (.form f)) (h : compile config .empty forms = .ok text) :
    (∀ f ∈ forms, f.checkNesting Form.nestingLimit = .ok ()) ∧
      ∃ S, AdmitsEach (Admitted config.maxDepth B) ∅ forms S := by
  unfold compile at h
  cases hprog : compileProgram config .empty forms with
  | error x => rw [hprog] at h; cases h
  | ok p =>
    obtain ⟨d, hbegin, hprog⟩ := bind_eq_ok_iff.1 hprog
    obtain ⟨d', hpush, -⟩ := bind_eq_ok_iff.1 hprog
    obtain ⟨hn, hforms⟩ := admitsEach_of_push hp hpush
    have hempty : visible B d.names = ∅ := by
      rw [Set.eq_empty_iff_forall_notMem]
      rintro n ⟨hn, -⟩
      rw [Draft.target?_begin hbegin] at hn
      simp [Renaming.target?, Renaming.empty] at hn
    rw [hempty] at hforms
    exact ⟨hn, _, hforms⟩

end Compiler

namespace Evaluator

open Codegen

/-- Scopes that reach cells from a given one on. -/
def cellsFrom (k : Nat) : ScopeRule where
  own cell := k ≤ cell.index
  scope n σ := k ≤ n ∧ ∀ {name cell}, σ.find? name = some cell → k ≤ cell.index ∧ cell.index < n
  mono hn h := ⟨Nat.le_trans h.1 hn, fun hf => ⟨(h.2 hf).1, Nat.lt_of_lt_of_le (h.2 hf).2 hn⟩⟩
  bind := by
    intro n σ name h
    refine ⟨Nat.le_succ_of_le h.1, ?_⟩
    intro other cell hf
    rw [Scope.find?_bind] at hf
    split at hf
    · cases hf; exact ⟨h.1, Nat.lt_succ_self n⟩
    · exact ⟨(h.2 hf).1, Nat.lt_succ_of_lt (h.2 hf).2⟩
  cell h hf := h.2 hf

/-- Before any cell is made, the cells from here on hold nothing. -/
theorem holds_cellsFrom (A : Admission) (m : Memory) : ((cellsFrom m.size).realm A).Holds m := by
  intro cell v hown hcontent
  have hlt := (Array.getElem?_eq_some_iff.1 hcontent).1
  exact absurd hlt (Nat.not_lt.2 hown)

/-- **What is left to fail in a program that compiles.** Cells that the evaluator has from earlier runs
play no part but to be counted: a program that starts with no scope cannot reach them. -/
theorem evaluate_of_compile {config : Compiler.Config} {forms : List Form} {text : String}
    (hc : Compiler.compile config .empty forms = .ok text) (hfree : ∀ f ∈ forms, f.hostFree = true)
    (ev : Evaluator) {e : Error} (he : (ev.evaluate forms .empty).1 = .error e) :
    (e.cause.Dynamic ev.maxDepth ∨
      ∃ n ∈ (Form.declarationsEach forms).branched, e.cause = .undefinedIdentifier n) ∨
      (ev.evaluate forms .empty).2.memory.Exhausts e := by
  let B := (Form.declarationsEach forms).branched
  have hp : ∀ f ∈ forms, Job.Plain B (.form f) := fun f hf =>
    ⟨hfree f hf, fun n hn => Form.mem_branched_declarationsEach.2 ⟨f, hf, hn⟩⟩
  obtain ⟨hn, S, hforms⟩ := Compiler.admitsEach_of_compile hp hc
  have hdyn : ∀ x : Error, x.cause.Dynamic ev.maxDepth → Tolerated ev.maxDepth B x := fun _ => Or.inl
  have hnest : ∀ f ∈ forms, ∀ x, f.checkNesting Form.nestingLimit = .error x → Tolerated ev.maxDepth B x := by
    intro f hf x hx
    rw [hn f hf] at hx; cases hx
  -- the realm is what the run will make itself
  have hσ : (cellsFrom ev.memory.size).Suits ∅ ev.memory.size .empty :=
    ⟨⟨Nat.le_refl _, by simp⟩, by simp [Covers]⟩
  have hruns := runAll_runs hdyn Admitted.admits hnest hforms (v := none) (by simp) hσ (holds_cellsFrom _ _)
  exact hruns.error e he

/-- **A program that compiles fails because of values alone**, if it has no host object in it and no branch
of a conditional declares a name: it never meets a name without a cell, a form against the rules, or a
form where it has no meaning. It can fail for want of a cell, when all that there can be are there. -/
theorem evaluate_dynamic_of_compile {config : Compiler.Config} {forms : List Form} {text : String}
    (hc : Compiler.compile config .empty forms = .ok text) (hfree : ∀ f ∈ forms, f.hostFree = true)
    (hbranches : (Form.declarationsEach forms).branched = []) (ev : Evaluator) :
    (∃ r, (ev.evaluate forms .empty).1 = .ok r) ∨
      ∃ e, (ev.evaluate forms .empty).1 = .error e ∧
        (e.cause.Dynamic ev.maxDepth ∨ (ev.evaluate forms .empty).2.memory.Exhausts e) := by
  cases hr : (ev.evaluate forms .empty).1 with
  | ok r => exact Or.inl ⟨r, rfl⟩
  | error e =>
    refine Or.inr ⟨e, rfl, ?_⟩
    rcases evaluate_of_compile hc hfree ev hr with (h | ⟨n, hn, -⟩) | h
    · exact Or.inl h
    · rw [hbranches] at hn; cases hn
    · exact Or.inr h

/-- `(var f (fn (x) (if x (f #f) (list x))))` and `(f #t)` -/
def countdown : List Form :=
  [.list [.symbol "var", .symbol "f", .list [.symbol "fn", .list [.symbol "x"],
    .list [.symbol "if", .symbol "x", .list [.symbol "f", .literal (.boolean false)],
      .list [.symbol "list", .symbol "x"]]]],
    .list [.symbol "f", .literal (.boolean true)]]

/-- A function that calls itself out of a branch, in an evaluator with few levels. -/
theorem evaluate_dynamic_of_compile_countdown :
    (∃ r, ((fresh 4).evaluate countdown .empty).1 = .ok r) ∨
      ∃ e, ((fresh 4).evaluate countdown .empty).1 = .error e ∧
        (e.cause.Dynamic 4 ∨ ((fresh 4).evaluate countdown .empty).2.memory.Exhausts e) := by
  have hok : (Compiler.compile .default .empty countdown).isOk = true := by decide +kernel
  obtain ⟨text, hc⟩ := exists_eq_ok_of_isOk hok
  exact evaluate_dynamic_of_compile hc (by decide +kernel) (by decide +kernel) (fresh 4)

/-- **A name that a compiled program does not find is declared in a branch** of a conditional. -/
theorem branched_of_undefinedIdentifier {config : Compiler.Config} {forms : List Form} {text : String}
    (hc : Compiler.compile config .empty forms = .ok text) (hfree : ∀ f ∈ forms, f.hostFree = true)
    (ev : Evaluator) {e : Error} {n : String} (he : (ev.evaluate forms .empty).1 = .error e)
    (hn : e.cause = .undefinedIdentifier n) : n ∈ (Form.declarationsEach forms).branched := by
  rcases evaluate_of_compile hc hfree ev he with (h | ⟨m, hm, hcause⟩) | h
  · rw [hn] at h; cases h
  · rw [hn] at hcause; cases hcause; exact hm
  · rw [h.error] at hn; cases hn

/-- `(if #t #t (var x #t))` and `x` -/
def branchDeclaration : List Form :=
  [.list [.symbol "if", .literal (.boolean true), .literal (.boolean true),
    .list [.symbol "var", .symbol "x", .literal (.boolean true)]], .symbol "x"]

theorem compile_branchDeclaration : ∃ text, Compiler.compile .default .empty branchDeclaration = .ok text :=
  exists_eq_ok_of_isOk (by decide +kernel)

theorem evaluate_branchDeclaration : ∃ e, ((fresh 128).evaluate branchDeclaration .empty).1 = .error e ∧
    e.cause = .undefinedIdentifier "x" := by
  have h : (match ((fresh 128).evaluate branchDeclaration .empty).1 with
      | .error e => decide (e.cause = .undefinedIdentifier "x")
      | .ok _ => false) = true := by decide +kernel
  split at h
  · rename_i e he
    exact ⟨e, he, of_decide_eq_true h⟩
  · cases h

/-- **A declaration in a branch that does not run** leaves its name without a cell, in a program that
compiles. -/
theorem undefinedIdentifier_of_branchDeclaration : ∃ (forms : List Form) (text name : String) (e : Error),
    Compiler.compile .default .empty forms = .ok text ∧ (∀ f ∈ forms, f.hostFree = true) ∧
      ((fresh 128).evaluate forms .empty).1 = .error e ∧ e.cause = .undefinedIdentifier name := by
  obtain ⟨text, hc⟩ := compile_branchDeclaration
  obtain ⟨e, he, hcause⟩ := evaluate_branchDeclaration
  exact ⟨branchDeclaration, text, "x", e, hc, by decide +kernel, he, hcause⟩

theorem branched_of_undefinedIdentifier_x : "x" ∈ (Form.declarationsEach branchDeclaration).branched := by
  obtain ⟨text, hc⟩ := compile_branchDeclaration
  obtain ⟨e, he, hcause⟩ := evaluate_branchDeclaration
  exact branched_of_undefinedIdentifier hc (by decide +kernel) (fresh 128) he hcause

end Evaluator

end HostLisp
