import HostLisp.Proofs.CodegenRules
import HostLisp.Proofs.Declarations
import HostLisp.Proofs.DeclaredTargets
import HostLisp.Proofs.Renaming

/-!
# Hygiene of code generation

A host declaration holds for the whole function it stands in, so a name is never captured only if every
declaration gets a target that nothing around it uses. Compiling does two things to a renaming: it
puts the names that a job declares, in order, and it gives the code that declares their targets.

* `compile_puts`: **a job puts the names it declares, and its code declares the targets they got.**
* `compile_fn_puts`: the same for a function, with its parameters in front, up to the end of its body.
* `Asks`, `OnTheWay`: the jobs that compiling a job goes through.
* `compile_hygienic`: **compiling keeps renamings good, and the own targets of every function on the way
  are distinct, usable and new.**
-/

namespace HostLisp.Codegen

open Host Expr Renaming

/-- A job puts the names it declares, and its code declares their targets. -/
def Declares : Answers := fun job ρ e ρ' => Puts ρ job.declarations.own e.declared ρ'

/-! ## One level -/

section

variable {ρ ρ' : Renaming}

theorem puts_of_threads_put {names targets : List String}
    (h : Threads (fun n ρ t ρ' => ρ.put n (.symbol n) = .ok (t, ρ')) names ρ targets ρ') :
    Puts ρ names targets ρ' := by
  induction h with
  | nil ρ => exact .nil ρ
  | cons h _ ih => exact .cons h ih

theorem putParameters_puts {params targets : Parameters} (h : putParameters params ρ = .ok (targets, ρ')) :
    Puts ρ params.names targets.names ρ' := by
  cases params with
  | fixed names =>
    obtain ⟨⟨ts, ρ₁⟩, hp, h⟩ := bind_eq_ok_iff.1 h
    cases h
    exact puts_of_threads_put (putEach_eq_ok_iff.1 hp)
  | rest name =>
    obtain ⟨⟨t, ρ₁⟩, hp, h⟩ := bind_eq_ok_iff.1 h
    cases h
    exact .one hp

theorem puts_of_emitsEach {fs : List Form} {es : List Expr} (h : EmitsEach Declares fs ρ es ρ') :
    Puts ρ (Form.declarationsEach fs).own (declaredEach es) ρ' := by
  induction h with
  | nil ρ => exact .nil ρ
  | cons h _ ih => exact Puts.append h ih

theorem puts_of_emitsFields {entries : List (String × Form)} {fields : List (String × Expr)}
    (h : EmitsFields Declares entries ρ fields ρ') :
    Puts ρ (Form.declarationsEach (entries.map Prod.snd)).own (declaredFields fields) ρ' := by
  induction h with
  | nil ρ => exact .nil ρ
  | cons h _ ih => exact Puts.append h.2 ih

theorem puts_of_emitsPart {item : Form} {p : Part} (h : EmitsPart Declares item ρ p ρ') :
    Puts ρ item.templateDeclarations.own p.declared ρ' := by
  cases h with
  | splice hs hq h =>
    rw [Form.templateDeclarations_unquoted (Or.inr rfl) hs, Special.quoted_eq_ok hq]
    simp only [Form.declarationsEach, Declarations.append_none]
    exact h
  | item hs h => exact h

theorem puts_of_emitsParts {items : List Form} {parts : List Part}
    (h : Threads (EmitsPart Declares) items ρ parts ρ') :
    Puts ρ (Form.templateDeclarationsEach items).own (parts.flatMap Part.declared) ρ' := by
  induction h with
  | nil ρ => exact .nil ρ
  | cons h _ ih => exact Puts.append (puts_of_emitsPart h) ih

theorem puts_of_emitsTail {tail : Form} {es : List Expr} {e : Expr} (h : EmitsTail Declares tail ρ es e ρ') :
    Puts ρ tail.declarations.own (declaredEach es ++ e.declared) ρ' := by
  cases h with
  | declaration hs hd hp h =>
    rw [Form.declarations_var (Form.reads_var hs hd)]
    simp only [declaredEach, declared, List.append_nil]
    exact .cons hp h
  | other hs h => exact h

/-- The names of a function and what they became, up to the end of its body. -/
theorem puts_of_fn {params targets : Parameters} {body : Body} {es last : List Expr} {result : Expr}
    {ρ₁ ρ₂ ρ₃ : Renaming} (hp : putParameters params ρ = .ok (targets, ρ₁))
    (hl : EmitsEach Declares body.leading ρ₁ es ρ₂) (ht : EmitsTail Declares body.last ρ₂ last result ρ₃) :
    Puts ρ (params.names ++ (Form.declarationsEach body.forms).own)
      (ownTargets (.function targets (es ++ last) result)) ρ₃ := by
  have hbody := (puts_of_emitsEach hl).append (puts_of_emitsTail ht)
  have hd : (Form.declarationsEach body.forms).own =
      (Form.declarationsEach body.leading).own ++ body.last.declarations.own := by
    rw [Body.forms, Form.declarationsEach_append]
    simp [Form.declarationsEach, Declarations.append, Declarations.none]
  rw [hd, ownTargets, declaredEach_append, List.append_assoc]
  exact (putParameters_puts hp).append hbody

/-- **One level declares as the levels below it do.** -/
theorem Emits.declares {job : Job} {e : Expr} (h : Emits Declares job ρ e ρ') : Declares job ρ e ρ' := by
  cases h with
  | literal h => rw [Declares, Job.declarations, Form.declarations_literal h]; exact .nil ρ
  | name h ht => rw [Declares, Job.declarations, Form.declarations_name h]; exact .nil ρ
  | var h hp hi =>
    rw [Declares, Job.declarations, Form.declarations_var h]
    exact .cons hp hi
  -- what a function puts is dropped behind it, and its code declares nothing around it
  | fn h hp hl ht => rw [Declares, Job.declarations, Form.declarations_fn h]; exact .nil ρ
  | assignName h ht hv => rw [Declares, Job.declarations, Form.declarations_assignName h]; exact hv
  | assignProperty h ha hv =>
    rw [Declares, Job.declarations, Form.declarations_assignProperty h]
    exact Puts.append ha hv
  | conditional h ht hc ha =>
    rw [Declares, Job.declarations, Form.declarations_conditional h]
    exact Puts.append ht (Puts.append hc ha)
  | quote h =>
    rw [Declares, Job.declarations, Form.declarations_quote h, declared_quoted]
    exact .nil ρ
  | quasiquote h ht => rw [Declares, Job.declarations, Form.declarations_quasiquote h]; exact ht
  | list h hi => rw [Declares, Job.declarations, Form.declarations_list h]; exact puts_of_emitsEach hi
  | member h ht hk =>
    rw [Declares, Job.declarations, Form.declarations_member h]
    exact Puts.append ht hk
  | object h he => rw [Declares, Job.declarations, Form.declarations_object h]; exact puts_of_emitsFields he
  | access h ht =>
    rw [Declares, Job.declarations, Form.declarations_access h]
    simp only [Form.declarationsEach, Declarations.append_none]
    exact ht
  | accessCall h ht ha =>
    rw [Declares, Job.declarations, Form.declarations_access h]
    exact Puts.append ht (puts_of_emitsEach ha)
  | application h hh ha =>
    rw [Declares, Job.declarations, Form.declarations_application h]
    exact Puts.append hh (puts_of_emitsEach ha)
  | unquote hs hq hi =>
    rw [Declares, Job.declarations, Form.templateDeclarations_unquoted (Or.inl rfl) hs,
      Special.quoted_eq_ok hq]
    simp only [Form.declarationsEach, Declarations.append_none]
    exact hi
  | templateList hs hp =>
    rw [Declares, Job.declarations, Form.templateDeclarations_list hs, declared_joined]
    exact puts_of_emitsParts hp
  | templateAtom h =>
    rw [Declares, Job.declarations, Form.templateDeclarations_atom h, declared_quoted]
    exact .nil ρ

end

/-! ## All levels -/

/-- **A job puts the names it declares, and its code declares the targets they got.** -/
theorem compile_puts {limit levels : Nat} {job : Job} {ρ ρ' : Renaming} {e : Expr}
    (h : compile limit levels job ρ = .ok (e, ρ')) : Puts ρ job.declarations.own e.declared ρ' := by
  induction levels generalizing job ρ e ρ' with
  | zero => cases h
  | succ levels ih =>
    have := (layer_eq_ok_iff.1 h).mono (S := Declares) fun _ _ _ _ hb => ih hb
    exact this.declares

/-- **A function puts its parameters and what its body declares**, and gives back the renaming it got. -/
theorem compile_fn_puts {limit levels : Nat} {f : Form} {params : Parameters} {body : Body}
    {ρ ρ' : Renaming} {e : Expr} (hf : f.Reads (.fn params body))
    (h : compile limit levels (.form f) ρ = .ok (e, ρ')) :
    ρ' = ρ ∧ ∃ ρb, Puts ρ (params.names ++ (Form.declarationsEach body.forms).own) e.ownTargets ρb := by
  cases levels with
  | zero => cases h
  | succ levels =>
    rw [compile, layer, compileForm_of_reads hf] at h
    obtain ⟨e, hc, h⟩ := bind_eq_ok_iff.1 h
    cases h
    obtain ⟨_, _, _, _, _, _, _, hp, hl, ht, rfl⟩ := compileFn_eq_ok_iff.1 hc
    refine ⟨rfl, _, puts_of_fn hp (hl.mono ?_) (ht.mono ?_)⟩ <;>
      exact fun _ _ _ _ hb => compile_puts hb

/-! ## Jobs on the way -/

/-- One level of a job asks for another job: what comes out depends on the answer. -/
def Asks (below : Emitter) (job : Job) (ρ : Renaming) (job' : Job) (ρ' : Renaming) : Prop :=
  ∃ other : Emitter, (∀ j s, (j, s) ≠ (job', ρ') → other j s = below j s) ∧
    layer other job ρ ≠ layer below job ρ

/-- The jobs that compiling a job goes through, each with its levels left and its renaming. -/
inductive OnTheWay (limit : Nat) : Nat → Job → Renaming → Nat → Job → Renaming → Prop
  | here (levels : Nat) (job : Job) (ρ : Renaming) : OnTheWay limit levels job ρ levels job ρ
  | further {levels n : Nat} {job job' job'' : Job} {ρ ρ' ρ'' : Renaming}
      (h : Asks (compile limit levels) job ρ job' ρ') (hs : OnTheWay limit levels job' ρ' n job'' ρ'') :
      OnTheWay limit (levels + 1) job ρ n job'' ρ''

section

variable {R : Answers} {ρ₀ ρ ρ' : Renaming}

theorem Threads.within {α β : Type} {P : α → Renaming → β → Renaming → Prop} {as : List α} {bs : List β}
    (hP : ∀ a ρ b ρ', P a ρ b ρ' → ρ.Extends ρ') (hρ : ρ₀.Extends ρ) (h : Threads P as ρ bs ρ') :
    Threads (fun a s b s' => ρ₀.Extends s ∧ P a s b s') as ρ bs ρ' ∧ ρ₀.Extends ρ' := by
  induction h with
  | nil ρ => exact ⟨.nil ρ, hρ⟩
  | cons h _ ih =>
    -- the renaming behind the first item extends the start too
    obtain ⟨hs, hρ'⟩ := ih (hρ.trans (hP _ _ _ _ h))
    exact ⟨.cons ⟨hρ, h⟩ hs, hρ'⟩

theorem EmitsEach.within {fs : List Form} {es : List Expr}
    (hR : ∀ job ρ e ρ', R job ρ e ρ' → ρ.Extends ρ') (hρ : ρ₀.Extends ρ) (h : EmitsEach R fs ρ es ρ') :
    EmitsEach (fun job s e s' => ρ₀.Extends s ∧ R job s e s') fs ρ es ρ' ∧ ρ₀.Extends ρ' :=
  Threads.within (fun f => hR (.form f)) hρ h

theorem EmitsPart.extends {item : Form} {p : Part} (hR : ∀ job ρ e ρ', R job ρ e ρ' → ρ.Extends ρ')
    (h : EmitsPart R item ρ p ρ') : ρ.Extends ρ' := by
  cases h with
  | splice hs hq h => exact hR _ _ _ _ h
  | item hs h => exact hR _ _ _ _ h

theorem EmitsPart.within {item : Form} {p : Part} (hρ : ρ₀.Extends ρ) (h : EmitsPart R item ρ p ρ') :
    EmitsPart (fun job s e s' => ρ₀.Extends s ∧ R job s e s') item ρ p ρ' := by
  cases h with
  | splice hs hq h => exact .splice hs hq ⟨hρ, h⟩
  | item hs h => exact .item hs ⟨hρ, h⟩

theorem EmitsTail.within {tail : Form} {es : List Expr} {e : Expr} (hρ : ρ₀.Extends ρ)
    (h : EmitsTail R tail ρ es e ρ') :
    EmitsTail (fun job s e s' => ρ₀.Extends s ∧ R job s e s') tail ρ es e ρ' := by
  cases h with
  | declaration hs hd hp h => exact .declaration hs hd hp ⟨hρ.trans ⟨_, _, .one hp⟩, h⟩
  | other hs h => exact .other hs ⟨hρ, h⟩

/-- **One level asks for jobs in extensions of its renaming only.** -/
theorem Emits.within {job : Job} {e : Expr} (hR : ∀ job ρ e ρ', R job ρ e ρ' → ρ.Extends ρ')
    (h : Emits R job ρ e ρ') : Emits (fun job s e s' => ρ.Extends s ∧ R job s e s') job ρ e ρ' := by
  have hρ := Extends.refl ρ
  cases h with
  | literal h => exact .literal h
  | name h ht => exact .name h ht
  | var h hp hi => exact .var h hp ⟨⟨_, _, .one hp⟩, hi⟩
  | fn h hp hl ht =>
    obtain ⟨hl, hρ₂⟩ := hl.within hR ⟨_, _, putParameters_puts hp⟩
    exact .fn h hp hl (ht.within hρ₂)
  | assignName h ht hv => exact .assignName h ht ⟨hρ, hv⟩
  | assignProperty h ha hv => exact .assignProperty h ⟨hρ, ha⟩ ⟨hR _ _ _ _ ha, hv⟩
  | conditional h ht hc ha =>
    have h₁ := hR _ _ _ _ ht
    exact .conditional h ⟨hρ, ht⟩ ⟨h₁, hc⟩ ⟨h₁.trans (hR _ _ _ _ hc), ha⟩
  | quote h => exact .quote h
  | quasiquote h ht => exact .quasiquote h ⟨hρ, ht⟩
  | list h hi => exact .list h (hi.within hR hρ).1
  | member h ht hk => exact .member h ⟨hρ, ht⟩ ⟨hR _ _ _ _ ht, hk⟩
  | object h he =>
    refine .object h (Threads.mono ?_ (Threads.within (fun _ _ _ _ hf => hR _ _ _ _ hf.2) hρ he).1)
    exact fun _ _ _ _ hf => ⟨hf.2.1, hf.1, hf.2.2⟩
  | access h ht => exact .access h ⟨hρ, ht⟩
  | accessCall h ht ha => exact .accessCall h ⟨hρ, ht⟩ (ha.within hR (hR _ _ _ _ ht)).1
  | application h hh ha => exact .application h ⟨hρ, hh⟩ (ha.within hR (hR _ _ _ _ hh)).1
  | unquote hs hq hi => exact .unquote hs hq ⟨hρ, hi⟩
  | templateList hs hp =>
    refine .templateList hs (Threads.mono ?_ (Threads.within (fun _ _ _ _ => EmitsPart.extends hR) hρ hp).1)
    exact fun _ _ _ _ hp => hp.2.within hp.1
  | templateAtom h => exact .templateAtom h

end

/-- A level that fails whenever a job fails has asked for that job. -/
theorem asks_of_fails {below : Emitter} {job job' : Job} {ρ s : Renaming} {r : Expr × Renaming}
    (h : layer below job ρ = .ok r)
    (hf : ∀ (other : Emitter) (x : Error), other job' s = .error x → layer other job ρ = .error x) :
    Asks below job ρ job' s := by
  classical
  let x : Error := .raised job'.site .emptyApplication
  refine ⟨fun j t => if (j, t) = (job', s) then .error x else below j t, fun j t hjt => if_neg hjt, ?_⟩
  rw [hf _ x (if_pos rfl), h]
  exact fun he => by cases he

/-- **A job that is asked for compiles if the whole does**, in an extension of the renaming. -/
theorem Asks.compiles {below : Emitter} {job job' : Job} {ρ ρ' s : Renaming} {e : Expr}
    (hb : ∀ job ρ e ρ', below job ρ = .ok (e, ρ') → ρ.Extends ρ') (h : layer below job ρ = .ok (e, ρ'))
    (ha : Asks below job ρ job' s) : ρ.Extends s ∧ ∃ e' s', below job' s = .ok (e', s') := by
  obtain ⟨other, hother, hne⟩ := ha
  -- if not, then no rule has used this answer, and the level comes out the same with any other
  by_contra hn
  apply hne
  rw [h, layer_eq_ok_iff]
  refine ((layer_eq_ok_iff.1 h).within hb).mono ?_
  rintro j t e' t' ⟨ht, hj⟩
  have hjt : (j, t) ≠ (job', s) := by
    rintro heq; cases heq
    exact hn ⟨ht, e', t', hj⟩
  rw [Answers.of, hother j t hjt]
  exact hj

theorem OnTheWay.compiles {limit levels n : Nat} {job job' : Job} {ρ ρ' s : Renaming} {e : Expr}
    (hw : OnTheWay limit levels job ρ n job' s) (h : compile limit levels job ρ = .ok (e, ρ')) :
    ρ.Extends s ∧ ∃ e' s', compile limit n job' s = .ok (e', s') := by
  induction hw generalizing e ρ' with
  | here => exact ⟨.refl _, e, ρ', h⟩
  | further ha _ ih =>
    obtain ⟨hs, e₁, s₁, h₁⟩ := ha.compiles (fun _ _ _ _ hb => ⟨_, _, compile_puts hb⟩) h
    obtain ⟨hs', hc⟩ := ih h₁
    exact ⟨hs.trans hs', hc⟩

/-- **Hygiene.** Compiling keeps renamings good: targets stay taken, names stay bound, and a name changes
its target to a fresh one only. Each function on the way gets targets for its parameters and for what its
body declares that are distinct, usable and not taken where it starts; so none of them is the target of a
name that is bound around it. -/
theorem compile_hygienic {limit levels : Nat} {f : Form} {ρ ρ' : Renaming} {e : Expr} (hρ : ρ.Good)
    (h : compile limit levels (.form f) ρ = .ok (e, ρ')) :
    ρ'.Good ∧ (∀ t, ρ.isTaken t = true → ρ'.isTaken t = true) ∧
    (∀ n, (ρ.target? n).isSome = true → (ρ'.target? n).isSome = true) ∧
    (∀ n, ρ'.target? n ≠ ρ.target? n → ∃ t, ρ'.target? n = some t ∧ ρ.isTaken t = false) ∧
    ∀ (n : Nat) (g : Form) (s : Renaming) (params : Parameters) (body : Body),
      OnTheWay limit levels (.form f) ρ n (.form g) s → g.Reads (.fn params body) →
      ∃ code sb, compile limit n (.form g) s = .ok (code, s) ∧
        Puts s (params.names ++ (Form.declarationsEach body.forms).own) code.ownTargets sb ∧
        code.ownTargets.Nodup ∧
        ∀ t ∈ code.ownTargets, isSafe t = true ∧ s.isTaken t = false ∧ ∀ m, s.target? m ≠ some t := by
  have hp := compile_puts h
  refine ⟨hp.good hρ, fun t ht => (hp.isTaken_iff t).2 (Or.inl ht),
    fun n hn => (hp.isSome_target?_iff n).2 (Or.inl hn), ?_, ?_⟩
  · intro n hn
    rcases hp.target?_cases n with heq | ⟨t, ht, heq⟩
    · exact absurd heq hn
    · exact ⟨t, heq, hp.not_taken t ht⟩
  · intro n g s params body hw hg
    obtain ⟨hs, code, s', hc⟩ := hw.compiles h
    obtain ⟨rfl, sb, hput⟩ := compile_fn_puts hg hc
    refine ⟨code, sb, hc, hput, hput.nodup, ?_⟩
    intro t ht
    have hfree := hput.not_taken t ht
    refine ⟨hput.isSafe t ht, hfree, ?_⟩
    -- the renaming at the function is good as well, so a bound target is taken
    intro m hm
    rw [(hs.good hρ).taken hm] at hfree
    cases hfree

/-- `(fn (x) (var x x))` -/
def shadowing : Form :=
  .list [.symbol "fn", .list [.symbol "x"], .list [.symbol "var", .symbol "x", .symbol "x"]]

/-- `(var f (fn (x) (var x x)))` -/
def shadowingVar : Form := .list [.symbol "var", .symbol "f", shadowing]

/-- The function in `shadowingVar` is on the way, and its parameter and its variable get two targets. -/
theorem compile_hygienic_shadowing :
    ∃ code sb, compile 4 3 (.form shadowing) (empty.bind "f" "f") = .ok (code, empty.bind "f" "f") ∧
      Puts (empty.bind "f" "f") ["x", "x"] code.ownTargets sb ∧ code.ownTargets.Nodup ∧
      ∀ t ∈ code.ownTargets, isSafe t = true ∧ (empty.bind "f" "f").isTaken t = false ∧
        ∀ m, (empty.bind "f" "f").target? m ≠ some t := by
  obtain ⟨⟨e, ρ'⟩, h⟩ : ∃ r, compile 4 4 (.form shadowingVar) empty = .ok r := ⟨_, rfl⟩
  have hw : Asks (compile 4 3) (.form shadowingVar) empty (.form shadowing) (empty.bind "f" "f") := by
    apply asks_of_fails h
    intro other x hx
    rw [layer, compileForm_of_reads (s := .var "f" shadowing) ⟨.var, _, rfl, rfl⟩]
    have hput : empty.put "f" (.symbol "f") = .ok ("f", empty.bind "f" "f") := rfl
    simp only [compileSpecial, compileVar, hput, Bind.bind, Except.bind, hx]
  exact (compile_hygienic good_empty h).2.2.2.2 3 shadowing _ (.fixed ["x"]) ⟨[], _⟩
    (.further hw (.here _ _ _)) ⟨.fn, _, rfl, rfl⟩

end HostLisp.Codegen
