import HostLisp.Proofs.Placement
import HostLisp.Proofs.StaticSoundness

/-!
# Programs whose code means what it should

The text of a host expression means what the expression means as long as declarations are statements, and
assignments do not stand in front of operators. Quoted symbols need the symbol table.

* `Compiles`: the jobs that compile, at any depth.
* `Form.FitsStatement`, `Job.Fits`: the forms that can be statements, and the jobs inside statements. Each part of
  a job that fits does too.
* `Job.Fits.names_eq`: **inside a statement nothing is declared.**
-/

namespace HostLisp

open Host Codegen

/-! ## Compiled code -/

/-- The jobs that compile at some depth. -/
def Codegen.Compiles : Answers := fun job ρ e ρ' => ∃ limit levels, compile limit levels job ρ = .ok (e, ρ')

/-- Compiled code keeps the rules. -/
theorem Codegen.Compiles.emits {job : Job} {ρ ρ' : Renaming} {e : Expr} (h : Compiles job ρ e ρ') :
    Emits Compiles job ρ e ρ' := by
  obtain ⟨limit, levels, h⟩ := h
  cases levels with
  | zero => cases h
  | succ levels => exact (layer_eq_ok_iff.1 h).mono fun _ _ _ _ hb => ⟨limit, levels, hb⟩

theorem Codegen.Compiles.puts {job : Job} {ρ ρ' : Renaming} {e : Expr} (h : Compiles job ρ e ρ') :
    Renaming.Puts ρ job.declarations.own e.declared ρ' := by
  obtain ⟨limit, levels, h⟩ := h
  exact compile_puts h

/-- The code of a declaration. -/
theorem Codegen.Compiles.of_var {f : Form} {ρ ρ' : Renaming} {e : Expr} (h : Compiles (.form f) ρ e ρ')
    (hf : f.isSpecial .var = true) : ∃ x init t ρ₁ e', f.Reads (.var x init) ∧
      ρ.put x (.symbol x) = .ok (t, ρ₁) ∧ Compiles (.form init) ρ₁ e' ρ' ∧ e = .declare t e' := by
  obtain ⟨args, hs⟩ : ∃ args, f.special? = some (.var, args) := by
    by_contra hnone
    rw [Form.isSpecial_eq_false fun args hs => hnone ⟨args, hs⟩] at hf
    cases hf
  obtain ⟨name, rfl, hk⟩ := Form.special?_eq_some hs
  have hshape : (Form.list (.symbol name :: args)).shape = .special .var args := by
    simp [Form.shape, Form.headedShape, hk]
  obtain ⟨limit, levels, h⟩ := h
  cases levels with
  | zero => cases h
  | succ levels =>
    simp only [compile, layer, compileForm, hshape] at h
    obtain ⟨s, hspecial, h⟩ := bind_eq_ok_iff.1 h
    obtain ⟨⟨x, init⟩, hd, hx⟩ := bind_eq_ok_iff.1 hspecial
    cases hx
    simp only [compileSpecial, compileVar, bind_eq_ok_iff, Prod.exists] at h
    obtain ⟨t, e', ρ₂, ⟨t', ρ₁, hp, e'', ρ₂', hi, h₁⟩, h₂⟩ := h
    cases h₁
    cases h₂
    exact ⟨x, init, t, ρ₁, e', Form.reads_var hs hd, hp, ⟨limit, levels, hi⟩, rfl⟩

/-! ## Forms and jobs that fit -/

/-- Declarations are statements, and assignments do not stand in front of operators. -/
def Floors.faithful : Floors
  | .var => .statement
  | .assign => .operand
  | _ => .tight

/-- Whether a job has a quoted symbol in it. -/
def Job.quotes : Job → Bool
  | .form f => SymbolTable.scan .code f
  | .template t => SymbolTable.scan .template t

/-- A form that can be a statement. It has no quoted symbol in it unless the symbol table is there. -/
structure Form.FitsStatement (table : Option CellId) (f : Form) : Prop where
  placed : f.wellPlaced .faithful .statement = true
  quiet : table = none → (Job.form f).quotes = false

/-- A job that can be done inside a statement. -/
structure Job.Fits (table : Option CellId) (job : Job) : Prop where
  placed : ∃ here, here ≠ .statement ∧ job.wellPlaced .faithful here = true
  quiet : table = none → job.quotes = false

namespace SymbolTable

theorem scan_eq_false {c : Context} {fs : List Form} (h : scanAny c fs = false) :
    ∀ f ∈ fs, scan c f = false := by
  intro f hf
  rw [Bool.eq_false_iff]
  intro hscan
  rw [scanAny_eq_true_iff.2 ⟨f, hf, hscan⟩] at h
  cases h

/-- A list headed by a symbol, as code. -/
theorem scan_headed (name : String) (args : List Form) :
    scan .code (.list (.symbol name :: args)) = match Keyword.ofName? name, args with
      | some .quote, [datum] => scan .quoted datum
      | some .quasiquote, [template] => scan .template template
      | _, args => scanAny .code args := by
  rcases hk : Keyword.ofName? name with _ | k
  · simp [scan, hk]
  · rcases args with _ | ⟨f, _ | ⟨g, gs⟩⟩ <;> cases k <;> simp [scan, hk]

theorem scan_template_headed (name : String) (args : List Form) :
    scan .template (.list (.symbol name :: args)) = match Keyword.ofName? name with
      | some .unquote => scanAny .code args
      | some .unquoteSplicing => scanAny .code args
      | _ => true := by
  rcases hk : Keyword.ofName? name with _ | k
  · simp [scan, hk]
  · cases k <;> simp [scan, hk]

theorem scanAny_quoted {items : List Form} (h : scan .quoted (.list items) = false) :
    scanAny .quoted items = false := by
  match items, h with
  | [], _ => rfl
  | .literal _ :: _, h => exact h
  | .list _ :: _, h => exact h

end SymbolTable

/-- The parts of a special form without quoted symbols have none. -/
theorem Form.Reads.quotes_eq_false {f : Form} {s : Special} (hf : f.Reads s)
    (hq : (Job.form f).quotes = false) : ∀ job ∈ s.jobs, job.quotes = false := by
  obtain ⟨name, k, args, rfl, hk, hp⟩ := hf.parts
  rw [Job.quotes, SymbolTable.scan_headed, hk] at hq
  cases hp with
  | @var n init hn =>
    have hargs := SymbolTable.scan_eq_false hq
    simpa [Special.jobs, Job.quotes] using hargs init (by simp)
  | @assignName n value hn =>
    have hargs := SymbolTable.scan_eq_false hq
    simpa [Special.jobs, Job.quotes] using hargs value (by simp)
  | conditional =>
    have hargs := SymbolTable.scan_eq_false hq
    simpa [Special.jobs, Job.quotes] using hargs
  | @fn p first rest params hp =>
    have hbody := SymbolTable.scan_eq_false hq
    simp only [Special.jobs, List.mem_map, forall_exists_index, and_imp]
    rintro _ g hg rfl
    rw [Form.ofForms_forms] at hg
    exact hbody g (List.mem_cons_of_mem _ hg)
  | quasiquote => simpa [Special.jobs, Job.quotes] using hq
  | list items =>
    simpa [Special.jobs, Job.quotes] using SymbolTable.scan_eq_false hq
  | assignProperty | quote | unquote | unquoteSplicing | member | object | importModules | defineSyntax
    | syntaxRules => intro job hj; cases hj

namespace Form.FitsStatement

variable {table : Option CellId} {f : Form}

/-- The first value of a declaration fits. -/
theorem init {n : String} {init : Form} (h : f.FitsStatement table) (hf : f.Reads (.var n init)) :
    (Job.form init).Fits table := by
  refine ⟨⟨.operand, by decide, (wellPlaced_var hf h.placed).2⟩, fun ht => ?_⟩
  exact hf.quotes_eq_false (h.quiet ht) _ (by simp [Special.jobs])

/-- A statement that is no declaration can stand inside a statement. -/
theorem fits (h : f.FitsStatement table) (hf : f.isSpecial .var = false) : (Job.form f).Fits table := by
  refine ⟨⟨.result, by decide, ?_⟩, h.quiet⟩
  have hplaced := h.placed
  match f with
  | .literal _ => rfl
  | .symbol _ => rfl
  | .list [] => rfl
  | .list (.literal _ :: _) => exact hplaced
  | .list (.list _ :: _) => exact hplaced
  | .list (.symbol name :: args) =>
    rw [Job.wellPlaced, wellPlaced_headed]
    rw [wellPlaced_headed] at hplaced
    cases hk : Keyword.ofName? name with
    | none =>
      rw [hk] at hplaced
      exact hplaced
    | some k =>
      rw [hk] at hplaced
      -- only a declaration asks for more than what is returned
      cases k with
      | var => simp [isSpecial, special?, hk] at hf
      | quasiquote => rcases args with _ | ⟨t, _ | ⟨u, us⟩⟩ <;> exact hplaced
      | fn => cases args <;> exact hplaced
      | assign | conditional | quote | unquote | unquoteSplicing | member | object | importModules | list
      | defineSyntax | syntaxRules => exact hplaced

end Form.FitsStatement

namespace Job.Fits

variable {table : Option CellId} {f : Form}

/-- A declaration is a statement. -/
theorem not_var {n : String} {init : Form} (h : (Job.form f).Fits table) : ¬f.Reads (.var n init) := by
  intro hf
  obtain ⟨here, hne, hplaced⟩ := h.placed
  have hle := (Form.wellPlaced_var hf hplaced).1
  cases here with
  | tight | operand | result => exact absurd hle (by decide)
  | statement => exact hne rfl

/-- What fits declares nothing. -/
theorem declared_eq_nil {job : Job} {ρ ρ' : Renaming} {e : Expr} (h : job.Fits table)
    (hc : Compiles job ρ e ρ') : e.declared = [] := by
  obtain ⟨here, hne, hplaced⟩ := h.placed
  obtain ⟨limit, levels, hc⟩ := hc
  have he := compile_wellPlaced limit levels job ρ e ρ' hc here hplaced
  exact Expr.declared_eq_nil_of_wellPlaced rfl e he hne

/-- What fits leaves the renaming as it is. -/
theorem names_eq {job : Job} {ρ ρ' : Renaming} {e : Expr} (h : job.Fits table) (hc : Compiles job ρ e ρ') :
    ρ' = ρ := by
  have hputs := hc.puts
  rw [h.declared_eq_nil hc] at hputs
  generalize job.declarations.own = names at hputs
  cases hputs
  rfl

theorem value {n : String} {value : Form} (h : (Job.form f).Fits table)
    (hf : f.Reads (.assign (.name n) value)) : (Job.form value).Fits table := by
  obtain ⟨here, -, hplaced⟩ := h.placed
  refine ⟨⟨.operand, by decide, (Form.wellPlaced_assignName hf hplaced).2⟩, fun ht => ?_⟩
  exact hf.quotes_eq_false (h.quiet ht) _ (by simp [Special.jobs])

theorem branches {t c a : Form} (h : (Job.form f).Fits table) (hf : f.Reads (.conditional t c a)) :
    (Job.form t).Fits table ∧ (Job.form c).Fits table ∧ (Job.form a).Fits table := by
  obtain ⟨here, -, hplaced⟩ := h.placed
  obtain ⟨ht, hc, ha⟩ := Form.wellPlaced_conditional hf hplaced
  have hquiet := fun htable => hf.quotes_eq_false (h.quiet htable)
  refine ⟨⟨⟨.tight, by decide, ht⟩, fun htable => ?_⟩, ⟨⟨.operand, by decide, hc⟩, fun htable => ?_⟩,
    ⟨⟨.operand, by decide, ha⟩, fun htable => ?_⟩⟩ <;>
    exact hquiet htable _ (by simp [Special.jobs])

/-- Quoted data has no symbols in it unless the table is there. -/
theorem datum {datum : Form} (h : (Job.form f).Fits table) (hf : f.Reads (.quote datum)) :
    table = none → SymbolTable.scan .quoted datum = false := by
  intro ht
  have hq := h.quiet ht
  obtain ⟨name, k, args, rfl, hk, hp⟩ := hf.parts
  cases hp
  rw [quotes, SymbolTable.scan_headed, hk] at hq
  exact hq

theorem template {t : Form} (h : (Job.form f).Fits table) (hf : f.Reads (.quasiquote t)) :
    (Job.template t).Fits table := by
  obtain ⟨here, hne, hplaced⟩ := h.placed
  refine ⟨⟨here, hne, Form.wellPlaced_quasiquote hf hplaced⟩, fun ht => ?_⟩
  exact hf.quotes_eq_false (h.quiet ht) _ (by simp [Special.jobs])

theorem items {items : List Form} (h : (Job.form f).Fits table) (hf : f.Reads (.list items)) :
    ∀ g ∈ items, (Job.form g).Fits table := by
  obtain ⟨here, -, hplaced⟩ := h.placed
  intro g hg
  refine ⟨⟨.operand, by decide, Form.wellPlacedEach_iff.1 (Form.wellPlaced_list hf hplaced) g hg⟩, fun ht => ?_⟩
  exact hf.quotes_eq_false (h.quiet ht) _ (by simp [Special.jobs, hg])

theorem body {params : Parameters} {body : Body} (h : (Job.form f).Fits table)
    (hf : f.Reads (.fn params body)) : (∀ g ∈ body.leading, g.FitsStatement table) ∧
      if body.last.isSpecial .var then body.last.FitsStatement table else (Job.form body.last).Fits table := by
  obtain ⟨here, -, hplaced⟩ := h.placed
  obtain ⟨hleading, hlast⟩ := Form.wellPlaced_fn hf hplaced
  have hquiet := fun htable => hf.quotes_eq_false (h.quiet htable)
  refine ⟨fun g hg => ⟨hleading g hg, fun htable => ?_⟩, ?_⟩
  · exact hquiet htable _ (by simp [Special.jobs, Body.forms, hg])
  · have hq : table = none → (Job.form body.last).quotes = false :=
      fun htable => hquiet htable _ (by simp [Special.jobs, Body.forms])
    by_cases hvar : body.last.isSpecial .var = true
    · rw [if_pos hvar] at hlast ⊢
      exact ⟨hlast, hq⟩
    · rw [if_neg hvar] at hlast ⊢
      exact ⟨⟨.result, by decide, hlast⟩, hq⟩

theorem application {head : Form} {args : List Form} (h : (Job.form f).Fits table)
    (hf : f.shape = .application head args) :
    (Job.form head).Fits table ∧ ∀ g ∈ args, (Job.form g).Fits table := by
  obtain ⟨here, -, hplaced⟩ := h.placed
  obtain ⟨hhead, hargs⟩ := Form.wellPlaced_application hf hplaced
  have hquiet : table = none → ∀ g ∈ head :: args, SymbolTable.scan .code g = false := by
    intro ht
    have hq := h.quiet ht
    obtain ⟨rfl, hs⟩ := Form.shape_eq_application hf
    cases head with
    | symbol name =>
      rw [quotes, SymbolTable.scan_headed, (hs name rfl).1] at hq
      exact List.forall_mem_cons.2 ⟨rfl, SymbolTable.scan_eq_false hq⟩
    | literal l => exact SymbolTable.scan_eq_false hq
    | list items => exact SymbolTable.scan_eq_false hq
  refine ⟨⟨⟨.tight, by decide, hhead⟩, fun ht => hquiet ht head List.mem_cons_self⟩, fun g hg => ?_⟩
  exact ⟨⟨.operand, by decide, Form.wellPlacedEach_iff.1 hargs g hg⟩,
    fun ht => hquiet ht g (List.mem_cons_of_mem _ hg)⟩

/-- What is unquoted in a template fits. -/
theorem unquoted {t inner : Form} {k : Keyword} (hk : k = .unquote ∨ k = .unquoteSplicing)
    (h : (Job.template t).Fits table) (hs : t.special? = some (k, [inner])) : (Job.form inner).Fits table := by
  obtain ⟨here, -, hplaced⟩ := h.placed
  have hinner := Form.templateWellPlaced_unquoted hk hs hplaced
  refine ⟨⟨here.ofTemplate, by cases here <;> decide, hinner⟩, fun ht => ?_⟩
  have hq := h.quiet ht
  obtain ⟨name, rfl, hn⟩ := Form.special?_eq_some hs
  rw [quotes, SymbolTable.scan_template_headed, hn] at hq
  rcases hk with rfl | rfl <;> exact SymbolTable.scan_eq_false hq inner List.mem_cons_self

/-- The items of a template list fit. -/
theorem parts {items : List Form} (h : (Job.template (.list items)).Fits table)
    (hs : (Form.list items).PlainTemplate) : ∀ t ∈ items, (Job.template t).Fits table := by
  obtain ⟨here, hne, hplaced⟩ := h.placed
  have hitems := Form.templateWellPlacedEach_iff.1 (Form.templateWellPlaced_list hs hplaced)
  intro t ht
  refine ⟨?_, fun htable => ?_⟩
  · have hitem := hitems t ht
    split at hitem
    · refine ⟨here, hne, ?_⟩
      exact hitem
    · exact ⟨.operand, by decide, hitem⟩
  · have hq := h.quiet htable
    match items, hs, hq with
    | .literal _ :: _, _, hq => exact SymbolTable.scan_eq_false hq t ht
    | .list _ :: _, _, hq => exact SymbolTable.scan_eq_false hq t ht
    | .symbol name :: args, hs, hq =>
      have hplain := hs args
      simp only [Form.special?] at hplain
      rw [quotes, SymbolTable.scan_template_headed] at hq
      split at hq
      · rename_i hk; simp [hk] at hplain
      · rename_i hk; simp [hk] at hplain
      · cases hq

end Job.Fits

end HostLisp
