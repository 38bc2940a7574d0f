import HostLisp.Proofs.FlatPrograms
import HostLisp.Proofs.Hygiene

/-!
# A symbol table that is put in front late

The name of the symbol table is reserved before the first form that needs the table. In a program with imports
that form may be part of a module, and then names have been bound before it. If one of them is the name of the
table, the reservation fails, although the flat program compiles: there the table comes before any name.

* `Renaming.SameNames`: the same names are bound, to whatever targets.
* `compile_sameNames`: **whether a job compiles depends on the bound names alone**, not on their targets.
* `Puts.isTaken_tableName_iff`: a name takes the target of the table only if it is spelled as the table is.
* `LateTable`: a form that needs the table stands behind a declaration of its name.
* `compileWithImports_ok_iff_not_lateTable`: **of the programs whose flat program compiles, exactly those fail.**
-/

namespace HostLisp

open Host

/-! ## Spellings of one name only -/

namespace Host

/-- A character is spelled as itself, or with an underscore or a dollar sign. -/
theorem spell_cases {c : Char} {cs : List Char} (h : spell c = .ok cs) :
    cs = [c] ∨ '_' ∈ cs ∨ '$' ∈ cs := by
  unfold spell at h
  split at h
  · cases h
    exact Or.inl rfl
  · split at h
    · rename_i s hs
      cases h
      right
      -- the table of substitutes, entry by entry
      unfold substitute? at hs
      split at hs <;> cases hs <;> decide
    · cases h

theorem flatten_spelled {cs : List Char} {spelled : List (List Char)} (h : cs.mapM spell = .ok spelled)
    (hplain : ∀ d ∈ spelled.flatten, d ≠ '_' ∧ d ≠ '$') : spelled.flatten = cs := by
  induction cs generalizing spelled with
  | nil => cases h; rfl
  | cons c cs ih =>
    rw [List.mapM_cons] at h
    obtain ⟨s, hs, h⟩ := bind_eq_ok_iff.1 h
    obtain ⟨rest, hrest, h⟩ := bind_eq_ok_iff.1 h
    cases h
    simp only [List.flatten_cons, List.forall_mem_append] at hplain ⊢
    rw [ih hrest hplain.2]
    rcases spell_cases hs with rfl | hm | hm
    · rfl
    · exact absurd rfl (hplain.1 _ hm).1
    · exact absurd rfl (hplain.1 _ hm).2

/-- **A spelling without underscores and dollar signs is that of one name**: itself. -/
theorem eq_of_sanitize {name spelling : String} (h : sanitize name = .ok spelling)
    (hplain : ∀ d ∈ spelling.toList, d ≠ '_' ∧ d ≠ '$') : name = spelling := by
  obtain ⟨spelled, hm, h⟩ := bind_eq_ok_iff.1 h
  cases h
  rw [String.toList_ofList] at hplain
  unfold guardStart at hplain ⊢
  split at hplain
  · exact absurd rfl (hplain '$' List.mem_cons_self).2
  · rename_i hg
    rw [if_neg hg, flatten_spelled hm hplain, String.ofList_toList]

namespace Renaming

/-- A target without digits is that of its own spelling. -/
theorem eq_of_fresh {ρ : Renaming} {s t : String} (h : ρ.fresh s = t) (ht : ∀ d ∈ t.toList, d.isDigit = false) :
    s = t := by
  rcases fresh_cases ρ s with ⟨-, he⟩ | ⟨n, he, -⟩
  · rw [← he, h]
  · exfalso
    obtain ⟨d, hd⟩ := List.exists_mem_of_ne_nil _ (Nat.toDigits_ne_nil (n := n) (b := 10))
    have hmem : d ∈ t.toList := by
      rw [← h, he, toList_numbered]
      exact List.mem_append_right _ hd
    have hdigit := Nat.isDigit_of_mem_toDigits (by omega) (by omega) hd
    rw [ht d hmem] at hdigit
    cases hdigit

theorem plain_tableName : ∀ d ∈ tableName.toList, (d ≠ '_' ∧ d ≠ '$') ∧ d.isDigit = false := by
  simp [tableName]

/-- **The target of the table goes to the name of the table**, and to no other. -/
theorem put_eq_tableName_iff {ρ ρ' : Renaming} {name target : String} {site : Form}
    (hfree : ρ.isTaken tableName = false) (h : ρ.put name site = .ok (target, ρ')) :
    target = tableName ↔ name = tableName := by
  unfold put at h
  cases hs : sanitize name with
  | error c => rw [hs] at h; cases h
  | ok s =>
    rw [hs] at h
    cases h
    constructor
    · intro ht
      have hspelling := eq_of_fresh ht fun d hd => (plain_tableName d hd).2
      rw [hspelling] at hs
      exact eq_of_sanitize hs fun d hd => (plain_tableName d hd).1
    · rintro rfl
      have hspelling : sanitize tableName = .ok tableName := by rfl
      rw [hspelling] at hs
      cases hs
      simp [fresh, hfree]

/-- **The target of the table is taken by putting names exactly if its name is among them.** -/
theorem Puts.isTaken_tableName_iff {ρ ρ' : Renaming} {names targets : List String}
    (h : Puts ρ names targets ρ') (hfree : ρ.isTaken tableName = false) :
    ρ'.isTaken tableName = true ↔ tableName ∈ names := by
  induction h with
  | nil ρ => simp [hfree]
  | @cons ρ ρ₁ ρ₂ name target names targets site hp hs ih =>
    obtain ⟨rfl, -, -⟩ := put_spec hp
    have hname := put_eq_tableName_iff hfree hp
    by_cases ht : name = tableName
    · -- once it is taken it stays so
      have htaken : (ρ.bind name target).isTaken tableName = true :=
        (isTaken_bind _ _ _ _).2 (Or.inl (hname.2 ht).symm)
      exact iff_of_true ((hs.isTaken_iff _).2 (Or.inl htaken)) (ht ▸ List.mem_cons_self)
    · have hstill : (ρ.bind name target).isTaken tableName = false := by
        rw [← Bool.not_eq_true, isTaken_bind, not_or, Bool.not_eq_true]
        exact ⟨fun he => ht (hname.1 he.symm), hfree⟩
      rw [ih hstill, List.mem_cons]
      exact ⟨Or.inr, fun hm => hm.resolve_left fun he => ht he.symm⟩

/-! ## Bound names and compiling -/

/-- The same names are bound. -/
def SameNames (ρ s : Renaming) : Prop := ∀ n, (ρ.target? n).isSome = (s.target? n).isSome

theorem SameNames.target? {ρ s : Renaming} (h : SameNames ρ s) {n target : String}
    (ht : ρ.target? n = some target) : ∃ target', s.target? n = some target' := by
  have hn := h n
  rw [ht] at hn
  exact Option.isSome_iff_exists.1 hn.symm

theorem SameNames.put {ρ s ρ' : Renaming} (h : SameNames ρ s) {n target : String} {site : Form}
    (hp : ρ.put n site = .ok (target, ρ')) :
    ∃ target' s', s.put n site = .ok (target', s') ∧ SameNames ρ' s' := by
  unfold Renaming.put at hp ⊢
  cases hs : sanitize n with
  | error c => rw [hs] at hp; cases hp
  | ok spelling =>
    rw [hs] at hp
    cases hp
    refine ⟨_, _, rfl, ?_⟩
    intro m
    rw [target?_bind, target?_bind]
    split
    · rfl
    · exact h m

end Renaming

end Host

namespace Codegen

open Renaming

/-- Whatever one relation answers in a renaming, another answers in every renaming with the same names. -/
def Carries {α β : Type} (P Q : α → Renaming → β → Renaming → Prop) : Prop :=
  ∀ a ρ b ρ' s, P a ρ b ρ' → SameNames ρ s → ∃ b' s', Q a s b' s' ∧ SameNames ρ' s'

section

variable {R S : Answers} {ρ ρ' s : Renaming}

theorem Threads.carries {α β : Type} {P Q : α → Renaming → β → Renaming → Prop} (hPQ : Carries P Q) :
    Carries (Threads P) (Threads Q) := by
  intro as ρ bs ρ' s h hs
  induction h generalizing s with
  | nil ρ => exact ⟨[], s, .nil s, hs⟩
  | cons h _ ih =>
    obtain ⟨b', s₁, hb, hs₁⟩ := hPQ _ _ _ _ _ h hs
    obtain ⟨bs', s₂, hbs, hs₂⟩ := ih _ hs₁
    exact ⟨b' :: bs', s₂, .cons hb hbs, hs₂⟩

theorem putParameters_sameNames {params targets : Parameters} (h : putParameters params ρ = .ok (targets, ρ'))
    (hs : SameNames ρ s) : ∃ targets' s', putParameters params s = .ok (targets', s') ∧ SameNames ρ' s' := by
  cases params with
  | fixed names =>
    obtain ⟨⟨ts, ρ₁⟩, hp, h⟩ := bind_eq_ok_iff.1 h
    cases h
    have hput : Carries (fun n ρ t ρ' => ρ.put n (.symbol n) = .ok (t, ρ'))
        (fun n ρ t ρ' => ρ.put n (.symbol n) = .ok (t, ρ')) := fun _ _ _ _ _ hp hs => hs.put hp
    obtain ⟨ts', s', hp', hs'⟩ := Threads.carries hput _ _ _ _ _ (putEach_eq_ok_iff.1 hp) hs
    exact ⟨_, s', bind_eq_ok_iff.2 ⟨_, putEach_eq_ok_iff.2 hp', rfl⟩, hs'⟩
  | rest name =>
    obtain ⟨⟨t, ρ₁⟩, hp, h⟩ := bind_eq_ok_iff.1 h
    cases h
    obtain ⟨t', s', hp', hs'⟩ := hs.put hp
    exact ⟨_, s', bind_eq_ok_iff.2 ⟨_, hp', rfl⟩, hs'⟩

variable (hRS : Carries R S)
include hRS

theorem EmitsEach.carries {fs : List Form} {es : List Expr} (h : EmitsEach R fs ρ es ρ')
    (hs : SameNames ρ s) : ∃ es' s', EmitsEach S fs s es' s' ∧ SameNames ρ' s' :=
  Threads.carries (fun f => hRS (.form f)) _ _ _ _ _ h hs

theorem EmitsPart.carries : Carries (EmitsPart R) (EmitsPart S) := by
  intro item ρ p ρ' s h hs
  cases h with
  | splice hsp hq h =>
    obtain ⟨e', s', h', hs'⟩ := hRS _ _ _ _ _ h hs
    exact ⟨_, s', .splice hsp hq h', hs'⟩
  | item hsp h =>
    obtain ⟨e', s', h', hs'⟩ := hRS _ _ _ _ _ h hs
    exact ⟨_, s', .item hsp h', hs'⟩

theorem EmitsTail.carries {tail : Form} {es : List Expr} {e : Expr} (h : EmitsTail R tail ρ es e ρ')
    (hs : SameNames ρ s) : ∃ es' e' s', EmitsTail S tail s es' e' s' ∧ SameNames ρ' s' := by
  cases h with
  | declaration hv hd hp h =>
    obtain ⟨t', s₁, hp', hs₁⟩ := hs.put hp
    obtain ⟨e', s', h', hs'⟩ := hRS _ _ _ _ _ h hs₁
    exact ⟨_, _, s', .declaration hv hd hp' h', hs'⟩
  | other hv h =>
    obtain ⟨e', s', h', hs'⟩ := hRS _ _ _ _ _ h hs
    exact ⟨_, _, s', .other hv h', hs'⟩

/-- **The rules ask for bound names only.** -/
theorem Emits.carries : Carries (Emits R) (Emits S) := by
  intro job ρ e ρ' s h hs
  cases h with
  | literal h => exact ⟨_, s, .literal h, hs⟩
  | name h ht =>
    obtain ⟨t', ht'⟩ := hs.target? ht
    exact ⟨_, s, .name h ht', hs⟩
  | var h hp hi =>
    obtain ⟨t', s₁, hp', hs₁⟩ := hs.put hp
    obtain ⟨e', s', hi', hs'⟩ := hRS _ _ _ _ _ hi hs₁
    exact ⟨_, s', .var h hp' hi', hs'⟩
  | fn h hp hl ht =>
    obtain ⟨ts', s₁, hp', hs₁⟩ := putParameters_sameNames hp hs
    obtain ⟨es', s₂, hl', hs₂⟩ := EmitsEach.carries hRS hl hs₁
    obtain ⟨last', e', s₃, ht', -⟩ := EmitsTail.carries hRS ht hs₂
    exact ⟨_, s, .fn h hp' hl' ht', hs⟩
  | assignName h ht hv =>
    obtain ⟨t', ht'⟩ := hs.target? ht
    obtain ⟨e', s', hv', hs'⟩ := hRS _ _ _ _ _ hv hs
    exact ⟨_, s', .assignName h ht' hv', hs'⟩
  | assignProperty h ha hv =>
    obtain ⟨p', s₁, ha', hs₁⟩ := hRS _ _ _ _ _ ha hs
    obtain ⟨e', s', hv', hs'⟩ := hRS _ _ _ _ _ hv hs₁
    exact ⟨_, s', .assignProperty h ha' hv', hs'⟩
  | conditional h ht hc ha =>
    obtain ⟨et', s₁, ht', hs₁⟩ := hRS _ _ _ _ _ ht hs
    obtain ⟨ec', s₂, hc', hs₂⟩ := hRS _ _ _ _ _ hc hs₁
    obtain ⟨ea', s₃, ha', hs₃⟩ := hRS _ _ _ _ _ ha hs₂
    exact ⟨_, s₃, .conditional h ht' hc' ha', hs₃⟩
  | quote h => exact ⟨_, s, .quote h, hs⟩
  | quasiquote h ht =>
    obtain ⟨e', s', ht', hs'⟩ := hRS _ _ _ _ _ ht hs
    exact ⟨_, s', .quasiquote h ht', hs'⟩
  | list h hi =>
    obtain ⟨es', s', hi', hs'⟩ := EmitsEach.carries hRS hi hs
    exact ⟨_, s', .list h hi', hs'⟩
  | member h ht hk =>
    obtain ⟨et', s₁, ht', hs₁⟩ := hRS _ _ _ _ _ ht hs
    obtain ⟨ek', s', hk', hs'⟩ := hRS _ _ _ _ _ hk hs₁
    exact ⟨_, s', .member h ht' hk', hs'⟩
  | object h he =>
    have hfields : Carries
        (fun (f : String × Form) ρ (g : String × Expr) ρ' => f.1 = g.1 ∧ R (.form f.2) ρ g.2 ρ')
        (fun f ρ g ρ' => f.1 = g.1 ∧ S (.form f.2) ρ g.2 ρ') := by
      intro f ρ g ρ' s hf hs
      obtain ⟨e', s', hf', hs'⟩ := hRS _ _ _ _ _ hf.2 hs
      exact ⟨(f.1, e'), s', ⟨rfl, hf'⟩, hs'⟩
    obtain ⟨fields', s', he', hs'⟩ := Threads.carries hfields _ _ _ _ _ he hs
    exact ⟨_, s', .object h he', hs'⟩
  | access h ht =>
    obtain ⟨e', s', ht', hs'⟩ := hRS _ _ _ _ _ ht hs
    exact ⟨_, s', .access h ht', hs'⟩
  | accessCall h ht ha =>
    obtain ⟨e', s₁, ht', hs₁⟩ := hRS _ _ _ _ _ ht hs
    obtain ⟨es', s', ha', hs'⟩ := EmitsEach.carries hRS ha hs₁
    exact ⟨_, s', .accessCall h ht' ha', hs'⟩
  | application h hh ha =>
    obtain ⟨e', s₁, hh', hs₁⟩ := hRS _ _ _ _ _ hh hs
    obtain ⟨es', s', ha', hs'⟩ := EmitsEach.carries hRS ha hs₁
    exact ⟨_, s', .application h hh' ha', hs'⟩
  | unquote hq hi h =>
    obtain ⟨e', s', h', hs'⟩ := hRS _ _ _ _ _ h hs
    exact ⟨_, s', .unquote hq hi h', hs'⟩
  | templateList hp hparts =>
    obtain ⟨parts', s', hparts', hs'⟩ := Threads.carries (EmitsPart.carries hRS) _ _ _ _ _ hparts hs
    exact ⟨_, s', .templateList hp hparts', hs'⟩
  | templateAtom h => exact ⟨_, s, .templateAtom h, hs⟩

end

/-- **Whether a job compiles depends on the bound names alone**, and so do the names bound behind it. -/
theorem compile_sameNames (limit levels : Nat) :
    Carries (Answers.of (compile limit levels)) (Answers.of (compile limit levels)) := by
  induction levels with
  | zero => intro job ρ e ρ' s h; cases h
  | succ levels ih =>
    intro job ρ e ρ' s h hs
    obtain ⟨e', s', h', hs'⟩ := Emits.carries ih _ _ _ _ _ (layer_eq_ok_iff.1 h) hs
    exact ⟨e', s', layer_eq_ok_iff.2 h', hs'⟩

end Codegen

namespace Compiler

open Renaming

/-! ## Drafts -/

section

variable {config : Config} {d d' t : Draft} {f : Form} {forms : List Form}

theorem Draft.addTable_of_free (h : d.names.isTaken tableName = false) :
    ∃ d', d.addTable = .ok d' ∧ SameNames d.names d'.names ∧ d'.program.table = true := by
  have hadd : d.addTable = .ok ⟨{ d.names with taken := d.names.taken.insert tableName },
      { d.program with table := true }⟩ := by
    rw [addTable, reserve?, h]
    rfl
  exact ⟨_, hadd, fun _ => rfl, rfl⟩

theorem Draft.addTable_of_taken (h : d.names.isTaken tableName = true) :
    d.addTable = .error (.plain (.internal (.tableNameTaken tableName))) := by
  rw [addTable, reserve?, h]
  rfl

theorem Draft.isTaken_of_addTable (h : d.addTable = .ok d') : d.names.isTaken tableName = false := by
  rw [Bool.eq_false_iff]
  intro htaken
  rw [addTable_of_taken htaken] at h
  cases h

theorem Draft.sameNames_of_addTable (h : d.addTable = .ok d') : SameNames d.names d'.names := by
  obtain ⟨d₁, hd₁, hnames, -⟩ := addTable_of_free (isTaken_of_addTable h)
  rw [h] at hd₁
  cases hd₁
  exact hnames

/-- A statement is pushed by compiling it behind the table, if it needs the table and that is not there. -/
theorem Draft.push_eq_bind (h : f.checkNesting Form.nestingLimit = .ok ()) :
    d.push config f =
      (if !d.program.table && SymbolTable.needed [f] then d.addTable else .ok d) >>= fun d =>
        Codegen.compile config.maxDepth config.maxDepth (.form f) d.names >>= fun r =>
          .ok ⟨r.2, { d.program with statements := d.program.statements ++ [r.1] }⟩ := by
  rw [push, h]
  cases !d.program.table && SymbolTable.needed [f] <;> rfl

/-- **What is pushed on one draft can be pushed on another with the same names**, if that one does not have to
put the table in front. -/
theorem Draft.push_sameNames (h : d.push config f = .ok d') (hs : SameNames d.names t.names)
    (ht : t.program.table = true ∨ SymbolTable.needed [f] = false) :
    ∃ t' ts, t.push config f = .ok t' ∧ SameNames d'.names t'.names ∧
      t'.program.table = t.program.table ∧ Puts t.names f.declarations.own ts t'.names := by
  obtain ⟨_, hn, -⟩ := bind_eq_ok_iff.1 h
  rw [push_eq_bind hn] at h ⊢
  obtain ⟨d₁, hready, h⟩ := bind_eq_ok_iff.1 h
  obtain ⟨⟨e, ρ⟩, hc, h⟩ := bind_eq_ok_iff.1 h
  cases h
  have hd₁ : SameNames d₁.names t.names := by
    split at hready
    · exact fun n => (Draft.sameNames_of_addTable hready n).symm.trans (hs n)
    · cases hready; exact hs
  have hskip : (!t.program.table && SymbolTable.needed [f]) = false := by
    rcases ht with ht | ht <;> simp [ht]
  obtain ⟨e', s', hc', hs'⟩ := Codegen.compile_sameNames _ _ _ _ _ _ _ hc hd₁
  refine ⟨⟨s', { t.program with statements := t.program.statements ++ [e'] }⟩, e'.declared, ?_, hs', rfl,
    Codegen.compile_puts hc'⟩
  rw [hskip]
  exact bind_eq_ok_iff.2 ⟨t, rfl, bind_eq_ok_iff.2 ⟨_, hc', rfl⟩⟩

/-- The same for statements one after the other. -/
theorem foldlM_push_sameNames (h : forms.foldlM (Draft.push config) d = .ok d')
    (hs : SameNames d.names t.names) (ht : t.program.table = true ∨ SymbolTable.needed forms = false) :
    ∃ t' ts, forms.foldlM (Draft.push config) t = .ok t' ∧ SameNames d'.names t'.names ∧
      t'.program.table = t.program.table ∧ Puts t.names (Form.declarationsEach forms).own ts t'.names := by
  induction forms generalizing d t with
  | nil => cases h; exact ⟨t, [], rfl, hs, rfl, .nil _⟩
  | cons f forms ih =>
    rw [List.foldlM_cons] at h
    obtain ⟨d₁, hpush, h⟩ := bind_eq_ok_iff.1 h
    have hparts : t.program.table = true ∨
        SymbolTable.needed [f] = false ∧ SymbolTable.needed forms = false := by
      refine ht.imp_right ?_
      simp [SymbolTable.needed, SymbolTable.scanAny]
    obtain ⟨t₁, ts, hpush₁, hs₁, htable, hputs⟩ := Draft.push_sameNames hpush hs (hparts.imp_right And.left)
    rw [← htable] at hparts
    obtain ⟨t₂, ts₂, hrest, hs₂, htable₂, hputs₂⟩ := ih h hs₁ (hparts.imp_right And.right)
    refine ⟨t₂, ts ++ ts₂, ?_, hs₂, htable₂.trans htable, hputs.append hputs₂⟩
    rw [List.foldlM_cons]
    exact bind_eq_ok_iff.2 ⟨t₁, hpush₁, hrest⟩

end

/-! ## Programs with imports -/

/-- A form that needs the symbol table stands in the flat program behind a declaration of the table's name, and
nothing before it has put the table in front. -/
def LateTable (config : Config) (library : Library) (forms : List Form) : Prop :=
  config.policy = .auto ∧ SymbolTable.needed forms = false ∧
    ∃ before f after, flat library forms = before ++ f :: after ∧ SymbolTable.needed before = false ∧
      SymbolTable.needed [f] = true ∧ tableName ∈ (Form.declarationsEach before).own

/-- Forms that need the table have a first one that does. -/
theorem exists_first_needed {forms : List Form} (h : SymbolTable.needed forms = true) :
    ∃ before f after, forms = before ++ f :: after ∧ SymbolTable.needed before = false ∧
      SymbolTable.needed [f] = true := by
  induction forms with
  | nil => cases h
  | cons f forms ih =>
    cases hf : SymbolTable.needed [f] with
    | true => exact ⟨[], f, forms, rfl, rfl, hf⟩
    | false =>
      have hscan : SymbolTable.scan .code f = false := by
        simpa [SymbolTable.needed, SymbolTable.scanAny] using hf
      have hrest : SymbolTable.needed forms = true := by
        simpa [SymbolTable.needed, SymbolTable.scanAny, hscan] using h
      obtain ⟨before, g, after, rfl, hbefore, hg⟩ := ih hrest
      refine ⟨f :: before, g, after, rfl, ?_, hg⟩
      simpa [SymbolTable.needed, SymbolTable.scanAny, hscan] using hbefore

section

variable {config : Config} {library : Library} {ρ : Renaming} {forms : List Form}

/-- On a walk where nothing goes wrong, the forms of the flat program are pushed one after the other. -/
theorem compileWithImports_eq_map (h : ∀ event ∈ traceForms library [] forms, event.Succeeds library)
    {d : Draft} (hbegin : Draft.begin config ρ forms = .ok d) :
    (compileWithImports config library ρ forms).1 =
      ((flat library forms).foldlM (Draft.push config) d).map fun d => d.program.render config.indent := by
  rw [(compileWithImports_of_begin hbegin).1, follow_snd, foldlM_perform h]
  rfl

/-- The forms of a program are not too deep if those of its flat program are not. -/
theorem checkNesting_of_flat (h : ∀ event ∈ traceForms library [] forms, event.Succeeds library)
    (hflat : ∀ f ∈ flat library forms, f.checkNesting Form.nestingLimit = .ok ()) :
    ∀ f ∈ forms, f.checkNesting Form.nestingLimit = .ok () := by
  intro f hf
  rcases mem_emitted_or_eq_importForm h hf with hmem | ⟨names, rfl⟩
  · exact hflat f hmem
  · exact checkNesting_importForm names

/-- **Without the table in front, the first form that needs it finds its name free or taken**: taken exactly if
the forms before declare it. -/
theorem foldlM_push_blank {before after : List Form} {f : Form} {d d' : Draft}
    (hpush : (before ++ f :: after).foldlM (Draft.push config) d = .ok d') (hs : SameNames d.names ρ)
    (hfree : ρ.isTaken tableName = false) (hbefore : SymbolTable.needed before = false)
    (hf : SymbolTable.needed [f] = true) :
    (tableName ∉ (Form.declarationsEach before).own → ∃ t',
      (before ++ f :: after).foldlM (Draft.push config) ⟨ρ, ⟨false, []⟩⟩ = .ok t') ∧
    (tableName ∈ (Form.declarationsEach before).own →
      (before ++ f :: after).foldlM (Draft.push config) ⟨ρ, ⟨false, []⟩⟩ =
        .error (.plain (.internal (.tableNameTaken tableName)))) := by
  simp only [List.foldlM_append, List.foldlM_cons] at hpush ⊢
  obtain ⟨d₁, hd₁, hpush⟩ := bind_eq_ok_iff.1 hpush
  obtain ⟨d₂, hd₂, hpush⟩ := bind_eq_ok_iff.1 hpush
  obtain ⟨t₁, ts, ht₁, hs₁, htable, hputs⟩ :=
    foldlM_push_sameNames (t := ⟨ρ, ⟨false, []⟩⟩) hd₁ hs (Or.inr hbefore)
  have htaken := hputs.isTaken_tableName_iff hfree
  obtain ⟨_, hn, -⟩ := bind_eq_ok_iff.1 hd₂
  -- the table is missing at the form, so it has to be put in front there
  have hready : t₁.push config f = t₁.addTable >>= fun t => t.push config f := by
    cases hadd : t₁.addTable with
    | error e => rw [Draft.push_eq_bind hn, htable, hf, hadd]; rfl
    | ok t =>
      obtain ⟨t', ht', -, htt⟩ := Draft.addTable_of_free (Draft.isTaken_of_addTable hadd)
      rw [hadd] at ht'
      cases ht'
      change _ = t.push config f
      rw [Draft.push_eq_bind hn, Draft.push_eq_bind hn, htable, hf, hadd, htt]
      rfl
  rw [ht₁]
  constructor
  · intro hnot
    obtain ⟨t, hadd, hnames, htt⟩ := Draft.addTable_of_free (d := t₁) (by
      rw [← Bool.not_eq_true, htaken]; exact hnot)
    have hst : SameNames d₁.names t.names := fun n => (hs₁ n).trans (hnames n)
    obtain ⟨t₂, _, ht₂, hs₂, htable₂, -⟩ := Draft.push_sameNames hd₂ hst (Or.inl htt)
    obtain ⟨t', _, ht', -⟩ := foldlM_push_sameNames hpush hs₂ (Or.inl (htable₂.trans htt))
    refine ⟨t', bind_eq_ok_iff.2 ⟨t₁, rfl, bind_eq_ok_iff.2 ⟨t₂, ?_, ht'⟩⟩⟩
    rw [hready, hadd]
    exact ht₂
  · intro hmem
    change (t₁.push config f >>= _) = _
    rw [hready, Draft.addTable_of_taken (htaken.2 hmem)]
    rfl

/-- A flat program that compiles where the program itself would put the table in front later. -/
theorem exists_pushes_of_late {code : String} (hc : compile config ρ (flat library forms) = .ok code)
    (hpolicy : config.policy = .auto) (hflat : SymbolTable.needed (flat library forms) = true) :
    ρ.isTaken tableName = false ∧ ∃ d d', SameNames d.names ρ ∧
      (flat library forms).foldlM (Draft.push config) d = .ok d' := by
  obtain ⟨d, d', hbegin, hpush, -⟩ := compile_eq_ok_iff.1 hc
  have hblank := (Draft.begin_eq_ok_iff.1 hbegin).2
  simp only [wantsTable, hpolicy, hflat, Bool.or_true, Draft.blank, if_true] at hblank
  exact ⟨Draft.isTaken_of_addTable hblank, d, d', fun n => (Draft.sameNames_of_addTable hblank n).symm, hpush⟩

/-- A program that does not want the table at once begins without it. -/
theorem begin_of_late (h : ∀ event ∈ traceForms library [] forms, event.Succeeds library) {code : String}
    (hc : compile config ρ (flat library forms) = .ok code) (hpolicy : config.policy = .auto)
    (hforms : SymbolTable.needed forms = false) :
    Draft.begin config ρ forms = .ok ⟨ρ, ⟨false, []⟩⟩ := by
  obtain ⟨d, d', hbegin, -⟩ := compile_eq_ok_iff.1 hc
  rw [Draft.begin_eq_ok_iff]
  refine ⟨checkNesting_of_flat h (Draft.begin_eq_ok_iff.1 hbegin).1, ?_⟩
  simp [wantsTable, hpolicy, hforms, Draft.blank]

/-- **A table that comes too late fails**: its name is bound already. -/
theorem compileWithImports_of_lateTable
    (h : ∀ event ∈ traceForms library [] forms, event.Succeeds library) {code : String}
    (hc : compile config ρ (flat library forms) = .ok code) (hlate : LateTable config library forms) :
    (compileWithImports config library ρ forms).1 =
      .error (.plain (.internal (.tableNameTaken tableName))) := by
  obtain ⟨hpolicy, hforms, before, f, after, hflat, hbefore, hf, hmem⟩ := hlate
  have hneeded : SymbolTable.needed (flat library forms) = true := by
    refine SymbolTable.needed_eq_true_iff.2 ⟨f, ?_, hf⟩
    rw [hflat]
    exact List.mem_append_right _ List.mem_cons_self
  obtain ⟨hfree, d, d', hs, hpush⟩ := exists_pushes_of_late hc hpolicy hneeded
  rw [compileWithImports_eq_map h (begin_of_late h hc hpolicy hforms)]
  rw [hflat] at hpush ⊢
  rw [(foldlM_push_blank hpush hs hfree hbefore hf).2 hmem]
  rfl

/-- **Of the programs whose flat program compiles, exactly those with a late table fail.** The failure says that
the name of the table is bound already. -/
theorem compileWithImports_ok_iff_not_lateTable
    (h : ∀ event ∈ traceForms library [] forms, event.Succeeds library) {code : String}
    (hc : compile config ρ (flat library forms) = .ok code) :
    ((∃ code', (compileWithImports config library ρ forms).1 = .ok code') ↔
        ¬LateTable config library forms) ∧
      (LateTable config library forms → (compileWithImports config library ρ forms).1 =
        .error (.plain (.internal (.tableNameTaken tableName)))) := by
  refine ⟨⟨?_, ?_⟩, compileWithImports_of_lateTable h hc⟩
  · rintro ⟨code', hok⟩ hlate
    rw [compileWithImports_of_lateTable h hc hlate] at hok
    cases hok
  intro hnot
  obtain ⟨d, d', hbegin, hpush, -⟩ := compile_eq_ok_iff.1 hc
  by_cases hwants : wantsTable config forms = wantsTable config (flat library forms)
  · -- both put the table in front at once, or neither does
    have hdeep := Draft.begin_eq_ok_iff.1 hbegin
    have hmain : Draft.begin config ρ forms = .ok d :=
      Draft.begin_eq_ok_iff.2 ⟨checkNesting_of_flat h hdeep.1, hwants ▸ hdeep.2⟩
    rw [compileWithImports_eq_map h hmain, hpush]
    exact ⟨_, rfl⟩
  · -- the flat program does and the program does not
    have hpolicy : config.policy = .auto := by
      cases hp : config.policy with
      | auto => rfl
      | always => simp [wantsTable, hp] at hwants
    simp only [wantsTable, hpolicy, reduceCtorEq, decide_false, Bool.false_or] at hwants
    have hforms : SymbolTable.needed forms = false := by
      rw [Bool.eq_false_iff]
      intro hn
      exact hwants (hn.trans (needed_flat h hn).symm)
    have hneeded : SymbolTable.needed (flat library forms) = true := by
      rw [hforms] at hwants
      simpa using Ne.symm hwants
    obtain ⟨before, f, after, hflat, hbefore, hf⟩ := exists_first_needed hneeded
    obtain ⟨hfree, d₁, d₂, hs, hpush₁⟩ := exists_pushes_of_late hc hpolicy hneeded
    have hnone : tableName ∉ (Form.declarationsEach before).own := fun hmem =>
      hnot ⟨hpolicy, hforms, before, f, after, hflat, hbefore, hf, hmem⟩
    rw [hflat] at hpush₁
    obtain ⟨t', ht'⟩ := (foldlM_push_blank hpush₁ hs hfree hbefore hf).1 hnone
    rw [compileWithImports_eq_map h (begin_of_late h hc hpolicy hforms), hflat, ht']
    exact ⟨_, rfl⟩

end

/-- A module with a quoted symbol. -/
def quotingLibrary : Library := [("a", .ok [.list [.symbol "quote", .symbol "x"]])]

/-- `(var symbol #t)` and an import of a module with a quoted symbol -/
def lateProgram : List Form :=
  [.list [.symbol "var", .symbol "symbol", .literal (.boolean true)], importForm ["a"]]

theorem traceForms_late : traceForms quotingLibrary [] lateProgram =
    [.emit (.list [.symbol "var", .symbol "symbol", .literal (.boolean true)]), .request "a",
      .emit (.list [.symbol "quote", .symbol "x"])] := by
  have hvar := fun {requested forms} => @traceForms_emit quotingLibrary requested
    (.list [.symbol "var", .symbol "symbol", .literal (.boolean true)]) rfl forms
  have hquote := fun {requested forms} => @traceForms_emit quotingLibrary requested
    (.list [.symbol "quote", .symbol "x"]) rfl forms
  have himport := fun {requested forms} => @traceForms_import quotingLibrary requested (importForm ["a"]) ["a"]
    (importNames?_eq_ok_iff.2 ⟨rfl, by decide, by decide⟩) forms
  have hmodule := fun {requested names} (hnew : "a" ∉ requested) =>
    @traceNames_of_ok quotingLibrary requested "a" _ hnew rfl names
  simp [lateProgram, hvar, hquote, himport, hmodule]

theorem succeeds_late : ∀ event ∈ traceForms quotingLibrary [] lateProgram, event.Succeeds quotingLibrary := by
  rw [traceForms_late]
  simp only [List.forall_mem_cons, Event.Succeeds]
  exact ⟨trivial, ⟨_, rfl⟩, trivial, List.forall_mem_nil _⟩

theorem compile_flat_late : ∃ code, compile .default .empty (flat quotingLibrary lateProgram) = .ok code := by
  rw [flat, traceForms_late]
  exact exists_eq_ok_of_isOk (by decide +kernel)

theorem lateTable_late : LateTable .default quotingLibrary lateProgram := by
  refine ⟨rfl, by decide +kernel, [.list [.symbol "var", .symbol "symbol", .literal (.boolean true)]],
    .list [.symbol "quote", .symbol "x"], [], ?_, by decide +kernel, by decide +kernel, by decide +kernel⟩
  rw [flat, traceForms_late]
  rfl

theorem compileWithImports_ok_iff_not_lateTable_late :
    (∃ code, compile .default .empty (flat quotingLibrary lateProgram) = .ok code) ∧
      ((∃ code', (compileWithImports .default quotingLibrary .empty lateProgram).1 = .ok code') ↔
        ¬LateTable .default quotingLibrary lateProgram) := by
  obtain ⟨code, hc⟩ := compile_flat_late
  exact ⟨⟨code, hc⟩, (compileWithImports_ok_iff_not_lateTable succeeds_late hc).1⟩

/-- **A symbol that is found late can break a compilation**: a program does not compile though every module can
be had and its flat program compiles. -/
theorem exists_broken_by_late_symbol : ∃ (config : Config) (library : Library) (ρ : Renaming) (forms : List Form),
    (∀ event ∈ traceForms library [] forms, event.Succeeds library) ∧
      (∃ code, compile config ρ (flat library forms) = .ok code) ∧
      ∀ code, (compileWithImports config library ρ forms).1 ≠ .ok code := by
  obtain ⟨code, hc⟩ := compile_flat_late
  refine ⟨.default, quotingLibrary, .empty, lateProgram, succeeds_late, ⟨code, hc⟩, ?_⟩
  intro code'
  rw [compileWithImports_of_lateTable succeeds_late hc lateTable_late]
  exact fun he => by cases he

end Compiler

end HostLisp
