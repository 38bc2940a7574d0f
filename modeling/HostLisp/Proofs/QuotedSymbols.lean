import HostLisp.Proofs.Fragment
import HostLisp.Proofs.Levels
import HostLisp.Proofs.Subexpressions
import Mathlib.Data.List.Forall2
import Mathlib.Logic.Relation

/-!
# Quoted symbols

A symbol that is quoted becomes a look-up in the symbol table. The scan decides by the places of quotations
whether there is one, before anything is compiled.

* `Job.data`: the data that a job quotes itself.
* `Emits.interned_eq`: **code looks up the symbols of the data that its job quotes**, and what the jobs inside look
  up.
* `quotes_of_mem_inner`, `quotes_of_mem_data`: **the scan misses nothing**, in jobs that compile and in those that
  do not.
* `Job.Finds`, `Emits.finds`: what is found in a job that compiles has a reason, which is a quoted symbol or a
  function or an object that is written like a quotation.
* `compile_interned_eq_nil`, `compile_quotes_cases`: what the answer of the scan means for the code.
-/

namespace HostLisp

open Host SymbolTable

/-! ## Data -/

namespace Form

mutual

/-- The symbols in a form, from left to right. -/
def symbols : Form → List String
  | .literal _ => []
  | .symbol name => [name]
  | .list items => symbolsEach items

/-- The symbols in forms, from left to right. -/
def symbolsEach : List Form → List String
  | [] => []
  | f :: fs => symbols f ++ symbolsEach fs

end

end Form

namespace Codegen

open Expr

mutual

theorem interned_quoted : ∀ f : Form, (quoted f).interned = f.symbols
  | .literal _ => rfl
  | .symbol _ => rfl
  | .list items => by
    rw [quoted, Form.symbols]
    exact (Expr.interned_eq _).trans (internedEach_quotedEach items)

theorem internedEach_quotedEach : ∀ fs : List Form, (quotedEach fs).flatMap interned = Form.symbolsEach fs
  | [] => rfl
  | f :: fs => by
    rw [quotedEach, List.flatMap_cons, Form.symbolsEach, interned_quoted f, internedEach_quotedEach fs]

end

end Codegen

namespace SymbolTable

/-- A list that is not headed by a symbol is scanned item by item. -/
theorem scan_unheaded {items : List Form} (h : ∀ name args, items ≠ .symbol name :: args) (c : Context) :
    scan c (.list items) = scanAny c items := by
  rw [scan]
  exact h

theorem scanAny_of_mem {c : Context} {fs : List Form} {f : Form} (hf : f ∈ fs) (h : scan c f = true) :
    scanAny c fs = true :=
  scanAny_eq_true_iff.2 ⟨f, hf, h⟩

mutual

/-- Quoted data need the table for the symbols in them. -/
theorem scan_quoted_iff : ∀ f : Form, scan .quoted f = true ↔ f.symbols ≠ []
  | .literal _ => by simp [scan, Form.symbols]
  | .symbol _ => by simp [scan, Form.symbols]
  | .list [] => by simp [scan, scanAny, Form.symbols, Form.symbolsEach]
  | .list (.symbol _ :: _) => by simp [scan, Form.symbols, Form.symbolsEach]
  | .list (.literal l :: fs) => by
    rw [scan_unheaded (by simp), Form.symbols]
    exact scanAny_quoted_iff (.literal l :: fs)
  | .list (.list items :: fs) => by
    rw [scan_unheaded (by simp), Form.symbols]
    exact scanAny_quoted_iff (.list items :: fs)

theorem scanAny_quoted_iff : ∀ fs : List Form, scanAny .quoted fs = true ↔ Form.symbolsEach fs ≠ []
  | [] => by simp [scanAny, Form.symbolsEach]
  | f :: fs => by
    rw [scanAny, Form.symbolsEach, Bool.or_eq_true, scan_quoted_iff f, scanAny_quoted_iff fs, ne_eq, ne_eq,
      ne_eq, List.append_eq_nil_iff, not_and_or]

end

mutual

/-- What is found in code is found in data and in templates too. -/
theorem scan_of_code (c : Context) : ∀ f : Form, scan .code f = true → scan c f = true
  | .literal _, h => h
  | .symbol _, h => by simp [scan] at h
  | .list [], h => h
  | .list (.literal l :: fs), h => by
    rw [scan_unheaded (by simp)] at h ⊢
    exact scanAny_of_code c (.literal l :: fs) h
  | .list (.list items :: fs), h => by
    rw [scan_unheaded (by simp)] at h ⊢
    exact scanAny_of_code c (.list items :: fs) h
  | .list (.symbol name :: args), h => by
    cases c with
    | code => exact h
    | quoted => simp [scan]
    | template =>
      rw [scan_headed] at h
      rw [scan_template_headed]
      split
      · rename_i hk
        simpa [hk] using h
      · rename_i hk
        simpa [hk] using h
      · rfl

theorem scanAny_of_code (c : Context) : ∀ fs : List Form, scanAny .code fs = true → scanAny c fs = true
  | [], h => h
  | f :: fs, h => by
    rw [scanAny, Bool.or_eq_true] at h ⊢
    exact h.imp (scan_of_code c f) (scanAny_of_code c fs)

end

end SymbolTable

/-! ## What a job quotes -/

/-- The data that a special form quotes. -/
def Special.data : Special → List Form
  | .quote datum => [datum]
  | _ => []

/-- **The data that a job quotes itself**: the datum of a quotation, or a template without parts. -/
def Job.data : Job → List Form
  | .form f =>
    match f.shape with
    | .special k args =>
      match Special.ofArguments f k args with
      | .ok s => s.data
      | .error _ => []
    | _ => []
  | .template (.list _) => []
  | .template t => [t]

theorem Form.Reads.data_eq {f : Form} {s : Special} (h : f.Reads s) : (Job.form f).data = s.data := by
  obtain ⟨k, args, hs, ha⟩ := h
  simp only [Job.data, hs, ha]

/-! ## The scan misses nothing -/

theorem Form.quotes_of_tailJob {f : Form} (h : f.tailJob.quotes = true) : (Job.form f).quotes = true := by
  unfold tailJob at h
  split at h
  · rename_i init hs
    obtain ⟨name, rfl, hk⟩ := special?_eq_some hs
    rw [Job.quotes, scan_headed, hk]
    exact scanAny_of_mem (by simp) h
  · exact h

theorem Form.quotes_of_itemJob {f : Form} (h : f.itemJob.quotes = true) : (Job.template f).quotes = true := by
  unfold itemJob at h
  split at h
  · rename_i inner hs
    obtain ⟨name, rfl, hk⟩ := special?_eq_some hs
    rw [Job.quotes, scan_template_headed, hk]
    exact scanAny_of_mem (by simp) h
  · exact h

/-- An entry of an object has what its value has, also if the key makes it look like a quotation. -/
theorem scan_entry {key : String} {value : Form} (h : scan .code value = true) :
    scan .code (.list [.symbol key, value]) = true := by
  rw [scan_headed]
  split
  · rename_i heq
    cases heq
    exact scan_of_code .quoted value h
  · rename_i heq
    cases heq
    exact scan_of_code .template value h
  · exact scanAny_of_mem (by simp) h

theorem Form.Reads.quotes_of_mem_inner {f : Form} {s : Special} (hf : f.Reads s) {j : Job} (hj : j ∈ s.inner)
    (h : j.quotes = true) : (Job.form f).quotes = true := by
  obtain ⟨name, k, args, rfl, hk, hp⟩ := hf.parts
  rw [Job.quotes, scan_headed, hk]
  cases hp with
  | @fn p first rest params hparams =>
    have hbody : ∃ g ∈ (Body.ofForms first rest).forms, (Job.form g).quotes = true := by
      rcases List.mem_append.1 hj with hj | hj
      · obtain ⟨g, hg, rfl⟩ := List.mem_map.1 hj
        exact ⟨g, List.mem_append_left _ hg, h⟩
      · rw [List.mem_singleton.1 hj] at h
        exact ⟨_, List.mem_append_right _ (List.mem_singleton_self _), Form.quotes_of_tailJob h⟩
    obtain ⟨g, hg, h⟩ := hbody
    rw [Form.ofForms_forms] at hg
    exact scanAny_of_mem (List.mem_cons_of_mem p hg) h
  | quasiquote =>
    rw [List.mem_singleton.1 hj] at h
    exact h
  | object entries =>
    obtain ⟨e, he, rfl⟩ := List.mem_map.1 hj
    exact scanAny_of_mem (List.mem_map_of_mem he) (scan_entry h)
  | list items =>
    obtain ⟨g, hg, rfl⟩ := List.mem_map.1 hj
    exact scanAny_of_mem hg h
  | var | assignName | assignProperty | conditional | member =>
    simp only [Special.inner, List.mem_cons, List.not_mem_nil, or_false] at hj
    rcases hj with rfl | rfl | rfl <;> exact scanAny_of_mem (by simp) h
  | quote | unquote | unquoteSplicing | importModules | defineSyntax | syntaxRules => cases hj

/-- An application is scanned part by part. -/
theorem Form.quotes_application {f head : Form} {args : List Form} (hf : f.shape = .application head args) :
    (Job.form f).quotes = scanAny .code (head :: args) := by
  obtain ⟨rfl, hhead⟩ := shape_eq_application hf
  cases head with
  | symbol name =>
    rw [Job.quotes, scan_headed, (hhead name rfl).1]
    simp [scanAny, scan]
  | literal | list => rw [Job.quotes, scan_unheaded (by simp)]

theorem Form.quotes_access {f : Form} {key : String} {args : List Form} (hf : f.shape = .access key args) :
    (Job.form f).quotes = scanAny .code args := by
  obtain ⟨name, rfl, hk, -⟩ := shape_eq_access hf
  rw [Job.quotes, scan_headed, hk]

/-- A template list is scanned item by item. -/
theorem Form.PlainTemplate.quotes_eq {items : List Form} (hs : (Form.list items).PlainTemplate) :
    (Job.template (.list items)).quotes = scanAny .template items := by
  by_cases hheaded : ∃ name args, items = .symbol name :: args
  · obtain ⟨name, args, rfl⟩ := hheaded
    rw [Job.quotes, scan_template_headed]
    split
    · rename_i hk
      exact absurd (by simp [special?, hk]) (hs args).1
    · rename_i hk
      exact absurd (by simp [special?, hk]) (hs args).2
    -- the head is quoted itself
    · simp [scanAny, scan]
  · rw [Job.quotes, scan_unheaded fun name args heq => hheaded ⟨name, args, heq⟩]

/-- An unquoted part of a template is scanned as code. -/
theorem Form.quotes_unquote {t : Form} {args : List Form} (hs : t.special? = some (.unquote, args)) :
    (Job.template t).quotes = scanAny .code args := by
  obtain ⟨name, rfl, hk⟩ := special?_eq_some hs
  rw [Job.quotes, scan_template_headed, hk]

/-- **What a job inside quotes is found**, whether or not anything compiles. -/
theorem Job.quotes_of_mem_inner {job j : Job} (hj : j ∈ job.inner) (h : j.quotes = true) : job.quotes = true := by
  unfold Job.inner at hj
  split at hj
  · rename_i f
    split at hj
    · rename_i k args hshape
      split at hj
      · rename_i s hs
        exact Form.Reads.quotes_of_mem_inner ⟨k, args, hshape, hs⟩ hj h
      · cases hj
    · rename_i key args hshape
      obtain ⟨g, hg, rfl⟩ := List.mem_map.1 hj
      rw [Form.quotes_access hshape]
      exact scanAny_of_mem hg h
    · rename_i head args hshape
      obtain ⟨g, hg, rfl⟩ := List.mem_map.1 hj
      rw [Form.quotes_application hshape]
      exact scanAny_of_mem hg h
    · cases hj
  · rename_i t
    split at hj
    · rename_i args hs
      obtain ⟨g, hg, rfl⟩ := List.mem_map.1 hj
      rw [Form.quotes_unquote hs]
      exact scanAny_of_mem hg h
    · cases hj
    · rename_i items hunquote hsplice
      obtain ⟨g, hg, rfl⟩ := List.mem_map.1 hj
      rw [Form.PlainTemplate.quotes_eq fun args => ⟨hunquote args, hsplice args⟩]
      exact scanAny_of_mem hg (Form.quotes_of_itemJob h)
    · cases hj

/-- **What a job itself quotes is found.** -/
theorem Job.quotes_of_mem_data {job : Job} {datum : Form} (hd : datum ∈ job.data) (h : datum.symbols ≠ []) :
    job.quotes = true := by
  unfold Job.data at hd
  split at hd
  · rename_i f
    split at hd
    · rename_i k args hshape
      split at hd
      · rename_i s hs
        obtain ⟨name, k, args, rfl, hk, hp⟩ := Form.Reads.parts ⟨k, args, hshape, hs⟩
        cases hp with
        | quote =>
          rw [List.mem_singleton.1 hd] at h
          rw [Job.quotes, scan_headed, hk]
          exact (scan_quoted_iff _).2 h
        | _ => cases hd
      · cases hd
    · cases hd
  · cases hd
  · rename_i t hlist
    rw [List.mem_singleton.1 hd] at h
    cases t with
    | literal l => exact absurd rfl h
    | symbol name => simp [Job.quotes, scan]
    | list items => exact absurd rfl (hlist items)

/-- The jobs inside a job without quoted symbols have none. -/
theorem Job.quotes_inner_eq_false {job : Job} (h : job.quotes = false) : ∀ j ∈ job.inner, j.quotes = false := by
  intro j hj
  rw [Bool.eq_false_iff] at h ⊢
  exact fun hquotes => h (quotes_of_mem_inner hj hquotes)

theorem Job.symbols_data_eq_nil {job : Job} (h : job.quotes = false) : ∀ datum ∈ job.data, datum.symbols = [] := by
  intro datum hd
  by_contra hne
  rw [quotes_of_mem_data hd hne] at h
  cases h

/-! ## Code and the symbols in it -/

namespace Codegen

open Expr Renaming

variable {R : Answers} {ρ ρ' : Renaming}

section

variable {α β : Type} {P : α → β → Prop} {as : List α} {bs : List β}

theorem forall_mem_of_forall₂ {Q : β → Prop} (h : List.Forall₂ P as bs) (hQ : ∀ a ∈ as, ∀ b, P a b → Q b) :
    ∀ b ∈ bs, Q b := by
  induction h with
  | nil => exact List.forall_mem_nil _
  | cons hP _ ih =>
    obtain ⟨ha, has⟩ := List.forall_mem_cons.1 hQ
    exact List.forall_mem_cons.2 ⟨ha _ hP, ih has⟩

theorem exists_mem_of_forall₂ (h : List.Forall₂ P as bs) {a : α} (ha : a ∈ as) : ∃ b ∈ bs, P a b := by
  induction h with
  | nil => cases ha
  | @cons a' b _ _ hP _ ih =>
    rcases List.mem_cons.1 ha with rfl | ha
    · exact ⟨b, List.mem_cons_self, hP⟩
    · obtain ⟨b, hb, hP⟩ := ih ha
      exact ⟨b, List.mem_cons_of_mem _ hb, hP⟩

end

/-- The jobs that code comes from, in whatever renamings. -/
def Answers.Gives (R : Answers) (job : Job) (e : Expr) : Prop := ∃ ρ ρ', R job ρ e ρ'

theorem Threads.forall₂ {α β : Type} {P : α → Renaming → β → Renaming → Prop} {as : List α} {bs : List β}
    (h : Threads P as ρ bs ρ') : List.Forall₂ (fun a b => ∃ s s', P a s b s') as bs := by
  induction h with
  | nil => exact .nil
  | cons h _ ih => exact .cons ⟨_, _, h⟩ ih

theorem EmitsEach.gives {fs : List Form} {es : List Expr} (h : EmitsEach R fs ρ es ρ') :
    List.Forall₂ R.Gives (fs.map .form) es :=
  List.forall₂_map_left_iff.2 h.forall₂

theorem EmitsPart.gives {item : Form} {p : Part} (h : EmitsPart R item ρ p ρ') : R.Gives item.itemJob p.expr := by
  cases h with
  | splice hs hq h => rw [Form.itemJob_of_splice hs hq]; exact ⟨_, _, h⟩
  | item hs h => rw [Form.itemJob_of_ne hs]; exact ⟨_, _, h⟩

/-- The end of a function body looks up what its value does. -/
theorem EmitsTail.gives {tail : Form} {es : List Expr} {e : Expr} (h : EmitsTail R tail ρ es e ρ') :
    ∃ value, R.Gives tail.tailJob value ∧ es.flatMap interned ++ e.interned = value.interned := by
  cases h with
  | declaration hs hd hp h =>
    rw [Form.tailJob_of_var hs hd]
    refine ⟨_, ⟨_, _, h⟩, ?_⟩
    simp [Expr.interned_eq (.declare _ _), Expr.interned_eq (.identifier _), ownSymbols, components]
  | other hs h =>
    rw [Form.tailJob_of_ne hs]
    exact ⟨e, ⟨_, _, h⟩, rfl⟩

/-- **Code looks up the symbols of the data that its job quotes**, and what the jobs inside look up. -/
theorem Emits.interned_eq {job : Job} {e : Expr} (h : Emits R job ρ e ρ') :
    ∃ es, List.Forall₂ R.Gives job.inner es ∧
      e.interned = job.data.flatMap Form.symbols ++ es.flatMap Expr.interned := by
  cases h with
  | literal h => exact ⟨[], by simp [Job.inner, h], by simp [Job.data, h, Expr.interned_eq, ownSymbols, components]⟩
  | name h ht =>
    exact ⟨[], by simp [Job.inner, h], by simp [Job.data, h, Expr.interned_eq, ownSymbols, components]⟩
  | var h hp hi =>
    rw [h.inner_eq, h.data_eq]
    exact ⟨[_], .cons ⟨_, _, hi⟩ .nil, by rw [Expr.interned_eq]; rfl⟩
  | fn h hp hl ht =>
    obtain ⟨value, hvalue, hinterned⟩ := ht.gives
    rw [h.inner_eq, h.data_eq]
    refine ⟨_, List.rel_append hl.gives (.cons hvalue .nil), ?_⟩
    rw [Expr.interned_eq]
    simp [components, ownSymbols, Special.data, ← hinterned]
  | assignName h ht hv =>
    rw [h.inner_eq, h.data_eq]
    refine ⟨[_], .cons ⟨_, _, hv⟩ .nil, ?_⟩
    rw [Expr.interned_eq]
    simp [components, ownSymbols, Special.data, Expr.interned_eq (.identifier _)]
  | assignProperty h ha hv =>
    rw [h.inner_eq, h.data_eq]
    exact ⟨[_, _], .cons ⟨_, _, ha⟩ (.cons ⟨_, _, hv⟩ .nil), by rw [Expr.interned_eq]; rfl⟩
  | conditional h ht hc ha =>
    rw [h.inner_eq, h.data_eq]
    exact ⟨[_, _, _], .cons ⟨_, _, ht⟩ (.cons ⟨_, _, hc⟩ (.cons ⟨_, _, ha⟩ .nil)), by rw [Expr.interned_eq]; rfl⟩
  | quote h =>
    rw [h.inner_eq, h.data_eq]
    refine ⟨[], .nil, ?_⟩
    rw [interned_quoted]
    simp [Special.data]
  | quasiquote h ht =>
    rw [h.inner_eq, h.data_eq]
    exact ⟨[_], .cons ⟨_, _, ht⟩ .nil, by simp [Special.data]⟩
  | list h hi =>
    rw [h.inner_eq, h.data_eq]
    exact ⟨_, hi.gives, by rw [Expr.interned_eq]; rfl⟩
  | member h ht hk =>
    rw [h.inner_eq, h.data_eq]
    exact ⟨[_, _], .cons ⟨_, _, ht⟩ (.cons ⟨_, _, hk⟩ .nil), by rw [Expr.interned_eq]; rfl⟩
  | @object f entries fields _ _ h he =>
    rw [h.inner_eq, h.data_eq]
    refine ⟨fields.map Prod.snd, ?_, by rw [Expr.interned_eq]; rfl⟩
    rw [Special.inner, List.forall₂_map_left_iff, List.forall₂_map_right_iff]
    refine he.forall₂.imp ?_
    rintro _ _ ⟨s, s', -, hfield⟩
    exact ⟨s, s', hfield⟩
  | access h ht =>
    refine ⟨[_], by simpa [Job.inner, h] using ⟨_, _, ht⟩, ?_⟩
    rw [Expr.interned_eq]
    simp [Job.data, h, components, ownSymbols]
  | @accessCall _ _ _ _ _ e es _ _ _ h ht ha =>
    refine ⟨e :: es, ?_, ?_⟩
    · simp only [Job.inner, h]
      exact .cons ⟨_, _, ht⟩ ha.gives
    · rw [Expr.interned_eq]
      simp [Job.data, h, components, ownSymbols, Expr.interned_eq (.member _ _)]
  | @application _ _ _ callee es _ _ _ h hh ha =>
    refine ⟨callee :: es, ?_, ?_⟩
    · simp only [Job.inner, h]
      exact .cons ⟨_, _, hh⟩ ha.gives
    · rw [Expr.interned_eq]
      simp [Job.data, h, components, ownSymbols]
  | unquote hs hq hi =>
    refine ⟨[e], ?_, ?_⟩
    · simp only [Job.inner, hs, Special.quoted_eq_ok hq]
      exact .cons ⟨_, _, hi⟩ .nil
    · obtain ⟨name, rfl, -⟩ := Form.special?_eq_some hs
      simp [Job.data]
  | @templateList items parts _ _ hs hp =>
    rw [hs.inner_eq]
    refine ⟨parts.map Part.expr, ?_, ?_⟩
    · rw [List.forall₂_map_left_iff, List.forall₂_map_right_iff]
      refine hp.forall₂.imp ?_
      rintro _ _ ⟨_, _, hpart⟩
      exact hpart.gives
    · rw [Expr.interned, collect_joined shows_ownSymbols, List.flatMap_map]
      rfl
  | @templateAtom t _ h =>
    refine ⟨[], ?_, ?_⟩
    · cases t with
      | list items => exact absurd rfl (h items)
      | _ => exact .nil
    · rw [interned_quoted]
      cases t with
      | list items => exact absurd rfl (h items)
      | _ => simp [Job.data]

/-- **Without quoted symbols nothing is looked up.** -/
theorem compile_interned_eq_nil {limit levels : Nat} {job : Job} {e : Expr} (hq : job.quotes = false)
    (h : compile limit levels job ρ = .ok (e, ρ')) : e.interned = [] := by
  induction levels generalizing job ρ e ρ' with
  | zero => cases h
  | succ levels ih =>
    obtain ⟨es, hes, hinterned⟩ := (layer_eq_ok_iff.1 h).interned_eq
    have hdata : job.data.flatMap Form.symbols = [] :=
      List.flatMap_eq_nil_iff.2 (Job.symbols_data_eq_nil hq)
    have hnone : es.flatMap Expr.interned = [] := by
      refine List.flatMap_eq_nil_iff.2 (forall_mem_of_forall₂ hes ?_)
      rintro j hj e' ⟨s, s', hgives⟩
      exact ih (Job.quotes_inner_eq_false hq j hj) hgives
    rw [hinterned, hdata, hnone, List.append_nil]

end Codegen

/-! ## What looks like a quotation -/

/-- Whether a name heads quotations. -/
def isQuotation (name : String) : Bool :=
  match Keyword.ofName? name with
  | some .quote | some .quasiquote => true
  | _ => false

/-- Whether the parameter list of a function, or an entry of an object, is written like a quotation. -/
def Special.looksQuoted : Special → Bool
  | .fn (.fixed [name, _]) _ => isQuotation name
  | .object entries => entries.any fun e => isQuotation e.1
  | _ => false

/-- **A job contains another one**, at any depth. -/
def Job.Contains : Job → Job → Prop := Relation.ReflTransGen fun job j => j ∈ job.inner

/-- **Why the scan finds something in a job**: it quotes a symbol, something is found in a job inside, or it looks
like a quotation. -/
inductive Job.Finds : Job → Prop
  | datum {job : Job} {datum : Form} (hd : datum ∈ job.data) (h : datum.symbols ≠ []) : Finds job
  | inside {job j : Job} (hj : j ∈ job.inner) (h : j.quotes = true) : Finds job
  | looks {f : Form} {s : Special} (hf : f.Reads s) (h : s.looksQuoted = true) : Finds (.form f)

/-- Something is found in one of the forms that are the jobs inside. -/
theorem Job.Finds.of_forms {job : Job} {fs : List Form} (hinner : job.inner = fs.map .form)
    (h : scanAny .code fs = true) : job.Finds := by
  obtain ⟨f, hf, hquotes⟩ := scanAny_eq_true_iff.1 h
  refine .inside (j := .form f) ?_ hquotes
  rw [hinner]
  exact List.mem_map_of_mem hf

/-- A list headed by a symbol is scanned argument by argument, unless it is a quotation of one form. -/
theorem SymbolTable.scan_headed_of {name : String} {args : List Form}
    (h : isQuotation name = false ∨ args.length ≠ 1) :
    scan .code (.list (.symbol name :: args)) = scanAny .code args := by
  rw [scan_headed]
  split
  · rename_i hk
    simp [isQuotation, hk] at h
  · rename_i hk
    simp [isQuotation, hk] at h
  · rfl

theorem SymbolTable.scanAny_symbols (names : List String) : scanAny .code (names.map .symbol) = false := by
  rw [Bool.eq_false_iff, Ne, scanAny_eq_true_iff]
  rintro ⟨f, hf, hscan⟩
  obtain ⟨name, -, rfl⟩ := List.mem_map.1 hf
  simp [scan] at hscan

theorem Special.mapM_boundName_eq_ok {fault : SyntaxFault} {fs : List Form} {names : List String}
    (h : fs.mapM (boundName fault) = .ok names) : fs = names.map .symbol := by
  induction fs generalizing names with
  | nil => cases h; rfl
  | cons f fs ih =>
    rw [List.mapM_cons] at h
    obtain ⟨name, hname, h⟩ := bind_eq_ok_iff.1 h
    obtain ⟨names, hnames, h⟩ := bind_eq_ok_iff.1 h
    cases h
    rw [(boundName_eq_ok hname).1, ih hnames, List.map_cons]

/-- The scan finds something in parameters only if they look like a quotation. -/
theorem Special.looksQuoted_fn {p : Form} {params : Parameters} (hp : parameters p = .ok params)
    (h : scan .code p = true) (body : Body) : (Special.fn params body).looksQuoted = true := by
  cases p with
  | literal l => cases hp
  | symbol name => simp [scan] at h
  | list fs =>
    obtain ⟨names, hnames, hp⟩ := bind_eq_ok_iff.1 hp
    cases hp
    rw [mapM_boundName_eq_ok hnames] at h
    cases names with
    | nil => cases h
    | cons name names =>
      by_cases hplain : isQuotation name = false ∨ (names.map Form.symbol).length ≠ 1
      · rw [List.map_cons, scan_headed_of hplain, scanAny_symbols] at h
        cases h
      · rw [not_or, Bool.not_eq_false, not_not, List.length_map, List.length_eq_one_iff] at hplain
        obtain ⟨hname, n, rfl⟩ := hplain
        exact hname

/-- The special forms that compile. -/
def Special.isCode : Special → Bool
  | .unquote _ | .unquoteSplicing _ | .importModules _ | .defineSyntax | .syntaxRules => false
  | _ => true

/-- What is found in a special form has a reason, if that is so at the end of a function. -/
theorem Form.Reads.finds {f : Form} {s : Special} (hf : f.Reads s) (hs : s.isCode = true)
    (htail : ∀ params body, s = .fn params body → (Job.form body.last).quotes = true →
      body.last.tailJob.quotes = true)
    (hq : (Job.form f).quotes = true) : (Job.form f).Finds := by
  have inside (h : ∃ j ∈ s.inner, j.quotes = true) : (Job.form f).Finds := by
    rw [← hf.inner_eq] at h
    obtain ⟨j, hj, h⟩ := h
    exact .inside hj h
  obtain ⟨name, k, args, rfl, hk, hp⟩ := hf.parts
  rw [Job.quotes, scan_headed, hk] at hq
  cases hp with
  | quote =>
    refine .datum ?_ ((scan_quoted_iff _).1 hq)
    rw [hf.data_eq]
    exact List.mem_singleton_self _
  | quasiquote => exact inside ⟨_, List.mem_singleton_self _, hq⟩
  | @fn p first rest params hparams =>
    obtain ⟨g, hg, hquotes⟩ := scanAny_eq_true_iff.1 hq
    rcases List.mem_cons.1 hg with rfl | hg
    · exact .looks hf (Special.looksQuoted_fn hparams hquotes _)
    · rw [← Form.ofForms_forms] at hg
      rcases List.mem_append.1 hg with hg | hg
      · exact inside ⟨.form g, List.mem_append_left _ (List.mem_map_of_mem hg), hquotes⟩
      · rw [List.mem_singleton.1 hg] at hquotes
        exact inside ⟨_, List.mem_append_right _ (List.mem_singleton_self _), htail _ _ rfl hquotes⟩
  | object entries =>
    obtain ⟨g, hg, hquotes⟩ := scanAny_eq_true_iff.1 hq
    obtain ⟨e, he, rfl⟩ := List.mem_map.1 hg
    cases hkey : isQuotation e.1 with
    | true => exact .looks hf (List.any_eq_true.2 ⟨e, he, hkey⟩)
    | false =>
      rw [scan_headed_of (.inl hkey)] at hquotes
      refine inside ⟨.form e.2, List.mem_map_of_mem he, ?_⟩
      simpa [scanAny, Job.quotes] using hquotes
  | list items =>
    obtain ⟨g, hg, hquotes⟩ := scanAny_eq_true_iff.1 hq
    exact inside ⟨.form g, List.mem_map_of_mem hg, hquotes⟩
  | var | assignName | assignProperty | conditional | member =>
    -- nothing is found in a name, so it is in one of the other arguments
    exact inside (by simpa [Special.inner, Job.quotes, scanAny, scan] using hq)
  | unquote | unquoteSplicing | importModules | defineSyntax | syntaxRules => cases hs

namespace Codegen

variable {R : Answers} {ρ ρ' : Renaming}

theorem EmitsTail.quotes_tailJob {tail : Form} {es : List Expr} {e : Expr} (h : EmitsTail R tail ρ es e ρ')
    (hq : (Job.form tail).quotes = true) : tail.tailJob.quotes = true := by
  cases h with
  | declaration hs hd hp h =>
    rw [Form.tailJob_of_var hs hd]
    obtain ⟨name, rfl, hk⟩ := Form.special?_eq_some hs
    rw [Job.quotes, scan_headed, hk, (Special.declaration_eq_ok hd).1] at hq
    simpa [scanAny, scan, Job.quotes] using hq
  | other hs h =>
    rw [Form.tailJob_of_ne hs]
    exact hq

theorem EmitsPart.quotes_itemJob {item : Form} {p : Part} (h : EmitsPart R item ρ p ρ')
    (hq : (Job.template item).quotes = true) : item.itemJob.quotes = true := by
  cases h with
  | splice hs hquoted h =>
    rw [Form.itemJob_of_splice hs hquoted]
    obtain ⟨name, rfl, hk⟩ := Form.special?_eq_some hs
    rw [Job.quotes, scan_template_headed, hk, Special.quoted_eq_ok hquoted] at hq
    simpa [scanAny, Job.quotes] using hq
  | item hs h =>
    rw [Form.itemJob_of_ne hs]
    exact hq

/-- **What is found in a job that compiles has a reason.** -/
theorem Emits.finds {job : Job} {e : Expr} (h : Emits R job ρ e ρ') (hq : job.quotes = true) : job.Finds := by
  cases h with
  | literal h =>
    rw [Form.shape_eq_literal h] at hq
    cases hq
  | name h ht =>
    rw [Form.shape_eq_name h] at hq
    cases hq
  | fn h hp hl ht =>
    refine h.finds rfl (fun _ _ heq => ?_) hq
    cases heq
    exact ht.quotes_tailJob
  | var h | assignName h | assignProperty h | conditional h | quote h | quasiquote h | list h | member h
  | object h => exact h.finds rfl (by rintro _ _ ⟨⟩) hq
  | access h | accessCall h =>
    rw [Form.quotes_access h] at hq
    exact .of_forms (by simp only [Job.inner, h]) hq
  | application h hh ha =>
    rw [Form.quotes_application h] at hq
    exact .of_forms (by simp only [Job.inner, h]) hq
  | unquote hs hquoted hi =>
    rw [Form.quotes_unquote hs] at hq
    exact .of_forms (by simp only [Job.inner, hs]) hq
  | templateList hs hp =>
    rw [hs.quotes_eq] at hq
    obtain ⟨g, hg, hquotes⟩ := scanAny_eq_true_iff.1 hq
    obtain ⟨part, -, s, s', hpart⟩ := exists_mem_of_forall₂ hp.forall₂ hg
    refine .inside ?_ (hpart.quotes_itemJob hquotes)
    rw [hs.inner_eq]
    exact List.mem_map_of_mem hg
  | @templateAtom t _ h =>
    cases t with
    | literal l => cases hq
    | symbol name => exact .datum (List.mem_singleton_self _) (by simp [Form.symbols])
    | list items => exact absurd rfl (h items)

/-- **Where the scan finds something, code looks up a symbol**, unless a function or an object looks like a
quotation. -/
theorem compile_quotes_cases {limit levels : Nat} {job : Job} {e : Expr}
    (h : compile limit levels job ρ = .ok (e, ρ')) (hq : job.quotes = true) :
    e.interned ≠ [] ∨ ∃ f s, job.Contains (.form f) ∧ f.Reads s ∧ s.looksQuoted = true := by
  induction levels generalizing job ρ e ρ' with
  | zero => cases h
  | succ levels ih =>
    have hemits := layer_eq_ok_iff.1 h
    obtain ⟨es, hes, hinterned⟩ := hemits.interned_eq
    cases hemits.finds hq with
    | @datum _ datum hd hne =>
      left
      rw [hinterned, ne_eq, List.append_eq_nil_iff, List.flatMap_eq_nil_iff]
      exact fun hnil => hne (hnil.1 datum hd)
    | inside hj hquotes =>
      obtain ⟨e', he', s, s', hgives⟩ := exists_mem_of_forall₂ hes hj
      rcases ih hgives hquotes with hne | ⟨f, special, hcontains, hf, hlooks⟩
      · left
        rw [hinterned, ne_eq, List.append_eq_nil_iff, List.flatMap_eq_nil_iff (l := es)]
        exact fun hnil => hne (hnil.2 e' he')
      · exact .inr ⟨f, special, Relation.ReflTransGen.head hj hcontains, hf, hlooks⟩
    | @looks f s hf hlooks => exact .inr ⟨f, s, Relation.ReflTransGen.refl, hf, hlooks⟩

end Codegen

end HostLisp
