import HostLisp.Compiler.Codegen
import HostLisp.Proofs.Parts

/-!
# The rules of code generation

One level of compiling as a relation. Each rule says which jobs are compiled, in which renaming, and what
their expressions become; `Emits R` leaves the compiling of those jobs to a relation `R`. Proofs about
code generation go by these rules and an induction on the levels, and never open the functions.

* `Threads`: items handled from left to right, each in the renaming behind the one before.
* `Emits`: the rules, one for each kind of form and of template.
* `layer_eq_ok_iff`: **a level succeeds exactly by the rules.**
* `Emits.mono`: a rule holds on when more jobs compile.
-/

namespace HostLisp.Codegen

open Host

/-- What jobs compile to, and the renamings behind them. -/
abbrev Answers := Job → Renaming → Expr → Renaming → Prop

/-- The jobs that an emitter compiles. -/
def Answers.of (below : Emitter) : Answers := fun job ρ e ρ' => below job ρ = .ok (e, ρ')

/-- Items handled from left to right, each in the renaming behind the one before. -/
inductive Threads {α β : Type} (R : α → Renaming → β → Renaming → Prop) :
    List α → Renaming → List β → Renaming → Prop
  | nil (ρ : Renaming) : Threads R [] ρ [] ρ
  | cons {a : α} {as : List α} {b : β} {bs : List β} {ρ ρ₁ ρ₂ : Renaming} (h : R a ρ b ρ₁)
      (hs : Threads R as ρ₁ bs ρ₂) : Threads R (a :: as) ρ (b :: bs) ρ₂

section

variable (R : Answers)

/-- Forms as code from left to right. -/
abbrev EmitsEach : List Form → Renaming → List Expr → Renaming → Prop :=
  Threads fun f => R (.form f)

/-- The fields of an object from left to right. -/
abbrev EmitsFields : List (String × Form) → Renaming → List (String × Expr) → Renaming → Prop :=
  Threads fun f ρ g ρ' => f.1 = g.1 ∧ R (.form f.2) ρ g.2 ρ'

/-- A part of a template list. -/
inductive EmitsPart : Form → Renaming → Part → Renaming → Prop
  | splice {item inner : Form} {args : List Form} {e : Expr} {ρ ρ₁ : Renaming}
      (hs : item.special? = some (.unquoteSplicing, args))
      (hq : Special.quoted .unquoteSplicing item args = .ok inner) (h : R (.form inner) ρ e ρ₁) :
      EmitsPart item ρ (.splice e) ρ₁
  | item {item : Form} {e : Expr} {ρ ρ₁ : Renaming}
      (hs : ∀ args, item.special? ≠ some (.unquoteSplicing, args)) (h : R (.template item) ρ e ρ₁) :
      EmitsPart item ρ (.item e) ρ₁

/-- The end of a function body, with the renaming behind it. -/
inductive EmitsTail : Form → Renaming → List Expr → Expr → Renaming → Prop
  | declaration {tail init : Form} {args : List Form} {name target : String} {e : Expr}
      {ρ ρ₁ ρ₂ : Renaming} (hs : tail.special? = some (.var, args))
      (hd : Special.declaration tail args = .ok (name, init))
      (hp : ρ.put name (.symbol name) = .ok (target, ρ₁)) (h : R (.form init) ρ₁ e ρ₂) :
      EmitsTail tail ρ [.declare target e] (.identifier target) ρ₂
  | other {tail : Form} {e : Expr} {ρ ρ₁ : Renaming}
      (hs : ∀ args, tail.special? ≠ some (.var, args)) (h : R (.form tail) ρ e ρ₁) :
      EmitsTail tail ρ [] e ρ₁

/-- **The rules of code generation.** -/
inductive Emits : Answers
  | literal {f : Form} {l : Literal} {ρ : Renaming} (h : f.shape = .literal l) :
      Emits (.form f) ρ (.literal l) ρ
  | name {f : Form} {n target : String} {ρ : Renaming} (h : f.shape = .name n)
      (ht : ρ.target? n = some target) : Emits (.form f) ρ (.identifier target) ρ
  | var {f init : Form} {n target : String} {e : Expr} {ρ ρ₁ ρ₂ : Renaming} (h : f.Reads (.var n init))
      (hp : ρ.put n (.symbol n) = .ok (target, ρ₁)) (hi : R (.form init) ρ₁ e ρ₂) :
      Emits (.form f) ρ (.declare target e) ρ₂
  | fn {f : Form} {params targets : Parameters} {body : Body} {es last : List Expr} {result : Expr}
      {ρ ρ₁ ρ₂ ρ₃ : Renaming} (h : f.Reads (.fn params body))
      (hp : putParameters params ρ = .ok (targets, ρ₁)) (hl : EmitsEach R body.leading ρ₁ es ρ₂)
      (ht : EmitsTail R body.last ρ₂ last result ρ₃) :
      Emits (.form f) ρ (.function targets (es ++ last) result) ρ
  | assignName {f value : Form} {n target : String} {e : Expr} {ρ ρ₁ : Renaming}
      (h : f.Reads (.assign (.name n) value)) (ht : ρ.target? n = some target)
      (hv : R (.form value) ρ e ρ₁) : Emits (.form f) ρ (.assign (.identifier target) e) ρ₁
  | assignProperty {f access value : Form} {place e : Expr} {ρ ρ₁ ρ₂ : Renaming}
      (h : f.Reads (.assign (.property access) value)) (ha : R (.form access) ρ place ρ₁)
      (hv : R (.form value) ρ₁ e ρ₂) : Emits (.form f) ρ (.assign place e) ρ₂
  | conditional {f t c a : Form} {et ec ea : Expr} {ρ ρ₁ ρ₂ ρ₃ : Renaming}
      (h : f.Reads (.conditional t c a)) (ht : R (.form t) ρ et ρ₁) (hc : R (.form c) ρ₁ ec ρ₂)
      (ha : R (.form a) ρ₂ ea ρ₃) : Emits (.form f) ρ (.conditional et ec ea) ρ₃
  | quote {f datum : Form} {ρ : Renaming} (h : f.Reads (.quote datum)) :
      Emits (.form f) ρ (quoted datum) ρ
  | quasiquote {f t : Form} {e : Expr} {ρ ρ₁ : Renaming} (h : f.Reads (.quasiquote t))
      (ht : R (.template t) ρ e ρ₁) : Emits (.form f) ρ e ρ₁
  | list {f : Form} {items : List Form} {es : List Expr} {ρ ρ₁ : Renaming} (h : f.Reads (.list items))
      (hi : EmitsEach R items ρ es ρ₁) : Emits (.form f) ρ (.array es) ρ₁
  | member {f target key : Form} {et ek : Expr} {ρ ρ₁ ρ₂ : Renaming} (h : f.Reads (.member target key))
      (ht : R (.form target) ρ et ρ₁) (hk : R (.form key) ρ₁ ek ρ₂) :
      Emits (.form f) ρ (.index et ek) ρ₂
  | object {f : Form} {entries : List (String × Form)} {fields : List (String × Expr)} {ρ ρ₁ : Renaming}
      (h : f.Reads (.object entries)) (he : EmitsFields R entries ρ fields ρ₁) :
      Emits (.form f) ρ (.object fields) ρ₁
  | access {f target : Form} {key : String} {e : Expr} {ρ ρ₁ : Renaming}
      (h : f.shape = .access key [target]) (ht : R (.form target) ρ e ρ₁) :
      Emits (.form f) ρ (.member e key) ρ₁
  | accessCall {f target arg : Form} {args : List Form} {key : String} {e : Expr} {es : List Expr}
      {ρ ρ₁ ρ₂ : Renaming} (h : f.shape = .access key (target :: arg :: args))
      (ht : R (.form target) ρ e ρ₁) (ha : EmitsEach R (arg :: args) ρ₁ es ρ₂) :
      Emits (.form f) ρ (.call (.member e key) es) ρ₂
  | application {f head : Form} {args : List Form} {callee : Expr} {es : List Expr} {ρ ρ₁ ρ₂ : Renaming}
      (h : f.shape = .application head args) (hh : R (.form head) ρ callee ρ₁)
      (ha : EmitsEach R args ρ₁ es ρ₂) : Emits (.form f) ρ (.call callee es) ρ₂
  | unquote {t inner : Form} {args : List Form} {e : Expr} {ρ ρ₁ : Renaming}
      (hs : t.special? = some (.unquote, args)) (hq : Special.quoted .unquote t args = .ok inner)
      (hi : R (.form inner) ρ e ρ₁) : Emits (.template t) ρ e ρ₁
  | templateList {items : List Form} {parts : List Part} {ρ ρ₁ : Renaming}
      (hs : (Form.list items).PlainTemplate) (hp : Threads (EmitsPart R) items ρ parts ρ₁) :
      Emits (.template (.list items)) ρ (joined parts) ρ₁
  | templateAtom {t : Form} {ρ : Renaming} (h : ∀ items, t ≠ .list items) :
      Emits (.template t) ρ (quoted t) ρ

end

/-! ## Rules hold on when more jobs compile -/

section

variable {R S : Answers}

theorem Threads.mono {α β : Type} {P Q : α → Renaming → β → Renaming → Prop}
    (hPQ : ∀ a ρ b ρ', P a ρ b ρ' → Q a ρ b ρ') {as : List α} {bs : List β} {ρ ρ' : Renaming}
    (h : Threads P as ρ bs ρ') : Threads Q as ρ bs ρ' := by
  induction h with
  | nil ρ => exact .nil ρ
  | cons h _ ih => exact .cons (hPQ _ _ _ _ h) ih

theorem EmitsPart.mono (hRS : ∀ job ρ e ρ', R job ρ e ρ' → S job ρ e ρ') {item : Form} {p : Part}
    {ρ ρ' : Renaming} (h : EmitsPart R item ρ p ρ') : EmitsPart S item ρ p ρ' := by
  cases h with
  | splice hs hq h => exact .splice hs hq (hRS _ _ _ _ h)
  | item hs h => exact .item hs (hRS _ _ _ _ h)

theorem EmitsTail.mono (hRS : ∀ job ρ e ρ', R job ρ e ρ' → S job ρ e ρ') {tail : Form}
    {es : List Expr} {e : Expr} {ρ ρ' : Renaming} (h : EmitsTail R tail ρ es e ρ') :
    EmitsTail S tail ρ es e ρ' := by
  cases h with
  | declaration hs hd hp h => exact .declaration hs hd hp (hRS _ _ _ _ h)
  | other hs h => exact .other hs (hRS _ _ _ _ h)

theorem EmitsEach.mono (hRS : ∀ job ρ e ρ', R job ρ e ρ' → S job ρ e ρ') {fs : List Form}
    {es : List Expr} {ρ ρ' : Renaming} (h : EmitsEach R fs ρ es ρ') : EmitsEach S fs ρ es ρ' :=
  Threads.mono (fun f => hRS (.form f)) h

/-- **A rule holds on when more jobs compile.** -/
theorem Emits.mono (hRS : ∀ job ρ e ρ', R job ρ e ρ' → S job ρ e ρ') {job : Job} {e : Expr}
    {ρ ρ' : Renaming} (h : Emits R job ρ e ρ') : Emits S job ρ e ρ' := by
  cases h with
  | literal h => exact .literal h
  | name h ht => exact .name h ht
  | var h hp hi => exact .var h hp (hRS _ _ _ _ hi)
  | fn h hp hl ht => exact .fn h hp (hl.mono hRS) (ht.mono hRS)
  | assignName h ht hv => exact .assignName h ht (hRS _ _ _ _ hv)
  | assignProperty h ha hv => exact .assignProperty h (hRS _ _ _ _ ha) (hRS _ _ _ _ hv)
  | conditional h ht hc ha =>
    exact .conditional h (hRS _ _ _ _ ht) (hRS _ _ _ _ hc) (hRS _ _ _ _ ha)
  | quote h => exact .quote h
  | quasiquote h ht => exact .quasiquote h (hRS _ _ _ _ ht)
  | list h hi => exact .list h (hi.mono hRS)
  | member h ht hk => exact .member h (hRS _ _ _ _ ht) (hRS _ _ _ _ hk)
  | object h he => exact .object h (he.mono fun _ _ _ _ hf => ⟨hf.1, hRS _ _ _ _ hf.2⟩)
  | access h ht => exact .access h (hRS _ _ _ _ ht)
  | accessCall h ht ha => exact .accessCall h (hRS _ _ _ _ ht) (ha.mono hRS)
  | application h hh ha => exact .application h (hRS _ _ _ _ hh) (ha.mono hRS)
  | unquote hs hq hi => exact .unquote hs hq (hRS _ _ _ _ hi)
  | templateList hs hp => exact .templateList hs (Threads.mono (fun _ _ _ _ => EmitsPart.mono hRS) hp)
  | templateAtom h => exact .templateAtom h

end

/-! ## The functions keep to the rules -/

section

variable {below : Emitter}

/-- **A function that handles a list item by item threads the renaming through it.** -/
theorem threads_iff {α β : Type} (step : α → Renaming → Except Error (β × Renaming))
    (run : List α → Renaming → Except Error (List β × Renaming)) (hnil : ∀ ρ, run [] ρ = .ok ([], ρ))
    (hcons : ∀ a as ρ, run (a :: as) ρ =
      step a ρ >>= fun p => run as p.2 >>= fun q => .ok (p.1 :: q.1, q.2))
    {as : List α} {bs : List β} {ρ ρ' : Renaming} :
    run as ρ = .ok (bs, ρ') ↔ Threads (fun a ρ b ρ' => step a ρ = .ok (b, ρ')) as ρ bs ρ' := by
  induction as generalizing bs ρ with
  | nil =>
    rw [hnil]
    constructor
    · intro h; cases h; exact .nil _
    · intro h; cases h; rfl
  | cons a as ih =>
    simp only [hcons, bind_eq_ok_iff, Prod.exists, Except.ok.injEq, Prod.mk.injEq]
    constructor
    · rintro ⟨b, ρ₁, h, bs', ρ₂, hs, rfl, rfl⟩; exact .cons h (ih.1 hs)
    · intro h
      cases h with
      | cons h hs => exact ⟨_, _, h, _, _, ih.2 hs, rfl, rfl⟩

theorem putEach_eq_ok_iff {names targets : List String} {ρ ρ' : Renaming} :
    putEach names ρ = .ok (targets, ρ') ↔
      Threads (fun n ρ t ρ' => ρ.put n (.symbol n) = .ok (t, ρ')) names ρ targets ρ' :=
  threads_iff _ _ (fun _ => rfl) fun _ _ _ => rfl

theorem compileEach_eq_ok_iff {fs : List Form} {es : List Expr} {ρ ρ' : Renaming} :
    compileEach below fs ρ = .ok (es, ρ') ↔ EmitsEach (.of below) fs ρ es ρ' :=
  threads_iff _ _ (fun _ => rfl) fun _ _ _ => rfl

theorem compileFields_eq_ok_iff {entries : List (String × Form)} {fields : List (String × Expr)}
    {ρ ρ' : Renaming} :
    compileFields below entries ρ = .ok (fields, ρ') ↔ EmitsFields (.of below) entries ρ fields ρ' := by
  rw [threads_iff (fun f ρ => below (.form f.2) ρ >>= fun p => .ok ((f.1, p.1), p.2)) _
    (fun _ => rfl) fun f fs ρ => by cases h : below (.form f.2) ρ <;> simp [compileFields, h] <;> rfl]
  constructor <;> apply Threads.mono
  · intro f ρ g ρ' h
    obtain ⟨p, hp, h⟩ := bind_eq_ok_iff.1 h
    cases h; exact ⟨rfl, hp⟩
  · rintro f ρ ⟨_, e⟩ ρ' ⟨rfl, h⟩
    exact bind_eq_ok_iff.2 ⟨_, h, rfl⟩

theorem compilePart_eq_ok_iff {item : Form} {p : Part} {ρ ρ' : Renaming} :
    compilePart below item ρ = .ok (p, ρ') ↔ EmitsPart (.of below) item ρ p ρ' := by
  unfold compilePart
  split
  · rename_i args hs
    simp only [bind_eq_ok_iff, Prod.exists, pure, Except.pure, Except.ok.injEq, Prod.mk.injEq]
    constructor
    · rintro ⟨inner, hq, e, ρ₁, h, rfl, rfl⟩; exact .splice hs hq h
    · intro h
      cases h with
      | splice hs' hq h => rw [hs] at hs'; cases hs'; exact ⟨_, hq, _, _, h, rfl, rfl⟩
      | item hs' h => exact absurd hs (hs' args)
  · rename_i hs
    simp only [bind_eq_ok_iff, Prod.exists, pure, Except.pure, Except.ok.injEq, Prod.mk.injEq]
    constructor
    · rintro ⟨e, ρ₁, h, rfl, rfl⟩; exact .item hs h
    · intro h
      cases h with
      | splice hs' hq h => exact absurd hs' (hs _)
      | item hs' h => exact ⟨_, _, h, rfl, rfl⟩

theorem compileParts_eq_ok_iff {items : List Form} {parts : List Part} {ρ ρ' : Renaming} :
    compileParts below items ρ = .ok (parts, ρ') ↔
      Threads (EmitsPart (.of below)) items ρ parts ρ' := by
  rw [threads_iff _ (compileParts below) (fun _ => rfl) fun _ _ _ => rfl]
  constructor <;> apply Threads.mono
  · exact fun _ _ _ _ => compilePart_eq_ok_iff.1
  · exact fun _ _ _ _ => compilePart_eq_ok_iff.2

theorem compileTail_eq_ok_iff {tail : Form} {es : List Expr} {e : Expr} {ρ : Renaming} :
    compileTail below tail ρ = .ok (es, e) ↔ ∃ ρ', EmitsTail (.of below) tail ρ es e ρ' := by
  unfold compileTail compileVar
  split
  · rename_i args hs
    simp only [bind_eq_ok_iff, Prod.exists, pure, Except.pure, Except.ok.injEq, Prod.mk.injEq]
    constructor
    · rintro ⟨n, init, hd, t, e', ρ₂, ⟨t', ρ₁, hp, e'', ρ₂', h, rfl, rfl, rfl⟩, rfl, rfl⟩
      exact ⟨_, .declaration hs hd hp h⟩
    · rintro ⟨ρ', h⟩
      cases h with
      | declaration hs' hd hp h =>
        rw [hs] at hs'; cases hs'
        exact ⟨_, _, hd, _, _, _, ⟨_, _, hp, _, _, h, rfl, rfl, rfl⟩, rfl, rfl⟩
      | other hs' h => exact absurd hs (hs' args)
  · rename_i hs
    simp only [bind_eq_ok_iff, Prod.exists, pure, Except.pure, Except.ok.injEq, Prod.mk.injEq]
    constructor
    · rintro ⟨e', ρ₁, h, rfl, rfl⟩; exact ⟨ρ₁, .other hs h⟩
    · rintro ⟨ρ', h⟩
      cases h with
      | declaration hs' _ _ _ => exact absurd hs' (hs _)
      | other hs' h => exact ⟨_, _, h, rfl, rfl⟩

theorem compileFn_eq_ok_iff {params : Parameters} {body : Body} {e : Expr} {ρ : Renaming} :
    compileFn below params body ρ = .ok e ↔
      ∃ targets ρ₁ es ρ₂ last result ρ₃, putParameters params ρ = .ok (targets, ρ₁) ∧
        EmitsEach (.of below) body.leading ρ₁ es ρ₂ ∧
        EmitsTail (.of below) body.last ρ₂ last result ρ₃ ∧ e = .function targets (es ++ last) result := by
  simp only [compileFn, bind_eq_ok_iff, Prod.exists, compileEach_eq_ok_iff, compileTail_eq_ok_iff, pure,
    Except.pure, Except.ok.injEq]
  constructor
  · rintro ⟨ts, ρ₁, hp, es, ρ₂, hl, last, result, ⟨ρ₃, ht⟩, rfl⟩
    exact ⟨ts, ρ₁, es, ρ₂, last, result, ρ₃, hp, hl, ht, rfl⟩
  · rintro ⟨ts, ρ₁, es, ρ₂, last, result, ρ₃, hp, hl, ht, rfl⟩
    exact ⟨ts, ρ₁, hp, es, ρ₂, hl, last, result, ⟨ρ₃, ht⟩, rfl⟩

theorem targetOf_eq_ok_iff {ρ : Renaming} {n t : String} :
    targetOf ρ n = .ok t ↔ ρ.target? n = some t := by
  unfold targetOf
  cases ρ.target? n <;> simp [fail]

theorem emits_of_compileSpecial {f : Form} {s : Special} (h : f.Reads s) {e : Expr} {ρ ρ' : Renaming}
    (hc : compileSpecial below f s ρ = .ok (e, ρ')) : Emits (.of below) (.form f) ρ e ρ' := by
  cases s with
  | var n init =>
    simp only [compileSpecial, compileVar, bind_eq_ok_iff, Prod.exists] at hc
    obtain ⟨t, e', ρ₂, ⟨t', ρ₁, hp, e'', ρ₂', hi, h₁⟩, h₂⟩ := hc
    cases h₁; cases h₂
    exact .var h hp hi
  | fn params body =>
    obtain ⟨e', he, hc⟩ := bind_eq_ok_iff.1 hc
    obtain ⟨ts, ρ₁, es, ρ₂, last, result, ρ₃, hp, hl, ht, rfl⟩ := compileFn_eq_ok_iff.1 he
    cases hc
    exact .fn h hp hl ht
  | assign target value =>
    cases target with
    | name n =>
      simp only [compileSpecial, bind_eq_ok_iff, Prod.exists, targetOf_eq_ok_iff] at hc
      obtain ⟨t, ht, e', ρ₁, hv, hc⟩ := hc
      cases hc
      exact .assignName h ht hv
    | property access =>
      simp only [compileSpecial, bind_eq_ok_iff, Prod.exists] at hc
      obtain ⟨place, ρ₁, ha, e', ρ₂, hv, hc⟩ := hc
      cases hc
      exact .assignProperty h ha hv
  | conditional t c a =>
    simp only [compileSpecial, bind_eq_ok_iff, Prod.exists] at hc
    obtain ⟨et, ρ₁, ht, ec, ρ₂, hc', ea, ρ₃, ha, hc⟩ := hc
    cases hc
    exact .conditional h ht hc' ha
  | quote datum => cases hc; exact .quote h
  | quasiquote t => exact .quasiquote h hc
  | list items =>
    simp only [compileSpecial, bind_eq_ok_iff, Prod.exists, compileEach_eq_ok_iff] at hc
    obtain ⟨es, ρ₁, hi, hc⟩ := hc
    cases hc
    exact .list h hi
  | member target key =>
    simp only [compileSpecial, bind_eq_ok_iff, Prod.exists] at hc
    obtain ⟨et, ρ₁, ht, ek, ρ₂, hk, hc⟩ := hc
    cases hc
    exact .member h ht hk
  | object entries =>
    simp only [compileSpecial, bind_eq_ok_iff, Prod.exists, compileFields_eq_ok_iff] at hc
    obtain ⟨fields, ρ₁, he, hc⟩ := hc
    cases hc
    exact .object h he
  | unquote inner => cases hc
  | unquoteSplicing inner => cases hc
  | importModules names => cases hc
  | defineSyntax => cases hc
  | syntaxRules => cases hc

theorem emits_of_compileForm {f : Form} {e : Expr} {ρ ρ' : Renaming}
    (hc : compileForm below f ρ = .ok (e, ρ')) : Emits (.of below) (.form f) ρ e ρ' := by
  unfold compileForm at hc
  split at hc
  · rename_i l h
    cases hc; exact .literal h
  · rename_i n h
    obtain ⟨t, ht, hc⟩ := bind_eq_ok_iff.1 hc
    cases hc; exact .name h (targetOf_eq_ok_iff.1 ht)
  · cases hc
  · rename_i k args h
    obtain ⟨s, hs, hc⟩ := bind_eq_ok_iff.1 hc
    exact emits_of_compileSpecial ⟨k, args, h, hs⟩ hc
  · rename_i key args h
    match args, h, hc with
    | [], h, hc => cases hc
    | target :: args, h, hc =>
      have hc : compileAccess below key target args ρ = .ok (e, ρ') := hc
      obtain ⟨⟨e', ρ₁⟩, ht, hc⟩ := bind_eq_ok_iff.1 hc
      cases args with
      | nil => cases hc; exact .access h ht
      | cons arg args =>
        obtain ⟨⟨es, ρ₂⟩, ha, hc⟩ := bind_eq_ok_iff.1 hc
        cases hc
        exact .accessCall h ht (compileEach_eq_ok_iff.1 ha)
  · rename_i head args h
    simp only [bind_eq_ok_iff, Prod.exists, compileEach_eq_ok_iff] at hc
    obtain ⟨callee, ρ₁, hh, es, ρ₂, ha, hc⟩ := hc
    cases hc
    exact .application h hh ha

theorem emits_of_compileTemplate {t : Form} {e : Expr} {ρ ρ' : Renaming}
    (hc : compileTemplate below t ρ = .ok (e, ρ')) : Emits (.of below) (.template t) ρ e ρ' := by
  unfold compileTemplate at hc
  split at hc
  · rename_i args hs
    obtain ⟨inner, hq, hi⟩ := bind_eq_ok_iff.1 hc
    exact .unquote hs hq hi
  · cases hc
  · rename_i hu hsp
    split at hc
    · simp only [bind_eq_ok_iff, Prod.exists, compileParts_eq_ok_iff] at hc
      obtain ⟨parts, ρ₁, hp, hc⟩ := hc
      cases hc
      exact .templateList (fun args => ⟨hu args, hsp args⟩) hp
    · rename_i hl
      cases hc
      exact .templateAtom hl

theorem compileForm_of_reads {f : Form} {s : Special} (h : f.Reads s) (ρ : Renaming) :
    compileForm below f ρ = compileSpecial below f s ρ := by
  obtain ⟨k, args, hs, ha⟩ := h
  simp only [compileForm, hs, ha]
  rfl

/-- **A level succeeds exactly by the rules.** -/
theorem layer_eq_ok_iff {job : Job} {e : Expr} {ρ ρ' : Renaming} :
    layer below job ρ = .ok (e, ρ') ↔ Emits (.of below) job ρ e ρ' := by
  constructor
  · intro h
    cases job with
    | form f => exact emits_of_compileForm h
    | template t => exact emits_of_compileTemplate h
  · intro h
    cases h with
    | literal h => simp only [layer, compileForm, h]; rfl
    | name h ht =>
      simp only [layer, compileForm, h]
      exact bind_eq_ok_iff.2 ⟨_, targetOf_eq_ok_iff.2 ht, rfl⟩
    | var h hp hi =>
      rw [layer, compileForm_of_reads h]
      exact bind_eq_ok_iff.2 ⟨_, bind_eq_ok_iff.2 ⟨_, hp, bind_eq_ok_iff.2 ⟨_, hi, rfl⟩⟩, rfl⟩
    | fn h hp hl ht =>
      rw [layer, compileForm_of_reads h]
      exact bind_eq_ok_iff.2 ⟨_, compileFn_eq_ok_iff.2 ⟨_, _, _, _, _, _, _, hp, hl, ht, rfl⟩, rfl⟩
    | assignName h ht hv =>
      rw [layer, compileForm_of_reads h]
      exact bind_eq_ok_iff.2 ⟨_, targetOf_eq_ok_iff.2 ht, bind_eq_ok_iff.2 ⟨_, hv, rfl⟩⟩
    | assignProperty h ha hv =>
      rw [layer, compileForm_of_reads h]
      exact bind_eq_ok_iff.2 ⟨_, ha, bind_eq_ok_iff.2 ⟨_, hv, rfl⟩⟩
    | conditional h ht hc ha =>
      rw [layer, compileForm_of_reads h]
      exact bind_eq_ok_iff.2 ⟨_, ht, bind_eq_ok_iff.2 ⟨_, hc, bind_eq_ok_iff.2 ⟨_, ha, rfl⟩⟩⟩
    | quote h => rw [layer, compileForm_of_reads h]; rfl
    | quasiquote h ht => rw [layer, compileForm_of_reads h]; exact ht
    | list h hi =>
      rw [layer, compileForm_of_reads h]
      exact bind_eq_ok_iff.2 ⟨_, compileEach_eq_ok_iff.2 hi, rfl⟩
    | member h ht hk =>
      rw [layer, compileForm_of_reads h]
      exact bind_eq_ok_iff.2 ⟨_, ht, bind_eq_ok_iff.2 ⟨_, hk, rfl⟩⟩
    | object h he =>
      rw [layer, compileForm_of_reads h]
      exact bind_eq_ok_iff.2 ⟨_, compileFields_eq_ok_iff.2 he, rfl⟩
    | access h ht =>
      simp only [layer, compileForm, h]
      exact bind_eq_ok_iff.2 ⟨_, rfl, bind_eq_ok_iff.2 ⟨_, ht, rfl⟩⟩
    | accessCall h ht ha =>
      simp only [layer, compileForm, h]
      exact bind_eq_ok_iff.2 ⟨_, rfl,
        bind_eq_ok_iff.2 ⟨_, ht, bind_eq_ok_iff.2 ⟨_, compileEach_eq_ok_iff.2 ha, rfl⟩⟩⟩
    | application h hh ha =>
      simp only [layer, compileForm, h]
      exact bind_eq_ok_iff.2 ⟨_, hh, bind_eq_ok_iff.2 ⟨_, compileEach_eq_ok_iff.2 ha, rfl⟩⟩
    | unquote hs hq hi =>
      simp only [layer, compileTemplate, hs]
      exact bind_eq_ok_iff.2 ⟨_, hq, hi⟩
    | templateList hs hp =>
      rw [layer, compileTemplate]
      split
      · exact absurd ‹_› (hs _).1
      · exact absurd ‹_› (hs _).2
      · exact bind_eq_ok_iff.2 ⟨_, compileParts_eq_ok_iff.2 hp, rfl⟩
    | templateAtom h =>
      rename_i t
      cases t with
      | literal l => rfl
      | symbol n => rfl
      | list items => exact absurd rfl (h items)

end

end HostLisp.Codegen
