import HostLisp.Proofs.Realms
import HostLisp.Proofs.Parts
import Mathlib.Data.Set.Insert

/-!
# What evaluation needs from a scope

A static view of evaluation: which names a job needs, and which are bound behind it. `Admits tol A` has the
rules for one level and leaves the levels below to a relation `A`. A rule for a name asks that the name be
bound or that the failure to find it be tolerated; a job that fails in any scope needs the failure to be
tolerated.

A relation that admits jobs only by the rules is enough to run them: no closure ever reaches a cell
outside the realm, and no failure is met but those that values bring about (`Cause.Dynamic`) and those
that are tolerated.

* `Admits`: the rules.
* `ScopeRule`: what is asked of scopes beside their names, such as that their cells exist.
* `Admits.runs`: **one level keeps the realm if the levels below do.**
* `perform_sound`, `runAll_runs`: jobs and programs, by induction on levels and on forms.
-/

namespace HostLisp

/-- Failures that values bring about: an empty cell, a call on the wrong number or kind of values, a run
that goes too deep. -/
inductive Cause.Dynamic (limit : Nat) : Cause → Prop
  | uninitialized (name : String) : Dynamic limit (.uninitialized name)
  | arityMismatch (expected actual : Nat) : Dynamic limit (.arityMismatch expected actual)
  | wrongType (f : TypeFault) : Dynamic limit (.wrongType f)
  | depth : Dynamic limit (.limitExceeded (.depth limit))

namespace Evaluator

/-! ## The rules -/

/-- Which names a job needs, and which are bound behind it. -/
abbrev Admission := Set String → Job → Set String → Prop

/-- Items handled from left to right, each with the names bound behind the one before. -/
inductive Chain {α : Type} (R : Set String → α → Set String → Prop) : Set String → List α → Set String → Prop
  | nil (S : Set String) : Chain R S [] S
  | cons {a : α} {as : List α} {S S₁ S₂ : Set String} (h : R S a S₁) (hs : Chain R S₁ as S₂) :
      Chain R S (a :: as) S₂

section

variable (tol : Error → Prop) (A : Admission)

/-- Forms as code from left to right. -/
abbrev AdmitsEach : Set String → List Form → Set String → Prop :=
  Chain fun S f => A S (.form f)

/-- A body that needs no more names than its scope and its parameters bind. -/
def AdmitsBody (S : Set String) (params : Parameters) (body : Body) : Prop :=
  ∃ S₁ S₂ S₃, S₁ ⊆ S ∪ {n | n ∈ params.names} ∧ AdmitsEach A S₁ body.leading S₂ ∧
    A S₂ (.form body.last) S₃

/-- An item of a template list. -/
inductive AdmitsItem : Set String → Form → Set String → Prop
  | splice {item inner : Form} {args : List Form} {S S' : Set String}
      (hs : item.special? = some (.unquoteSplicing, args))
      (hq : Special.quoted .unquoteSplicing item args = .ok inner) (h : A S (.form inner) S') :
      AdmitsItem S item S'
  | item {item : Form} {S S' : Set String} (hs : ∀ args, item.special? ≠ some (.unquoteSplicing, args))
      (h : A S (.template item) S') : AdmitsItem S item S'
  | fault {item : Form} {e : Error} {S S' : Set String}
      (h : ∀ below σ, rebuildItem below item σ = throw e) (ht : tol e) : AdmitsItem S item S'

/-- **The rules of scoping.** -/
inductive Admits : Admission
  | literal {f : Form} {l : Literal} {S : Set String} (h : f.shape = .literal l) : Admits S (.form f) S
  | name {f : Form} {n : String} {S : Set String} (h : f.shape = .name n)
      (hn : n ∉ S → tol (.raised f (.undefinedIdentifier n))) : Admits S (.form f) S
  | fault {job : Job} {e : Error} {S S' : Set String} (h : ∀ below σ, layer below job σ = throw e)
      (ht : tol e) : Admits S job S'
  | var {f init : Form} {n : String} {S S₁ S' : Set String} (h : f.Reads (.var n init))
      (hS : S₁ ⊆ insert n S) (hi : A S₁ (.form init) S') : Admits S (.form f) S'
  | fn {f : Form} {params : Parameters} {body : Body} {S : Set String} (h : f.Reads (.fn params body))
      (hb : AdmitsBody A S params body) : Admits S (.form f) S
  | assign {f value : Form} {n : String} {S S' : Set String} (h : f.Reads (.assign (.name n) value))
      (hn : n ∉ S → tol (.raised (.symbol n) (.undefinedIdentifier n))) (hv : A S (.form value) S') :
      Admits S (.form f) S'
  /-- which branch runs is not known, so neither may bind more than the other -/
  | conditional {f t c a : Form} {S S' : Set String} (h : f.Reads (.conditional t c a))
      (ht : A S (.form t) S') (hc : A S' (.form c) S') (ha : A S' (.form a) S') : Admits S (.form f) S'
  | quote {f datum : Form} {S : Set String} (h : f.Reads (.quote datum)) : Admits S (.form f) S
  | quasiquote {f t : Form} {S S' : Set String} (h : f.Reads (.quasiquote t)) (ht : A S (.template t) S') :
      Admits S (.form f) S'
  | list {f : Form} {items : List Form} {S S' : Set String} (h : f.Reads (.list items))
      (hi : AdmitsEach A S items S') : Admits S (.form f) S'
  | application {f head : Form} {args : List Form} {S S₁ S' : Set String}
      (h : f.shape = .application head args) (hh : A S (.form head) S₁) (ha : AdmitsEach A S₁ args S') :
      Admits S (.form f) S'
  | unquote {t inner : Form} {args : List Form} {S S' : Set String}
      (hs : t.special? = some (.unquote, args)) (hq : Special.quoted .unquote t args = .ok inner)
      (hi : A S (.form inner) S') : Admits S (.template t) S'
  | templateList {items : List Form} {S S' : Set String} (hs : (Form.list items).PlainTemplate)
      (hi : Chain (AdmitsItem tol A) S items S') : Admits S (.template (.list items)) S'
  | templateAtom {t : Form} {S : Set String} (h : ∀ items, t ≠ .list items) : Admits S (.template t) S

end

/-! ## Scopes -/

/-- A scope binds some names. -/
def Covers (σ : Scope) (S : Set String) : Prop := ∀ n ∈ S, ∃ cell, σ.find? n = some cell

/-- What is asked of scopes, with the cells that they may reach. It stays true as cells are added, also
when a name is bound to the newest. -/
structure ScopeRule where
  own : CellId → Prop
  scope : Nat → Scope → Prop
  mono : ∀ {n n' : Nat} {σ : Scope}, n ≤ n' → scope n σ → scope n' σ
  bind : ∀ {n : Nat} {σ : Scope} (name : String), scope n σ → scope (n + 1) (σ.bind name ⟨n⟩)
  cell : ∀ {n : Nat} {σ : Scope} {name : String} {cell : CellId}, scope n σ →
    σ.find? name = some cell → own cell ∧ cell.index < n

/-- The realm of a rule on scopes: a closure is good if its scope is and binds what its body needs. -/
def ScopeRule.realm (K : ScopeRule) (A : Admission) : Realm where
  own := K.own
  good n c := K.scope n c.scope ∧ ∃ S, Covers c.scope S ∧ AdmitsBody A S c.params c.body
  mono hn h := ⟨K.mono hn h.1, h.2⟩

/-- A scope that keeps the rule and binds some names. -/
structure ScopeRule.Suits (K : ScopeRule) (S : Set String) (n : Nat) (σ : Scope) : Prop where
  scope : K.scope n σ
  covers : Covers σ S

namespace ScopeRule.Suits

variable {K : ScopeRule} {S S' : Set String} {n n' : Nat} {σ : Scope}

theorem mono (h : K.Suits S n σ) (hn : n ≤ n') : K.Suits S n' σ := ⟨K.mono hn h.scope, h.covers⟩

theorem anti (h : K.Suits S n σ) (hS : S' ⊆ S) : K.Suits S' n σ :=
  ⟨h.scope, fun m hm => h.covers m (hS hm)⟩

theorem bind (h : K.Suits S n σ) (name : String) : K.Suits (insert name S) (n + 1) (σ.bind name ⟨n⟩) := by
  refine ⟨K.bind name h.scope, ?_⟩
  intro m hm
  rw [Scope.find?_bind]
  split
  · exact ⟨_, rfl⟩
  · rename_i hne
    exact h.covers m (hm.resolve_left (Ne.symm hne))

/-- A name that is not found is not among those that the scope binds. -/
theorem notMem (h : K.Suits S n σ) {name : String} (hf : σ.find? name = none) : name ∉ S := by
  intro hS
  obtain ⟨cell, hc⟩ := h.covers name hS
  rw [hf] at hc; cases hc

end ScopeRule.Suits

/-! ## One level -/

/-- A good value, and a scope that binds some names. -/
abbrev Gives (K : ScopeRule) (A : Admission) (S : Set String) (r : Value × Scope) (m : Memory) : Prop :=
  (K.realm A).GoodValue m.size r.1 ∧ K.Suits S m.size r.2

/-- Good values, and a scope that binds some names. -/
abbrev GivesEach (K : ScopeRule) (A : Admission) (S : Set String) (r : List Value × Scope) (m : Memory) :
    Prop :=
  (K.realm A).GoodValues m.size r.1 ∧ K.Suits S m.size r.2

/-- Jobs that are admitted run in the realm, and bind what they are said to bind. -/
def Sound (K : ScopeRule) (A : Admission) (tol : Error → Prop) (below : Performer) : Prop :=
  ∀ {S S' : Set String} {job : Job} {σ : Scope} {m : Memory}, A S job S' → K.Suits S m.size σ →
    (K.realm A).Holds m → (K.realm A).Runs tol (below job σ) m (Gives K A S')

section

open Realm

variable {K : ScopeRule} {A : Admission} {tol : Error → Prop} {limit : Nat} {below : Performer}
variable (hdyn : ∀ e : Error, e.cause.Dynamic limit → tol e) (hbelow : Sound K A tol below)
variable {S S' : Set String} {σ : Scope} {m : Memory}

include hdyn in
theorem lookup_runs {site : Form} {n : String} (hn : n ∉ S → tol (.raised site (.undefinedIdentifier n)))
    (hσ : K.Suits S m.size σ) (hm : (K.realm A).Holds m) :
    (K.realm A).Runs tol (lookup site n σ) m fun v m' => (K.realm A).GoodValue m'.size v := by
  unfold lookup
  split
  · rename_i hf
    exact .throw hm (hn (hσ.notMem hf))
  · rename_i cell hf
    obtain ⟨hown, hc⟩ := K.cell hσ.scope hf
    refine .bind (.read hm hown hc) ?_
    intro content m' _ hm' hv
    cases content with
    | none => exact .throw hm' (hdyn _ (.uninitialized n))
    | some v => exact .pure hm' (hv v rfl)

include hbelow in
theorem evalEach_runs {fs : List Form} (h : AdmitsEach A S fs S') (hσ : K.Suits S m.size σ)
    (hm : (K.realm A).Holds m) :
    (K.realm A).Runs tol (evalEach below fs σ) m (GivesEach K A S') := by
  induction h generalizing σ m with
  | nil S => exact .pure hm ⟨goodValues_nil _, hσ⟩
  | cons h _ ih =>
    refine .bind (hbelow h hσ hm) ?_
    rintro ⟨v, σ₁⟩ m₁ _ hm₁ ⟨hv, hσ₁⟩
    refine .bind (ih hσ₁ hm₁) ?_
    rintro ⟨vs, σ₂⟩ m₂ hg hm₂ ⟨hvs, hσ₂⟩
    exact .pure hm₂ ⟨goodValues_cons.2 ⟨hv.mono hg.size, hvs⟩, hσ₂⟩

include hbelow in
theorem evalBody_runs {leading : List Form} {last : Form} {S₁ : Set String} (h : AdmitsEach A S leading S₁)
    (hl : A S₁ (.form last) S') (hσ : K.Suits S m.size σ) (hm : (K.realm A).Holds m) :
    (K.realm A).Runs tol (evalBody below leading last σ) m fun v m' => (K.realm A).GoodValue m'.size v := by
  induction h generalizing σ m with
  | nil S =>
    refine .bind (hbelow hl hσ hm) ?_
    rintro ⟨v, σ₁⟩ m₁ _ hm₁ ⟨hv, _⟩
    exact .pure hm₁ hv
  | cons h _ ih =>
    refine .bind (hbelow h hσ hm) ?_
    rintro ⟨v, σ₁⟩ m₁ _ hm₁ ⟨_, hσ₁⟩
    exact ih hl hσ₁ hm₁

theorem bindEach_runs {bindings : List (String × Value)}
    (hv : ∀ b ∈ bindings, (K.realm A).GoodValue m.size b.2) (hσ : K.Suits S m.size σ)
    (hm : (K.realm A).Holds m) :
    (K.realm A).Runs tol (bindEach bindings σ) m fun σ' m' =>
      K.Suits (S ∪ {n | n ∈ bindings.map Prod.fst}) m'.size σ' := by
  induction bindings generalizing S σ m with
  | nil => exact .pure hm (by simpa using hσ)
  | cons b bindings ih =>
    obtain ⟨name, v⟩ := b
    refine .bind (.alloc hm fun w hw => by cases hw; exact hv _ List.mem_cons_self) ?_
    rintro cell m₁ hg hm₁ ⟨rfl, hs⟩
    have hσ₁ := hσ.bind name
    rw [← hs] at hσ₁
    refine (ih (fun b hb => (hv b (List.mem_cons_of_mem _ hb)).mono hg.size) hσ₁ hm₁).weaken ?_
    intro σ' m' h
    refine h.anti ?_
    intro n hn
    simp only [List.map_cons, List.mem_cons, Set.mem_union, Set.mem_ofPred_eq, Set.mem_insert_iff] at hn ⊢
    tauto

include hdyn hbelow in
/-- **Calling a good closure.** Its body needs no more than its scope and its parameters bind. -/
theorem call_runs {site : Form} {c : Closure} {args : List Value} (hc : (K.realm A).good m.size c)
    (hargs : (K.realm A).GoodValues m.size args) (hm : (K.realm A).Holds m) :
    (K.realm A).Runs tol (call below site c args) m fun v m' => (K.realm A).GoodValue m'.size v := by
  obtain ⟨hscope, S, hcovers, S₁, S₂, S₃, hS, hleading, hlast⟩ := hc
  -- both kinds of parameters lead to the same two steps
  have hbody : ∀ bindings m₁, (K.realm A).Grows m m₁ → (K.realm A).Holds m₁ →
      (bindings.map Prod.fst = c.params.names ∧ ∀ b ∈ bindings, (K.realm A).GoodValue m₁.size b.2) →
      (K.realm A).Runs tol (bindEach bindings c.scope >>= evalBody below c.body.leading c.body.last) m₁
        fun v m' => (K.realm A).GoodValue m'.size v := by
    rintro bindings m₁ hg₁ hm₁ ⟨hnames, hv⟩
    refine .bind (bindEach_runs hv ⟨K.mono hg₁.size hscope, hcovers⟩ hm₁) ?_
    intro σ m₂ _ hm₂ hσ
    rw [hnames] at hσ
    exact evalBody_runs hbelow hleading hlast (hσ.anti hS) hm₂
  unfold call
  dsimp only
  split
  · rename_i names hp
    split
    · rename_i hlen
      refine .bind (.pure hm ⟨?_, ?_⟩) hbody
      · rw [hp]; exact List.map_fst_zip (Nat.le_of_eq hlen)
      · rintro ⟨n, v⟩ hb
        exact hargs.of_mem (List.of_mem_zip hb).2
    · exact .bind (.throw hm (hdyn _ (.arityMismatch _ _))) hbody
  · rename_i name hp
    refine .bind (.pure hm ⟨?_, ?_⟩) hbody
    · rw [hp]; rfl
    · intro b hb
      rw [List.mem_singleton] at hb
      rw [hb]; exact hargs

include hdyn hbelow in
theorem apply_runs {site head : Form} {args : List Form} {S₁ : Set String} (hh : A S (.form head) S₁)
    (ha : AdmitsEach A S₁ args S') (hσ : K.Suits S m.size σ) (hm : (K.realm A).Holds m) :
    (K.realm A).Runs tol (apply below site head args σ) m (Gives K A S') := by
  refine .bind (hbelow hh hσ hm) ?_
  rintro ⟨callee, σ₁⟩ m₁ _ hm₁ ⟨hcallee, hσ₁⟩
  refine .bind (evalEach_runs hbelow ha hσ₁ hm₁) ?_
  rintro ⟨values, σ₂⟩ m₂ hg₂ hm₂ ⟨hvalues, hσ₂⟩
  cases callee with
  | closure c =>
    have hc := (hcallee c List.mem_cons_self)
    refine .bind (call_runs hdyn hbelow ((K.realm A).mono hg₂.size hc) hvalues hm₂) ?_
    intro v m₃ hg₃ hm₃ hv
    exact .pure hm₃ ⟨hv, hσ₂.mono hg₃.size⟩
  | literal l => exact .throw hm₂ (hdyn _ (.wrongType _))
  | symbol n => exact .throw hm₂ (hdyn _ (.wrongType _))
  | list vs => exact .throw hm₂ (hdyn _ (.wrongType _))

include hdyn hbelow in
theorem AdmitsItem.runs {item : Form} (h : AdmitsItem tol A S item S') (hσ : K.Suits S m.size σ)
    (hm : (K.realm A).Holds m) :
    (K.realm A).Runs tol (rebuildItem below item σ) m (GivesEach K A S') := by
  cases h with
  | splice hs hq h =>
    simp only [rebuildItem, hs]
    refine .bind (.ofExcept (P := fun inner _ => A S (.form inner) S') hm ?_ ?_) ?_
    · intro inner hi; rw [hq] at hi; cases hi; exact h
    · intro e he; rw [hq] at he; cases he
    intro inner m₁ hg₁ hm₁ hi
    refine .bind (hbelow hi (hσ.mono hg₁.size) hm₁) ?_
    rintro ⟨v, σ₂⟩ m₂ _ hm₂ ⟨hv, hσ₂⟩
    cases v with
    | list vs => exact .pure hm₂ ⟨hv, hσ₂⟩
    | literal l => exact .throw hm₂ (hdyn _ (.wrongType _))
    | symbol n => exact .throw hm₂ (hdyn _ (.wrongType _))
    | closure c => exact .throw hm₂ (hdyn _ (.wrongType _))
  | item hs h =>
    unfold rebuildItem
    split
    · rename_i args hs'
      exact absurd hs' (hs args)
    · refine .bind (hbelow h hσ hm) ?_
      rintro ⟨v, σ₁⟩ m₁ _ hm₁ ⟨hv, hσ₁⟩
      exact .pure hm₁ ⟨goodValues_cons.2 ⟨hv, goodValues_nil _⟩, hσ₁⟩
  | fault h ht => rw [h]; exact .throw hm ht

include hdyn hbelow in
theorem rebuildEach_runs {items : List Form} (h : Chain (AdmitsItem tol A) S items S')
    (hσ : K.Suits S m.size σ) (hm : (K.realm A).Holds m) :
    (K.realm A).Runs tol (rebuildEach below items σ) m (GivesEach K A S') := by
  induction h generalizing σ m with
  | nil S => exact .pure hm ⟨goodValues_nil _, hσ⟩
  | cons h _ ih =>
    refine .bind (h.runs hdyn hbelow hσ hm) ?_
    rintro ⟨vs, σ₁⟩ m₁ _ hm₁ ⟨hvs, hσ₁⟩
    refine .bind (ih hσ₁ hm₁) ?_
    rintro ⟨ws, σ₂⟩ m₂ hg hm₂ ⟨hws, hσ₂⟩
    exact .pure hm₂ ⟨goodValues_append.2 ⟨hvs.mono hg.size, hws⟩, hσ₂⟩

theorem evalForm_of_reads {f : Form} {s : Special} (h : f.Reads s) (σ : Scope) :
    evalForm below f σ = evalSpecial below f s σ := by
  obtain ⟨k, args, hs, ha⟩ := h
  simp only [evalForm, hs, ha]
  rfl

include hdyn hbelow in
/-- **One level keeps the realm if the levels below do.** -/
theorem Admits.runs {job : Job} (h : Admits tol A S job S') (hσ : K.Suits S m.size σ)
    (hm : (K.realm A).Holds m) :
    (K.realm A).Runs tol (layer below job σ) m (Gives K A S') := by
  cases h with
  | literal h =>
    simp only [layer, evalForm, h]
    exact .pure hm ⟨goodValue_literal _ _, hσ⟩
  | name h hn =>
    simp only [layer, evalForm, h]
    refine .bind (lookup_runs hdyn hn hσ hm) ?_
    intro v m₁ hg hm₁ hv
    exact .pure hm₁ ⟨hv, hσ.mono hg.size⟩
  | fault h ht => rw [h]; exact .throw hm ht
  | @var f init n _ S₁ _ h hS hi =>
    rw [layer, evalForm_of_reads h]
    refine .bind (.alloc hm fun v hv => by cases hv) ?_
    rintro cell m₁ _ hm₁ ⟨rfl, hs⟩
    -- the new cell is bound before the first value is there
    have hσ₁ := hσ.bind n
    have hnew := K.cell hσ₁.scope (by rw [Scope.find?_bind, if_pos rfl])
    rw [← hs] at hσ₁
    refine .bind (hbelow hi (hσ₁.anti hS) hm₁) ?_
    rintro ⟨v, σ₂⟩ m₂ hg₂ hm₂ ⟨hv, hσ₂⟩
    have hlt := hg₂.size
    refine .bind (.write hm₂ hnew.1 (by rw [hs] at hlt; exact hlt) hv) ?_
    intro _ m₃ hg₃ hm₃ _
    exact .pure hm₃ ⟨hv.mono hg₃.size, hσ₂.mono hg₃.size⟩
  | fn h hb =>
    rw [layer, evalForm_of_reads h]
    refine .bind (.stamp hm) ?_
    intro stamp m₁ hg hm₁ _
    -- the closure takes along the names that are bound now; it may be called in any later memory
    exact .pure hm₁ ⟨goodValue_closure ⟨K.mono hg.size hσ.scope, S, hσ.covers, hb⟩, hσ.mono hg.size⟩
  | @assign f value n _ _ h hn hv =>
    rw [layer, evalForm_of_reads h]
    simp only [evalSpecial]
    split
    · rename_i hf
      exact .throw hm (hn (hσ.notMem hf))
    · rename_i cell hf
      -- the cell is looked up before the value is there, and still exists behind it
      obtain ⟨hown, hc⟩ := K.cell hσ.scope hf
      refine .bind (hbelow hv hσ hm) ?_
      rintro ⟨v, σ₁⟩ m₁ hg₁ hm₁ ⟨hv₁, hσ₁⟩
      refine .bind (.write hm₁ hown (Nat.lt_of_lt_of_le hc hg₁.size) hv₁) ?_
      intro _ m₂ hg₂ hm₂ _
      exact .pure hm₂ ⟨hv₁.mono hg₂.size, hσ₁.mono hg₂.size⟩
  | @conditional f t c a _ _ h ht hc ha =>
    rw [layer, evalForm_of_reads h]
    refine .bind (hbelow ht hσ hm) ?_
    rintro ⟨v, σ₁⟩ m₁ _ hm₁ ⟨_, hσ₁⟩
    dsimp only
    split
    · exact hbelow hc hσ₁ hm₁
    · exact hbelow ha hσ₁ hm₁
  | quote h =>
    rw [layer, evalForm_of_reads h]
    exact .pure hm ⟨goodValue_ofForm _ _, hσ⟩
  | quasiquote h ht =>
    rw [layer, evalForm_of_reads h]
    exact hbelow ht hσ hm
  | list h hi =>
    rw [layer, evalForm_of_reads h]
    refine .bind (evalEach_runs hbelow hi hσ hm) ?_
    rintro ⟨vs, σ₁⟩ m₁ _ hm₁ ⟨hvs, hσ₁⟩
    exact .pure hm₁ ⟨hvs, hσ₁⟩
  | application h hh ha =>
    simp only [layer, evalForm, h]
    exact apply_runs hdyn hbelow hh ha hσ hm
  | unquote hs hq hi =>
    simp only [layer, rebuild, hs, hq]
    exact hbelow hi hσ hm
  | templateList hs hi =>
    rw [layer, rebuild]
    split
    · exact absurd ‹_› (hs _).1
    · exact absurd ‹_› (hs _).2
    · refine .bind (rebuildEach_runs hdyn hbelow hi hσ hm) ?_
      rintro ⟨vs, σ₁⟩ m₁ _ hm₁ ⟨hvs, hσ₁⟩
      exact .pure hm₁ ⟨hvs, hσ₁⟩
  | @templateAtom t _ h =>
    cases t with
    | literal l => exact .pure hm ⟨goodValue_literal _ _, hσ⟩
    | symbol n => exact .pure hm ⟨goodValue_ofForm _ (.symbol n), hσ⟩
    | list items => exact absurd rfl (h items)

end

/-! ## All levels, and programs -/

section

variable {K : ScopeRule} {A : Admission} {tol : Error → Prop} {limit : Nat}

/-- **Jobs that are admitted by the rules run in the realm**, however many levels are left. -/
theorem perform_sound (hdyn : ∀ e : Error, e.cause.Dynamic limit → tol e)
    (hA : ∀ {S job S'}, A S job S' → Admits tol A S job S') (levels : Nat) :
    Sound K A tol (perform limit levels) := by
  induction levels with
  | zero =>
    intro S S' job σ m _ _ hm
    exact .throw hm (hdyn _ .depth)
  | succ levels ih =>
    intro S S' job σ m h hσ hm
    exact (hA h).runs hdyn ih hσ hm

/-- **A program whose forms are admitted runs in the realm.** -/
theorem runAll_runs (hdyn : ∀ e : Error, e.cause.Dynamic limit → tol e)
    (hA : ∀ {S job S'}, A S job S' → Admits tol A S job S') {forms : List Form}
    (hn : ∀ f ∈ forms, ∀ e, f.checkNesting Form.nestingLimit = .error e → tol e) {S S' : Set String}
    (h : AdmitsEach A S forms S') {v : Option Value} {σ : Scope} {m : Memory}
    (hv : ∀ w, v = some w → (K.realm A).GoodValue m.size w) (hσ : K.Suits S m.size σ)
    (hm : (K.realm A).Holds m) :
    (K.realm A).Runs tol (runAll limit v forms σ) m fun r m' =>
      (∀ w, r.1 = some w → (K.realm A).GoodValue m'.size w) ∧ K.Suits S' m'.size r.2 := by
  induction h generalizing v σ m with
  | nil S => exact .pure hm ⟨hv, hσ⟩
  | @cons f fs S S₁ S₂ h _ ih =>
    refine .bind (.ofExcept (P := fun _ _ => True) hm (fun _ _ => trivial) (hn f List.mem_cons_self)) ?_
    intro _ m₁ hg₁ hm₁ _
    refine .bind (perform_sound hdyn hA limit h (hσ.mono hg₁.size) hm₁) ?_
    rintro ⟨w, σ₂⟩ m₂ _ hm₂ ⟨hw, hσ₂⟩
    refine ih (fun g hg => hn g (List.mem_cons_of_mem _ hg)) ?_ hσ₂ hm₂
    intro w' hw'; cases hw'; exact hw

end

end Evaluator

end HostLisp
