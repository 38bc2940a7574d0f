import HostLisp.Proofs.Correspondence
import HostLisp.Proofs.Parts

/-!
# How memory and scopes grow

An evaluation makes cells and writes values to cells. It never takes a cell away and never empties one. The
cell of a declaration is empty while its first value is computed, by code that may hand the cell to a closure,
assign to it, or fail; behind an evaluation that succeeds no cell made on the way is empty.

The scope behind an evaluation binds names as before, but for names of declarations that are evaluated in that
scope. These are bound to cells made on the way. Calls give their scope back.

Nothing is asked of the memory or of the scope, whose cells may be empty or belong to another evaluator.

* `Job.evaluated`, `Job.Declares`: what is evaluated for a job in its own scope, and the names declared there.
* `Memory.Keeps`, `Memory.Settles`: what holds of memory behind every evaluation, and behind one that succeeds.
* `Evolves`: what holds of a scope and memory together. `Evolves.trans`, `Evolves.declare`: how it adds up.
* `Leaves`: a computation that keeps memory, with what it makes sure of. `Leaves.bind` is the rule for sequences.
* `layer_leaves`, `perform_leaves`, `runAll_leaves`: one level, all levels, and programs.
* `evaluate_settles_cells`: **no cell is lost or emptied, and success leaves none of its cells empty.**
* `scoping_is_lexical`: **only declarations bind names, and only to cells of their own.**
-/

namespace HostLisp

/-! ## Declarations in a scope -/

/-- The jobs that are evaluated for a special form in its own scope. A function body is evaluated in a scope of
its own when there is a call, and quoted data is not evaluated at all. -/
def Special.evaluated : Special → List Job
  | .var _ init => [.form init]
  | .assign (.name _) value => [.form value]
  | .conditional test consequent alternative => [.form test, .form consequent, .form alternative]
  | .quasiquote template => [.template template]
  | .list items => items.map .form
  | _ => []

/-- **The jobs that are evaluated for a job in its own scope**, from left to right. Of a conditional both branches
count, and of a template the parts that are unquoted. -/
def Job.evaluated : Job → List Job
  | .form f =>
    match f.shape with
    | .special k args =>
      match Special.ofArguments f k args with
      | .ok s => s.evaluated
      | .error _ => []
    | .application head args => (head :: args).map .form
    | _ => []
  | .template t =>
    match t.special?, t with
    | some (.unquote, [inner]), _ | some (.unquoteSplicing, [inner]), _ => [.form inner]
    | some (.unquote, _), _ | some (.unquoteSplicing, _), _ => []
    | _, .list items => items.map .template
    | _, _ => []

/-- **A job declares a name in its own scope**: a declaration of the name is among what is evaluated there. -/
inductive Job.Declares : Job → String → Prop
  | var {f init : Form} {name : String} (h : f.Reads (.var name init)) : Declares (.form f) name
  | inside {job inner : Job} {name : String} (hi : inner ∈ job.evaluated) (h : inner.Declares name) :
      Declares job name

theorem Form.Reads.evaluated_eq {f : Form} {s : Special} (h : f.Reads s) :
    (Job.form f).evaluated = s.evaluated := by
  obtain ⟨k, args, hs, ha⟩ := h
  simp only [Job.evaluated, hs, ha]

theorem Form.evaluated_application {f head : Form} {args : List Form} (h : f.shape = .application head args) :
    (Job.form f).evaluated = (head :: args).map .form := by
  simp only [Job.evaluated, h]

theorem Form.evaluated_unquoted {t inner : Form} {k : Keyword} (hk : k = .unquote ∨ k = .unquoteSplicing)
    (h : t.special? = some (k, [inner])) : (Job.template t).evaluated = [.form inner] := by
  rcases hk with rfl | rfl <;> simp only [Job.evaluated, h]

theorem Form.PlainTemplate.evaluated_eq {items : List Form} (h : (Form.list items).PlainTemplate) :
    (Job.template (.list items)).evaluated = items.map .template := by
  simp only [Job.evaluated]
  split
  · exact absurd ‹_› (h _).1
  · exact absurd ‹_› (h _).2
  · exact absurd ‹_› (h _).1
  · exact absurd ‹_› (h _).2
  · rename_i heq _ _ _ _
    cases heq
    rfl
  · rename_i hne
    exact absurd rfl (hne items)

/-! ## Memory -/

namespace Memory

/-- A cell holds a value. -/
def Full (m : Memory) (cell : CellId) : Prop := ∃ v, m.store.content? cell = some (some v)

/-- No cell is lost, and none that held a value is emptied. -/
structure Keeps (m m' : Memory) : Prop where
  size : m.size ≤ m'.size
  full : ∀ {cell}, m.Full cell → m'.Full cell

/-- All cells made between two memories hold values. -/
def Settles (m m' : Memory) : Prop := ∀ cell : CellId, m.size ≤ cell.index → cell.index < m'.size → m'.Full cell

variable {m m₁ m₂ : Memory}

theorem Keeps.refl (m : Memory) : m.Keeps m := ⟨Nat.le_refl _, id⟩

theorem Keeps.trans (h : m.Keeps m₁) (h' : m₁.Keeps m₂) : m.Keeps m₂ :=
  ⟨Nat.le_trans h.size h'.size, fun hfull => h'.full (h.full hfull)⟩

/-- Where no cell was made there is nothing to settle. -/
theorem settles_of_size_eq (h : m₁.size = m.size) : m.Settles m₁ := by
  intro cell hge hlt
  omega

theorem Settles.trans (h : m.Settles m₁) (hkeeps : m₁.Keeps m₂) (h' : m₁.Settles m₂) : m.Settles m₂ := by
  intro cell hge hlt
  by_cases hold : cell.index < m₁.size
  · exact hkeeps.full (h cell hge hold)
  · exact h' cell (Nat.not_lt.1 hold) hlt

/-! ### Operations -/

theorem keeps_push (m : Memory) (content : Option Value) :
    m.Keeps { m with store := m.store.push content } := by
  refine ⟨by rw [size_push]; omega, ?_⟩
  rintro cell ⟨v, hv⟩
  have hlt : cell.index < m.store.size := (Array.getElem?_eq_some_iff.1 hv).1
  refine ⟨v, ?_⟩
  rw [Store.content?_push, if_neg (Nat.ne_of_lt hlt)]
  exact hv

/-- A cell that is made with a value leaves nothing to settle. -/
theorem settles_push (m : Memory) (v : Value) : m.Settles { m with store := m.store.push (some v) } := by
  intro cell hge hlt
  rw [size_push] at hlt
  have hnew : cell.index = m.store.size := Nat.le_antisymm (Nat.le_of_lt_succ hlt) hge
  exact ⟨v, by rw [Store.content?_push, if_pos hnew]⟩

variable {cell : CellId} {v : Value} {store : Store}

theorem full_write (h : m.store.write cell v = .ok store) : Memory.Full { m with store } cell :=
  ⟨v, by rw [Store.content?_write h, if_pos rfl]⟩

theorem keeps_write (h : m.store.write cell v = .ok store) : m.Keeps { m with store } := by
  refine ⟨Nat.le_of_eq (Store.size_write h).symm, ?_⟩
  rintro other ⟨w, hw⟩
  by_cases heq : other.index = cell.index
  · exact ⟨v, by rw [Store.content?_write h, if_pos heq]⟩
  · exact ⟨w, by rw [Store.content?_write h, if_neg heq]; exact hw⟩

end Memory

namespace Evaluator

/-! ## Scopes and memory together -/

/-- **What a scope and memory may become** where some names are declared. Memory keeps what it has and is
settled; a name is bound as before, or it is declared and bound to a cell that was made on the way. -/
structure Evolves (D : String → Prop) (σ : Scope) (m : Memory) (σ' : Scope) (m' : Memory) : Prop where
  keeps : m.Keeps m'
  settles : m.Settles m'
  binds : ∀ n, σ'.find? n = σ.find? n ∨
    D n ∧ ∃ cell, σ'.find? n = some cell ∧ m.size ≤ cell.index ∧ cell.index < m'.size

namespace Evolves

variable {D D' : String → Prop} {σ σ₁ σ₂ : Scope} {m m₁ m₂ : Memory}

theorem refl (σ : Scope) (m : Memory) : Evolves D σ m σ m :=
  ⟨.refl m, Memory.settles_of_size_eq rfl, fun _ => Or.inl rfl⟩

theorem mono (h : Evolves D σ m σ₁ m₁) (hD : ∀ n, D n → D' n) : Evolves D' σ m σ₁ m₁ :=
  ⟨h.keeps, h.settles, fun n => (h.binds n).imp_right fun hn => ⟨hD n hn.1, hn.2⟩⟩

/-- One after the other: a later binding of a name counts. -/
theorem trans (h : Evolves D σ m σ₁ m₁) (h' : Evolves D σ₁ m₁ σ₂ m₂) : Evolves D σ m σ₂ m₂ := by
  refine ⟨h.keeps.trans h'.keeps, h.settles.trans h'.keeps h'.settles, fun n => ?_⟩
  have hsize := h.keeps.size
  have hsize' := h'.keeps.size
  rcases h'.binds n with hsame | ⟨hn, cell, hcell, hge, hlt⟩
  · rw [hsame]
    rcases h.binds n with hold | ⟨hn, cell, hcell, hge, hlt⟩
    · exact Or.inl hold
    · exact Or.inr ⟨hn, cell, hcell, hge, by omega⟩
  · exact Or.inr ⟨hn, cell, hcell, by omega, hlt⟩

/-- Memory goes on behind a scope that stays as it is. -/
theorem later (h : Evolves D σ m σ₁ m₁) (hkeeps : m₁.Keeps m₂) (hsettles : m₁.Settles m₂) :
    Evolves D σ m σ₁ m₂ :=
  h.trans ⟨hkeeps, hsettles, fun _ => Or.inl rfl⟩

/-- **A declaration.** Its cell is the first one made, and empty until the first value is there. -/
theorem declare {name : String} (h : Evolves D (σ.bind name ⟨m.size⟩) m₁ σ₁ m₂) (hname : D name)
    (hkeeps : m.Keeps m₁) (hsize : m₁.size = m.size + 1) (hfull : m₂.Full ⟨m.size⟩) :
    Evolves D σ m σ₁ m₂ := by
  have hmore := h.keeps.size
  refine ⟨hkeeps.trans h.keeps, ?_, ?_⟩
  · intro cell hge hlt
    by_cases hfirst : cell.index = m.size
    · have hcell : cell = ⟨m.size⟩ := by rw [← hfirst]
      rw [hcell]
      exact hfull
    · exact h.settles cell (by omega) hlt
  · intro n
    rcases h.binds n with hsame | ⟨hn, cell, hcell, hge, hlt⟩
    · rw [hsame, Scope.find?_bind]
      by_cases heq : name = n
      · rw [if_pos heq]
        have hlt : m.size < m₂.size := by omega
        exact Or.inr ⟨heq ▸ hname, ⟨m.size⟩, rfl, Nat.le_refl _, hlt⟩
      · rw [if_neg heq]
        exact Or.inl rfl
    · exact Or.inr ⟨hn, cell, hcell, by omega, hlt⟩

end Evolves

/-! ## Computations -/

/-- **A computation keeps memory, however it ends**, and has a property if it succeeds. -/
structure Leaves {α : Type} (x : Eval α) (m : Memory) (P : α → Memory → Prop) : Prop where
  keeps : m.Keeps (x.outcome m).2
  ok : ∀ a, (x.outcome m).1 = .ok a → P a (x.outcome m).2

namespace Leaves

variable {α β : Type} {m : Memory}

theorem pure {P : α → Memory → Prop} {a : α} (h : P a m) : Leaves (Pure.pure a) m P := by
  refine ⟨.refl m, ?_⟩
  intro b hb; cases hb; exact h

theorem throw {P : α → Memory → Prop} (e : Error) : Leaves (MonadExcept.throw e : Eval α) m P := by
  refine ⟨.refl m, ?_⟩
  intro b hb; cases hb

theorem ofExcept {P : α → Memory → Prop} {x : Except Error α} (h : ∀ a, x = .ok a → P a m) :
    Leaves (Eval.ofExcept x) m P :=
  ⟨.refl m, h⟩

theorem weaken {P Q : α → Memory → Prop} {x : Eval α} (hx : Leaves x m P)
    (h : ∀ a m', m.Keeps m' → P a m' → Q a m') : Leaves x m Q :=
  ⟨hx.keeps, fun a ha => h a _ hx.keeps (hx.ok a ha)⟩

/-- **Two computations one after the other.** -/
theorem bind {P : α → Memory → Prop} {Q : β → Memory → Prop} {x : Eval α} {f : α → Eval β}
    (hx : Leaves x m P) (hf : ∀ a m', m.Keeps m' → P a m' → Leaves (f a) m' Q) : Leaves (x >>= f) m Q := by
  obtain ⟨hkeeps, hok⟩ := hx
  have ho := Realm.Runs.outcome_bind x f m
  rcases hr : x.outcome m with ⟨e | a, m'⟩
  · rw [hr] at ho hkeeps
    refine ⟨?_, ?_⟩ <;> rw [ho]
    · exact hkeeps
    · intro b hb; cases hb
  · rw [hr] at ho hkeeps hok
    obtain ⟨hkeeps', hok'⟩ := hf a m' hkeeps (hok a rfl)
    refine ⟨?_, ?_⟩ <;> rw [ho]
    · exact hkeeps.trans hkeeps'
    · exact hok'

/-- Where there is no cell left, memory stays as it is, and the run fails. -/
theorem alloc (content : Option Value) : Leaves (Eval.alloc content) m fun cell m' =>
    cell = ⟨m.size⟩ ∧ m' = { m with store := m.store.push content } := by
  rcases Nat.lt_or_ge m.size Store.capacity with hroom | hfull
  · have ho := Eval.outcome_alloc_ok hroom content
    refine ⟨?_, ?_⟩ <;> rw [ho]
    · exact Memory.keeps_push m content
    · intro cell hcell; cases hcell; exact ⟨rfl, rfl⟩
  · have ho := Eval.outcome_alloc_error hfull content
    refine ⟨?_, ?_⟩ <;> rw [ho]
    · exact .refl m
    · intro cell hcell; cases hcell

theorem read (cell : CellId) : Leaves (Eval.read cell) m fun _ m' => m' = m :=
  ⟨.refl m, fun _ _ => rfl⟩

/-- A cell that the store does not have is not written to, and the run fails. -/
theorem write (cell : CellId) (v : Value) : Leaves (Eval.write cell v) m fun _ m' =>
    m'.size = m.size ∧ m'.Full cell := by
  cases hw : m.store.write cell v with
  | error e =>
    have ho := Eval.outcome_write_error hw
    refine ⟨?_, ?_⟩ <;> rw [ho]
    · exact .refl m
    · intro _ h; cases h
  | ok store =>
    have ho := Eval.outcome_write_ok hw
    refine ⟨?_, ?_⟩ <;> rw [ho]
    · exact Memory.keeps_write hw
    · intro _ _; exact ⟨Store.size_write hw, Memory.full_write hw⟩

theorem stamp : Leaves Eval.stamp m fun _ m' => m.Settles m' :=
  ⟨⟨Nat.le_refl _, id⟩, fun _ _ => Memory.settles_of_size_eq rfl⟩

end Leaves

/-! ## One level -/

/-- Jobs keep memory, and bind only what they declare. -/
def Accounts (below : Performer) : Prop :=
  ∀ (job : Job) (σ : Scope) (m : Memory),
    Leaves (below job σ) m fun r m' => Evolves job.Declares σ m r.2 m'

section

variable {below : Performer} {D : String → Prop} {σ : Scope} {m : Memory}

theorem lookup_leaves (site : Form) (name : String) : Leaves (lookup site name σ) m fun _ m' => m' = m := by
  unfold lookup
  split
  · exact .throw _
  · refine .bind (.read _) ?_
    rintro content m' _ rfl
    cases content with
    | none => exact .throw _
    | some v => exact .pure rfl

theorem bindEach_leaves (bindings : List (String × Value)) :
    Leaves (bindEach bindings σ) m fun _ m' => m.Settles m' := by
  induction bindings generalizing σ m with
  | nil => exact .pure (Memory.settles_of_size_eq rfl)
  | cons b bindings ih =>
    obtain ⟨name, v⟩ := b
    refine .bind (.alloc (some v)) ?_
    rintro cell m₁ _ ⟨rfl, rfl⟩
    refine (ih (σ := σ.bind name ⟨m.size⟩)).weaken ?_
    intro _ m₂ hkeeps hsettles
    exact (Memory.settles_push m v).trans hkeeps hsettles

variable (hbelow : Accounts below)
include hbelow

/-- A job that is evaluated for another one, which declares all that it declares. -/
theorem inner_leaves (job : Job) (hD : ∀ n, job.Declares n → D n) (σ : Scope) (m : Memory) :
    Leaves (below job σ) m fun r m' => Evolves D σ m r.2 m' :=
  (hbelow job σ m).weaken fun _ _ _ h => h.mono hD

theorem evalEach_leaves (fs : List Form) (hD : ∀ f ∈ fs, ∀ n, (Job.form f).Declares n → D n) :
    Leaves (evalEach below fs σ) m fun r m' => Evolves D σ m r.2 m' := by
  induction fs generalizing σ m with
  | nil => exact .pure (.refl σ m)
  | cons f fs ih =>
    obtain ⟨hf, hfs⟩ := List.forall_mem_cons.1 hD
    refine .bind (inner_leaves hbelow (.form f) hf σ m) ?_
    rintro ⟨v, σ₁⟩ m₁ _ hfirst
    refine .bind (ih hfs (σ := σ₁)) ?_
    rintro ⟨vs, σ₂⟩ m₂ _ hrest
    exact .pure (hfirst.trans hrest)

/-- What a body declares goes with its scope; the cells stay. -/
theorem evalBody_leaves (leading : List Form) (last : Form) :
    Leaves (evalBody below leading last σ) m fun _ m' => m.Settles m' := by
  induction leading generalizing σ m with
  | nil =>
    refine .bind (hbelow (.form last) σ m) ?_
    rintro ⟨v, σ₁⟩ m₁ _ hlast
    exact .pure hlast.settles
  | cons f fs ih =>
    refine .bind (hbelow (.form f) σ m) ?_
    rintro ⟨v, σ₁⟩ m₁ _ hf
    refine (ih (σ := σ₁)).weaken ?_
    intro _ m₂ hkeeps hsettles
    exact hf.settles.trans hkeeps hsettles

/-- **A call.** The scope of the closure, the parameters and the body all stay inside. -/
theorem call_leaves (site : Form) (c : Closure) (args : List Value) :
    Leaves (call below site c args) m fun _ m' => m.Settles m' := by
  -- both kinds of parameters lead to the same two steps
  have hbody : ∀ bindings m₁, m.Keeps m₁ → m₁ = m →
      Leaves (bindEach bindings c.scope >>= evalBody below c.body.leading c.body.last) m₁
        fun _ m' => m.Settles m' := by
    rintro bindings m₁ _ rfl
    refine .bind (bindEach_leaves bindings) ?_
    intro σ₁ m₂ _ hparams
    refine (evalBody_leaves hbelow _ _).weaken ?_
    intro _ m₃ hkeeps hsettles
    exact hparams.trans hkeeps hsettles
  unfold call
  dsimp only
  split
  · split
    · exact .bind (.pure rfl) hbody
    · exact .bind (.throw _) hbody
  · exact .bind (.pure rfl) hbody

theorem apply_leaves (site head : Form) (args : List Form)
    (hD : ∀ f ∈ head :: args, ∀ n, (Job.form f).Declares n → D n) :
    Leaves (apply below site head args σ) m fun r m' => Evolves D σ m r.2 m' := by
  obtain ⟨hhead, hargs⟩ := List.forall_mem_cons.1 hD
  refine .bind (inner_leaves hbelow (.form head) hhead σ m) ?_
  rintro ⟨callee, σ₁⟩ m₁ _ hcallee
  refine .bind (evalEach_leaves hbelow args hargs) ?_
  rintro ⟨values, σ₂⟩ m₂ _ hvalues
  cases callee with
  | closure c =>
    refine .bind (call_leaves hbelow site c values) ?_
    intro v m₃ hkeeps hsettles
    exact .pure ((hcallee.trans hvalues).later hkeeps hsettles)
  | literal l => exact .throw _
  | symbol n => exact .throw _
  | list vs => exact .throw _

/-- **A special form**, one case for each that evaluation knows. -/
theorem evalSpecial_leaves {f : Form} {s : Special} (hf : f.Reads s) :
    Leaves (evalSpecial below f s σ) m fun r m' => Evolves (Job.form f).Declares σ m r.2 m' := by
  have hinner : ∀ job ∈ s.evaluated, ∀ n, job.Declares n → (Job.form f).Declares n := by
    intro job hjob n hn
    exact .inside (hf.evaluated_eq ▸ hjob) hn
  cases s with
  | var name init =>
    refine .bind (.alloc none) ?_
    rintro cell m₁ hkeeps₁ ⟨rfl, rfl⟩
    have hsize₁ := Memory.size_push m none
    refine .bind (inner_leaves hbelow (.form init) (hinner _ (by simp [Special.evaluated])) _ _) ?_
    rintro ⟨v, σ₂⟩ m₂ _ hinit
    refine .bind (.write _ v) ?_
    rintro _ m₃ hkeeps₃ ⟨hsize₃, hfull⟩
    -- whatever the first value has done to the cell, it is full from here on
    have hwritten := hinit.later hkeeps₃ (Memory.settles_of_size_eq hsize₃)
    exact .pure (hwritten.declare (.var hf) hkeeps₁ hsize₁ hfull)
  | fn params body =>
    refine .bind .stamp ?_
    intro stamp m₁ hkeeps hsettles
    exact .pure ((Evolves.refl σ m).later hkeeps hsettles)
  | assign target value =>
    cases target with
    | property access => exact .throw _
    | name name =>
      simp only [evalSpecial]
      split
      · exact .throw _
      · refine .bind (inner_leaves hbelow (.form value) (hinner _ (by simp [Special.evaluated])) σ m) ?_
        rintro ⟨v, σ₁⟩ m₁ _ hvalue
        refine .bind (.write _ v) ?_
        rintro _ m₂ hkeeps ⟨hsize, -⟩
        exact .pure (hvalue.later hkeeps (Memory.settles_of_size_eq hsize))
  | conditional test consequent alternative =>
    refine .bind (inner_leaves hbelow (.form test) (hinner _ (by simp [Special.evaluated])) σ m) ?_
    rintro ⟨v, σ₁⟩ m₁ _ htest
    -- the branch that runs is one of the two
    have hbranch : Job.form (if v.isTruthy then consequent else alternative) ∈
        (Special.conditional test consequent alternative).evaluated := by
      cases v.isTruthy <;> simp [Special.evaluated]
    refine (inner_leaves hbelow _ (hinner _ hbranch) σ₁ m₁).weaken ?_
    intro r m₂ _ hrun
    exact htest.trans hrun
  | quote datum => exact .pure (.refl σ m)
  | quasiquote template =>
    exact inner_leaves hbelow (.template template) (hinner _ (by simp [Special.evaluated])) σ m
  | list items =>
    refine .bind (evalEach_leaves hbelow items fun g hg => hinner _ (List.mem_map_of_mem hg)) ?_
    rintro ⟨vs, σ₁⟩ m₁ _ hitems
    exact .pure hitems
  | unquote | unquoteSplicing | member | object | importModules | defineSyntax | syntaxRules => exact .throw _

theorem evalForm_leaves (f : Form) :
    Leaves (evalForm below f σ) m fun r m' => Evolves (Job.form f).Declares σ m r.2 m' := by
  unfold evalForm
  cases hs : f.shape with
  | literal l => exact .pure (.refl σ m)
  | name name =>
    refine .bind (lookup_leaves f name) ?_
    rintro v m₁ _ rfl
    exact .pure (.refl σ m₁)
  | empty => exact .throw _
  | special k args =>
    refine .bind (.ofExcept (P := fun s m₁ => f.Reads s ∧ m₁ = m) ?_) ?_
    · intro s hspecial
      exact ⟨⟨k, args, hs, hspecial⟩, rfl⟩
    · rintro s m₁ _ ⟨hf, rfl⟩
      exact evalSpecial_leaves hbelow hf
  | access key args =>
    refine .bind (.ofExcept (P := fun _ _ => True) fun _ _ => trivial) ?_
    intro _ _ _ _
    exact .throw _
  | application head args =>
    refine apply_leaves hbelow f head args ?_
    intro g hg n hn
    exact .inside (Form.evaluated_application hs ▸ List.mem_map_of_mem hg) hn

/-- What is unquoted or spliced is a form of its own, in the scope of the template. -/
theorem unquoted_leaves {t : Form} {k : Keyword} {args : List Form} (hk : k = .unquote ∨ k = .unquoteSplicing)
    (hs : t.special? = some (k, args)) :
    Leaves (Eval.ofExcept (Special.quoted k t args) >>= fun inner => below (.form inner) σ) m fun r m' =>
      Evolves (Job.template t).Declares σ m r.2 m' := by
  refine .bind (.ofExcept (P := fun inner m₁ => args = [inner] ∧ m₁ = m) ?_) ?_
  · intro inner hq
    exact ⟨Special.quoted_eq_ok hq, rfl⟩
  · rintro inner m₁ _ ⟨rfl, rfl⟩
    refine inner_leaves hbelow (.form inner) (fun n hn => ?_) σ m₁
    exact .inside (Form.evaluated_unquoted hk hs ▸ List.mem_cons_self) hn

theorem rebuildItem_leaves (item : Form) :
    Leaves (rebuildItem below item σ) m fun r m' => Evolves (Job.template item).Declares σ m r.2 m' := by
  unfold rebuildItem
  split
  · rename_i args hs
    rw [← bind_assoc]
    refine .bind (unquoted_leaves hbelow (Or.inr rfl) hs) ?_
    rintro ⟨v, σ₁⟩ m₁ _ hinner
    cases v with
    | list vs => exact .pure hinner
    | literal l => exact .throw _
    | symbol n => exact .throw _
    | closure c => exact .throw _
  · refine .bind (hbelow (.template item) σ m) ?_
    rintro ⟨v, σ₁⟩ m₁ _ hitem
    exact .pure hitem

theorem rebuildEach_leaves (items : List Form) (hD : ∀ t ∈ items, ∀ n, (Job.template t).Declares n → D n) :
    Leaves (rebuildEach below items σ) m fun r m' => Evolves D σ m r.2 m' := by
  induction items generalizing σ m with
  | nil => exact .pure (.refl σ m)
  | cons item items ih =>
    obtain ⟨hitem, hitems⟩ := List.forall_mem_cons.1 hD
    refine .bind (rebuildItem_leaves hbelow item) ?_
    rintro ⟨vs, σ₁⟩ m₁ _ hfirst
    refine .bind (ih hitems (σ := σ₁)) ?_
    rintro ⟨ws, σ₂⟩ m₂ _ hrest
    exact .pure ((hfirst.mono hitem).trans hrest)

theorem rebuild_leaves (t : Form) :
    Leaves (rebuild below t σ) m fun r m' => Evolves (Job.template t).Declares σ m r.2 m' := by
  unfold rebuild
  split
  · rename_i args hs
    exact unquoted_leaves hbelow (Or.inl rfl) hs
  · exact .throw _
  · rename_i hunquote hsplice
    have hplain : t.PlainTemplate := fun args => ⟨hunquote args, hsplice args⟩
    split
    · rename_i items
      have hitems : ∀ g ∈ items, ∀ n, (Job.template g).Declares n → (Job.template (.list items)).Declares n := by
        intro g hg n hn
        exact .inside (hplain.evaluated_eq ▸ List.mem_map_of_mem hg) hn
      refine .bind (rebuildEach_leaves hbelow items hitems) ?_
      rintro ⟨vs, σ₁⟩ m₁ _ hrebuilt
      exact .pure hrebuilt
    · exact .pure (.refl σ m)

/-- **One level accounts for its jobs if the levels below do.** -/
theorem layer_leaves : Accounts (layer below) := by
  intro job σ m
  cases job with
  | form f => exact evalForm_leaves hbelow f
  | template t => exact rebuild_leaves hbelow t

end

/-! ## All levels, and programs -/

theorem perform_leaves (limit levels : Nat) : Accounts (perform limit levels) := by
  induction levels with
  | zero => exact fun _ _ _ => .throw _
  | succ levels ih => exact layer_leaves ih

/-- A program settles its memory form by form. -/
theorem runAll_leaves (limit : Nat) (forms : List Form) (v : Option Value) (σ : Scope) (m : Memory) :
    Leaves (runAll limit v forms σ) m fun _ m' => m.Settles m' := by
  induction forms generalizing v σ m with
  | nil => exact .pure (Memory.settles_of_size_eq rfl)
  | cons f fs ih =>
    refine .bind (.ofExcept (P := fun _ m₁ => m₁ = m) fun _ _ => rfl) ?_
    rintro _ m₁ _ rfl
    refine .bind (perform_leaves limit limit (.form f) σ m₁) ?_
    rintro ⟨w, σ₁⟩ m₂ _ hf
    refine (ih (some w) σ₁ m₂).weaken ?_
    intro _ m₃ hkeeps hsettles
    exact hf.settles.trans hkeeps hsettles

/-- **No cell is lost or emptied by a program, however it ends.** If it succeeds, then all cells that it has
made hold values. -/
theorem evaluate_settles_cells (ev : Evaluator) (forms : List Form) (σ : Scope) :
    ev.memory.size ≤ (ev.evaluate forms σ).2.memory.size ∧
      (∀ cell, ev.memory.Full cell → (ev.evaluate forms σ).2.memory.Full cell) ∧
      ∀ r, (ev.evaluate forms σ).1 = .ok r → ∀ cell : CellId, ev.memory.size ≤ cell.index →
        cell.index < (ev.evaluate forms σ).2.memory.size → (ev.evaluate forms σ).2.memory.Full cell := by
  have hleaves := runAll_leaves ev.maxDepth forms none σ ev.memory
  refine ⟨hleaves.keeps.size, fun cell hfull => hleaves.keeps.full hfull, ?_⟩
  intro r hr
  exact hleaves.ok r hr

/-- A cell with `#t`, and one that an earlier program has left empty. -/
def halfSetMemory : Memory where
  store := ⟨#[some (.literal (.boolean true)), none]⟩
  closures := 0

/-- `(var x (list (var g (fn () (set! x y))) (g)))` -/
def earlyAssignment : List Form :=
  [.list [.symbol "var", .symbol "x", .list [.symbol "list",
    .list [.symbol "var", .symbol "g", .list [.symbol "fn", .list [],
      .list [.symbol "set!", .symbol "x", .symbol "y"]]],
    .list [.symbol "g"]]]]

/-- A closure over `x` is made and called, and assigns to `x`, before `x` has its first value. -/
theorem evaluate_settles_cells_earlyAssignment : ∃ ev r,
    (Evaluator.mk 8 halfSetMemory).evaluate earlyAssignment (Scope.bind .empty "y" ⟨0⟩) = (.ok r, ev) ∧
      ev.memory.size = 4 ∧ ev.memory.Full ⟨0⟩ ∧ ev.memory.Full ⟨2⟩ ∧ ev.memory.Full ⟨3⟩ := by
  obtain ⟨-, hfull, hsettled⟩ :=
    evaluate_settles_cells ⟨8, halfSetMemory⟩ earlyAssignment (Scope.bind .empty "y" ⟨0⟩)
  have hok : ((Evaluator.mk 8 halfSetMemory).evaluate earlyAssignment
      (Scope.bind .empty "y" ⟨0⟩)).1.isOk = true := by decide +kernel
  have hsize : ((Evaluator.mk 8 halfSetMemory).evaluate earlyAssignment
      (Scope.bind .empty "y" ⟨0⟩)).2.memory.size = 4 := by decide +kernel
  obtain ⟨r, hr⟩ := exists_eq_ok_of_isOk hok
  refine ⟨_, r, Prod.ext hr rfl, hsize, hfull ⟨0⟩ ⟨_, rfl⟩, ?_, ?_⟩
  · exact hsettled r hr ⟨2⟩ (by decide) (by rw [hsize]; decide)
  · exact hsettled r hr ⟨3⟩ (by decide) (by rw [hsize]; decide)

/-- **Scoping is lexical.** Behind a form each name is bound as before, or the form declares it in its own scope
and it is bound to a cell made on the way. So no binding is lost, and a form that declares nothing leaves the
scope as it is, whatever its calls bind inside. -/
theorem scoping_is_lexical {limit levels : Nat} {f : Form} {σ σ' : Scope} {m m' : Memory} {v : Value}
    (h : (perform limit levels (.form f) σ).outcome m = (.ok (v, σ'), m')) :
    (∀ n, σ'.find? n = σ.find? n ∨ (Job.form f).Declares n ∧
        ∃ cell, σ'.find? n = some cell ∧ m.size ≤ cell.index ∧ cell.index < m'.size) ∧
      (∀ n cell, σ.find? n = some cell → ∃ cell', σ'.find? n = some cell') ∧
      ((∀ n, ¬(Job.form f).Declares n) → σ' = σ) := by
  have hok := (perform_leaves limit levels (.form f) σ m).ok
  rw [h] at hok
  have hbinds := (hok (v, σ') rfl).binds
  refine ⟨hbinds, ?_, ?_⟩
  · intro n cell hcell
    rcases hbinds n with hsame | ⟨-, cell', hcell', -⟩
    · exact ⟨cell, hsame.trans hcell⟩
    · exact ⟨cell', hcell'⟩
  · intro hnone
    apply Scope.ext_find?
    intro n
    exact (hbinds n).resolve_right fun hn => hnone n hn.1

/-- The closure `(fn (y) (var z y) z)`, and a cell with `#t`. -/
def localMemory : Memory where
  store := ⟨#[some (.closure ⟨0, .fixed ["y"],
      ⟨[.list [.symbol "var", .symbol "z", .symbol "y"]], .symbol "z"⟩, .empty⟩),
    some (.literal (.boolean true))]⟩
  closures := 1

/-- The closure of `localMemory` as `g`, and its other cell as `x`. -/
def localScope : Scope := Scope.bind (Scope.bind .empty "g" ⟨0⟩) "x" ⟨1⟩

/-- `(var x (g g))` -/
def shadowingCall : Form :=
  .list [.symbol "var", .symbol "x", .list [.symbol "g", .symbol "g"]]

theorem not_declares_symbol (name n : String) : ¬(Job.form (.symbol name)).Declares n := by
  intro h
  cases h with
  | var h =>
    obtain ⟨_, _, hs, _⟩ := h
    cases hs
  | inside hi h => cases hi

/-- The call declares nothing, so the declaration around it is the only one. -/
theorem eq_of_declares_shadowingCall {n : String} (h : (Job.form shadowingCall).Declares n) : n = "x" := by
  cases h with
  | var h =>
    obtain ⟨_, _, hs, hread⟩ := h
    cases hs
    cases hread
    rfl
  | inside hi h =>
    cases List.mem_singleton.1 hi
    cases h with
    | var h =>
      obtain ⟨_, _, hs, _⟩ := h
      cases hs
    | inside hi h =>
      rcases List.mem_pair.1 hi with rfl | rfl
      · exact absurd h (not_declares_symbol "g" n)
      · exact absurd h (not_declares_symbol "g" n)

/-- A call, and a declaration of a name that is bound: the names inside the closure stay there, and `x` gets a
cell of its own. -/
theorem scoping_is_lexical_shadowingCall : ∃ v σ' m',
    (perform 8 8 (.form shadowingCall) localScope).outcome localMemory = (.ok (v, σ'), m') ∧
      σ'.find? "g" = some ⟨0⟩ ∧ σ'.find? "y" = none ∧ σ'.find? "z" = none ∧
      ∃ cell, σ'.find? "x" = some cell ∧ 2 ≤ cell.index := by
  have hok : ((perform 8 8 (.form shadowingCall) localScope).outcome localMemory).1.isOk = true := by
    decide +kernel
  have hx : ((perform 8 8 (.form shadowingCall) localScope).outcome localMemory).1.toOption.all
      (fun r => r.2.find? "x" ≠ localScope.find? "x") = true := by decide +kernel
  obtain ⟨⟨v, σ'⟩, hr⟩ := exists_eq_ok_of_isOk hok
  rw [hr] at hx
  have h : (perform 8 8 (.form shadowingCall) localScope).outcome localMemory = (.ok (v, σ'), _) :=
    Prod.ext hr rfl
  obtain ⟨hbinds, -, -⟩ := scoping_is_lexical h
  have hsame : ∀ n, n ≠ "x" → σ'.find? n = localScope.find? n := by
    intro n hn
    exact (hbinds n).resolve_right fun hdeclared => hn (eq_of_declares_shadowingCall hdeclared.1)
  have hmoved : σ'.find? "x" ≠ localScope.find? "x" := of_decide_eq_true hx
  obtain ⟨-, cell, hcell, hge, -⟩ := (hbinds "x").resolve_left hmoved
  refine ⟨v, σ', _, h, ?_, ?_, ?_, cell, hcell, hge⟩
  · rw [hsame "g" (by decide)]; decide +kernel
  · rw [hsame "y" (by decide)]; decide +kernel
  · rw [hsame "z" (by decide)]; decide +kernel

end Evaluator

end HostLisp
