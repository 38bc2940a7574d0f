import HostLisp.Proofs.Scoping

/-!
# Sessions with one evaluator

An evaluator is used again and again: programs are run in scopes that earlier runs have given, names are
bound to values from outside, and runs fail midway. Through all of that, scopes and closures stay *good*:
their cells exist, and no two names share a cell. So a run never meets a cell that its store does not
have. The one internal error that is left says that no cell can be made any more.

Any job may be asked for here, so the rules of scoping are used with nothing known about names: every
failure is tolerated but an internal one (`anyJob_admits`).

* `Scope.Good`, `Closure.Good`, `Memory.Good`: what stays true.
* `Session`: the calls on one evaluator, with the scopes and values that it has given.
* `evaluate_good`, `bind_good`: **what one call keeps**, whether it succeeds or fails.
* `session_good`: what any sequence of calls keeps.
-/

namespace HostLisp

/-- The cells of a scope exist, and no two names share one. -/
structure Scope.Good (n : Nat) (σ : Scope) : Prop where
  lt : ∀ {name cell}, Scope.find? σ name = some cell → cell.index < n
  injective : ∀ {a b cell}, Scope.find? σ a = some cell → Scope.find? σ b = some cell → a = b

/-- A closure has something to run, and a good scope. -/
structure Closure.Good (n : Nat) (c : Closure) : Prop where
  body : c.body.forms ≠ []
  scope : Scope.Good n c.scope

/-- Every closure in a cell is good. -/
def Memory.Good (m : Memory) : Prop :=
  ∀ {cell v}, m.store.content? cell = some (some v) → ∀ c ∈ v.closures, c.Good m.size

/-- An error is not a breach of the rules between the parts of the library. -/
def Error.NotInternal (e : Error) : Prop := ∀ f, e.cause ≠ .internal f

namespace Scope.Good

variable {n n' : Nat} {σ : Scope}

theorem mono (h : Scope.Good n σ) (hn : n ≤ n') : Scope.Good n' σ :=
  ⟨fun hf => Nat.lt_of_lt_of_le (h.lt hf) hn, h.injective⟩

theorem empty (n : Nat) : Scope.Good n .empty := by
  constructor <;> intro _ _ <;> simp

theorem bind (h : Scope.Good n σ) (name : String) : Scope.Good (n + 1) (Scope.bind σ name ⟨n⟩) := by
  -- the newest cell is in no scope yet
  have hnew : ∀ other, Scope.find? σ other ≠ some ⟨n⟩ := by
    intro other hf
    exact Nat.lt_irrefl n (h.lt hf)
  constructor
  · intro other cell hf
    rw [Scope.find?_bind] at hf
    split at hf
    · cases hf; exact Nat.lt_succ_self n
    · exact Nat.lt_succ_of_lt (h.lt hf)
  · intro a b cell ha hb
    rw [Scope.find?_bind] at ha hb
    split at ha <;> split at hb
    · simp_all
    · cases ha; exact absurd hb (hnew b)
    · cases hb; exact absurd ha (hnew a)
    · exact h.injective ha hb

end Scope.Good

theorem Closure.Good.mono {n n' : Nat} {c : Closure} (h : c.Good n) (hn : n ≤ n') : c.Good n' :=
  ⟨h.body, h.scope.mono hn⟩

namespace Evaluator

/-! ## Any job, with nothing known about names -/

/-- Good scopes, which may reach any cell. -/
def goodScopes : ScopeRule where
  own _ := True
  scope := Scope.Good
  mono hn h := h.mono hn
  bind name h := h.bind name
  cell h hf := ⟨trivial, h.lt hf⟩

/-- Every job, with no names asked for. -/
def AnyJob : Admission := fun S _ S' => S = ∅ ∧ S' = ∅

theorem anyJob_each (fs : List Form) : AdmitsEach AnyJob ∅ fs ∅ := by
  induction fs with
  | nil => exact .nil ∅
  | cons f fs ih => exact .cons ⟨rfl, rfl⟩ ih

theorem anyJob_body (params : Parameters) (body : Body) : AdmitsBody AnyJob ∅ params body :=
  ⟨∅, ∅, ∅, Set.empty_subset _, anyJob_each _, rfl, rfl⟩

theorem notInternal_of_checks {α : Type} {x : Except Error α} {e : Error} (h : Special.Checks x)
    (he : x = .error e) : e.NotInternal := by
  obtain ⟨f, hf⟩ := h e he
  intro g hg
  rw [hf] at hg; cases hg

theorem anyJob_item (item : Form) : AdmitsItem Error.NotInternal AnyJob ∅ item ∅ := by
  by_cases hs : ∃ args, item.special? = some (.unquoteSplicing, args)
  · obtain ⟨args, hs⟩ := hs
    cases hq : Special.quoted .unquoteSplicing item args with
    | ok inner => exact .splice hs hq ⟨rfl, rfl⟩
    | error e =>
      refine .fault (e := e) ?_ (notInternal_of_checks (Special.checks_quoted _ _ _) hq)
      intro below σ
      simp only [rebuildItem, hs, hq]
      rfl
  · exact .item (fun args h => hs ⟨args, h⟩) ⟨rfl, rfl⟩

theorem anyJob_items (items : List Form) : Chain (AdmitsItem Error.NotInternal AnyJob) ∅ items ∅ := by
  induction items with
  | nil => exact .nil ∅
  | cons item items ih => exact .cons (anyJob_item item) ih

/-- A special form fails at once with an error that is not internal, or is admitted. -/
theorem anyJob_special {f : Form} {s : Special} (h : f.Reads s) :
    Admits Error.NotInternal AnyJob ∅ (.form f) ∅ := by
  have hfault : ∀ cause, (∀ g, cause ≠ .internal g) →
      (∀ below σ, evalSpecial below f s σ = .fail f cause) →
      Admits Error.NotInternal AnyJob ∅ (.form f) ∅ := by
    intro cause hcause hs
    refine .fault (e := .raised f cause) ?_ hcause
    intro below σ
    rw [layer, evalForm_of_reads h, hs]; rfl
  cases s with
  | var n init => exact .var h (Set.empty_subset _) ⟨rfl, rfl⟩
  | fn params body => exact .fn h (anyJob_body params body)
  | assign target value =>
    cases target with
    | name n => exact .assign h (fun _ g hg => by cases hg) ⟨rfl, rfl⟩
    | property access => exact hfault _ (fun g hg => by cases hg) fun _ _ => rfl
  | conditional t c a => exact .conditional h ⟨rfl, rfl⟩ ⟨rfl, rfl⟩ ⟨rfl, rfl⟩
  | quote datum => exact .quote h
  | quasiquote t => exact .quasiquote h ⟨rfl, rfl⟩
  | list items => exact .list h (anyJob_each items)
  | unquote | unquoteSplicing | member | object | importModules | defineSyntax | syntaxRules =>
    exact hfault _ (fun g hg => by cases hg) fun _ _ => rfl

theorem anyJob_template (t : Form) : Admits Error.NotInternal AnyJob ∅ (.template t) ∅ := by
  by_cases hu : ∃ args, t.special? = some (.unquote, args)
  · obtain ⟨args, hu⟩ := hu
    cases hq : Special.quoted .unquote t args with
    | ok inner => exact .unquote hu hq ⟨rfl, rfl⟩
    | error e =>
      refine .fault (e := e) ?_ (notInternal_of_checks (Special.checks_quoted _ _ _) hq)
      intro below σ
      simp only [layer, rebuild, hu, hq]; rfl
  by_cases hs : ∃ args, t.special? = some (.unquoteSplicing, args)
  · obtain ⟨args, hs⟩ := hs
    refine .fault (e := .raised t (.misplaced .outsideList)) ?_ fun g hg => by cases hg
    intro below σ
    simp only [layer, rebuild, hs]; rfl
  cases t with
  | list items =>
    exact .templateList (fun args => ⟨fun h => hu ⟨args, h⟩, fun h => hs ⟨args, h⟩⟩) (anyJob_items items)
  | literal l => exact .templateAtom fun items h => by cases h
  | symbol n => exact .templateAtom fun items h => by cases h

/-- **Every job keeps the rules of scoping, if all but internal errors are tolerated.** -/
theorem anyJob_admits {S S' : Set String} {job : Job} (h : AnyJob S job S') :
    Admits Error.NotInternal AnyJob S job S' := by
  obtain ⟨rfl, rfl⟩ := h
  cases job with
  | form f =>
    -- a form that no rule fits is refused by every performer alike
    cases hs : f.shape with
    | literal l => exact .literal hs
    | name n => exact .name hs fun _ g hg => by cases hg
    | empty =>
      refine .fault (e := .raised f .emptyApplication) ?_ fun g hg => by cases hg
      intro below σ
      simp only [layer, evalForm, hs]; rfl
    | special k args =>
      cases ha : Special.ofArguments f k args with
      | ok s => exact anyJob_special ⟨k, args, hs, ha⟩
      | error e =>
        refine .fault (e := e) ?_ (notInternal_of_checks (Special.checks_ofArguments _ _ _) ha)
        intro below σ
        simp only [layer, evalForm, hs, ha]; rfl
    | access key args =>
      cases ha : Special.propertyArguments f args with
      | ok r =>
        refine .fault (e := .raised f (.misplaced (.hostObject ("." ++ key)))) ?_ fun g hg => by cases hg
        intro below σ
        simp only [layer, evalForm, hs, ha]; rfl
      | error e =>
        refine .fault (e := e) ?_ (notInternal_of_checks (Special.checks_propertyArguments _ _) ha)
        intro below σ
        simp only [layer, evalForm, hs, ha]; rfl
    | application head args => exact .application hs ⟨rfl, rfl⟩ (anyJob_each args)
  | template t => exact anyJob_template t

/-! ## One call -/

theorem good_goodScopes {n : Nat} {c : Closure} : (goodScopes.realm AnyJob).good n c ↔ c.Good n := by
  constructor
  · intro h
    exact ⟨by simp [Body.forms], h.1⟩
  · intro h
    exact ⟨h.scope, ∅, fun _ hn => absurd hn (Set.notMem_empty _), anyJob_body _ _⟩

theorem holds_goodScopes {m : Memory} : (goodScopes.realm AnyJob).Holds m ↔ m.Good := by
  constructor
  · intro h cell v hv c hc
    exact good_goodScopes.1 (h trivial hv c hc)
  · intro h cell v _ hv c hc
    exact good_goodScopes.2 (h hv c hc)

theorem goodValue_goodScopes {n : Nat} {v : Value} :
    (goodScopes.realm AnyJob).GoodValue n v ↔ ∀ c ∈ v.closures, c.Good n :=
  forall₂_congr fun _ _ => good_goodScopes

/-- **A program keeps a good memory good**, whether it succeeds or fails, and fails with no internal
error while there are cells left. -/
theorem evaluate_good (ev : Evaluator) (forms : List Form) {σ : Scope} (hm : ev.memory.Good)
    (hσ : Scope.Good ev.memory.size σ) :
    (goodScopes.realm AnyJob).Runs Error.NotInternal (runAll ev.maxDepth none forms σ) ev.memory
      fun r m => (∀ v, r.1 = some v → ∀ c ∈ v.closures, c.Good m.size) ∧ Scope.Good m.size r.2 := by
  have hdyn : ∀ e : Error, e.cause.Dynamic ev.maxDepth → e.NotInternal := by
    intro e he f hf
    rw [hf] at he; cases he
  have hnest : ∀ f ∈ forms, ∀ e, f.checkNesting Form.nestingLimit = .error e → e.NotInternal := by
    intro f _ e he g hg
    unfold Form.checkNesting at he
    split at he
    · cases he; cases hg
    · cases he
  have hσ' : goodScopes.Suits ∅ ev.memory.size σ := ⟨hσ, fun _ hn => absurd hn (Set.notMem_empty _)⟩
  have hruns := runAll_runs hdyn anyJob_admits hnest (anyJob_each forms) (v := none) (by simp) hσ'
    (holds_goodScopes.2 hm)
  refine hruns.weaken ?_
  rintro ⟨v, σ'⟩ m ⟨hv, hs⟩
  exact ⟨fun w hw => goodValue_goodScopes.1 (hv w hw), hs.scope⟩

theorem bind_eq_ok {ev : Evaluator} (h : ev.memory.size < Store.capacity) (σ : Scope) (name : String) (v : Value) :
    ev.bind σ name v = (.ok (Scope.bind σ name ⟨ev.memory.size⟩),
      { ev with memory := { ev.memory with store := ev.memory.store.push (some v) } }) := by
  have halloc : ev.memory.store.alloc (some v) = .ok (⟨ev.memory.size⟩, ev.memory.store.push (some v)) := if_pos h
  rw [bind, halloc]

theorem bind_eq_error {ev : Evaluator} (h : Store.capacity ≤ ev.memory.size) (σ : Scope) (name : String)
    (v : Value) : ev.bind σ name v = (.error Store.exhausted, ev) := by
  have halloc : ev.memory.store.alloc (some v) = .error Store.exhausted := if_neg (Nat.not_lt.2 h)
  rw [bind, halloc]

/-- **Binding a name to a good value keeps a good memory good**, and fails only if there is no cell left. -/
theorem bind_good (ev : Evaluator) {σ : Scope} (name : String) {v : Value} (hm : ev.memory.Good)
    (hσ : Scope.Good ev.memory.size σ) (hv : ∀ c ∈ v.closures, c.Good ev.memory.size) :
    (ev.bind σ name v).2.memory.Good ∧ ev.memory.size ≤ (ev.bind σ name v).2.memory.size ∧
      (∀ σ', (ev.bind σ name v).1 = .ok σ' → Scope.Good (ev.bind σ name v).2.memory.size σ') ∧
      ∀ e, (ev.bind σ name v).1 = .error e → ev.memory.Exhausts e := by
  rcases Nat.lt_or_ge ev.memory.size Store.capacity with hroom | hfull
  · have hsize := Memory.size_push ev.memory (some v)
    rw [bind_eq_ok hroom]
    refine ⟨?_, ?_, ?_, ?_⟩
    · intro cell w hw c hc
      rw [hsize]
      rw [Store.content?_push] at hw
      split at hw
      · cases hw; exact (hv c hc).mono (Nat.le_succ _)
      · exact (hm hw c hc).mono (Nat.le_succ _)
    · rw [hsize]; exact Nat.le_succ _
    · rintro σ' ⟨⟩
      rw [hsize]; exact hσ.bind name
    · rintro e ⟨⟩
  · rw [bind_eq_error hfull]
    refine ⟨hm, Nat.le_refl _, ?_, ?_⟩
    · rintro σ' ⟨⟩
    · rintro e ⟨⟩
      exact ⟨rfl, hfull⟩

/-! ## Sequences of calls -/

/-- What calls on one evaluator lead to: the evaluator, and the scopes and values it has given. A program
runs, and a name is bound, in no scope or in one that was given; a value that is bound has closures only
that were given. -/
inductive Session (limit : Nat) : Evaluator → List Scope → List Value → Prop
  | start : Session limit (.fresh limit) [.empty] []
  | evaluated {ev : Evaluator} {scopes : List Scope} {values : List Value} {forms : List Form}
      {σ σ' : Scope} {v : Option Value} (h : Session limit ev scopes values) (hσ : σ ∈ scopes)
      (he : (ev.evaluate forms σ).1 = .ok (v, σ')) :
      Session limit (ev.evaluate forms σ).2 (σ' :: scopes) (v.toList ++ values)
  | failed {ev : Evaluator} {scopes : List Scope} {values : List Value} {forms : List Form} {σ : Scope}
      {e : Error} (h : Session limit ev scopes values) (hσ : σ ∈ scopes)
      (he : (ev.evaluate forms σ).1 = .error e) : Session limit (ev.evaluate forms σ).2 scopes values
  | bound {ev : Evaluator} {scopes : List Scope} {values : List Value} {σ σ' : Scope} {v : Value}
      (h : Session limit ev scopes values) (hσ : σ ∈ scopes) (name : String)
      (hv : ∀ c ∈ v.closures, ∃ w ∈ values, c ∈ w.closures) (hb : (ev.bind σ name v).1 = .ok σ') :
      Session limit (ev.bind σ name v).2 (σ' :: scopes) values
  | unbound {ev : Evaluator} {scopes : List Scope} {values : List Value} {σ : Scope} {v : Value} {e : Error}
      (h : Session limit ev scopes values) (hσ : σ ∈ scopes) (name : String)
      (hv : ∀ c ∈ v.closures, ∃ w ∈ values, c ∈ w.closures) (hb : (ev.bind σ name v).1 = .error e) :
      Session limit (ev.bind σ name v).2 scopes values
  | got {ev : Evaluator} {scopes : List Scope} {values : List Value} {σ : Scope} {name : String} {v : Value}
      (h : Session limit ev scopes values) (hσ : σ ∈ scopes) (hg : ev.get? σ name = some v) :
      Session limit ev scopes (v :: values)

/-- A good memory, and good scopes and values that were given. -/
structure Kept (ev : Evaluator) (scopes : List Scope) (values : List Value) : Prop where
  memory : ev.memory.Good
  scopes : ∀ σ ∈ scopes, Scope.Good ev.memory.size σ
  values : ∀ v ∈ values, ∀ c ∈ v.closures, c.Good ev.memory.size

namespace Kept

variable {ev ev' : Evaluator} {scopes : List Scope} {values : List Value} {forms : List Form} {σ σ' : Scope}

/-- What was given stays good while memory grows. -/
theorem grow (h : Kept ev scopes values) (hm : ev'.memory.Good) (hn : ev.memory.size ≤ ev'.memory.size) :
    Kept ev' scopes values :=
  ⟨hm, fun σ hσ => (h.scopes σ hσ).mono hn, fun v hv c hc => (h.values v hv c hc).mono hn⟩

theorem cons_scope (h : Kept ev scopes values) (hσ : Scope.Good ev.memory.size σ) :
    Kept ev (σ :: scopes) values := by
  refine ⟨h.memory, ?_, h.values⟩
  intro τ hτ
  rcases List.mem_cons.1 hτ with rfl | hτ
  · exact hσ
  · exact h.scopes τ hτ

theorem append_values {vs : List Value} (h : Kept ev scopes values)
    (hv : ∀ v ∈ vs, ∀ c ∈ v.closures, c.Good ev.memory.size) : Kept ev scopes (vs ++ values) := by
  refine ⟨h.memory, h.scopes, ?_⟩
  intro v hm
  rcases List.mem_append.1 hm with hm | hm
  · exact hv v hm
  · exact h.values v hm

theorem evaluate (h : Kept ev scopes values) (hσ : σ ∈ scopes) (forms : List Form) :
    Kept (ev.evaluate forms σ).2 scopes values := by
  have hruns := evaluate_good ev forms h.memory (h.scopes σ hσ)
  exact h.grow (holds_goodScopes.1 hruns.holds) hruns.grows.size

theorem evaluate_ok {v : Option Value} (h : Kept ev scopes values) (hσ : σ ∈ scopes)
    (he : (ev.evaluate forms σ).1 = .ok (v, σ')) :
    Kept (ev.evaluate forms σ).2 (σ' :: scopes) (v.toList ++ values) := by
  obtain ⟨hv, hσ'⟩ := (evaluate_good ev forms h.memory (h.scopes σ hσ)).ok _ he
  exact ((h.evaluate hσ forms).cons_scope hσ').append_values fun w hw => hv w (Option.mem_toList.1 hw)

/-- A value whose closures were given is good. -/
theorem given {v : Value} (h : Kept ev scopes values) (hv : ∀ c ∈ v.closures, ∃ w ∈ values, c ∈ w.closures) :
    ∀ c ∈ v.closures, c.Good ev.memory.size := by
  intro c hc
  obtain ⟨w, hw, hcw⟩ := hv c hc
  exact h.values w hw c hcw

theorem bind {v : Value} (h : Kept ev scopes values) (hσ : σ ∈ scopes) (name : String)
    (hv : ∀ c ∈ v.closures, ∃ w ∈ values, c ∈ w.closures) : Kept (ev.bind σ name v).2 scopes values := by
  obtain ⟨hm, hsize, -⟩ := bind_good ev name h.memory (h.scopes σ hσ) (h.given hv)
  exact h.grow hm hsize

theorem bind_ok {v : Value} (h : Kept ev scopes values) (hσ : σ ∈ scopes) (name : String)
    (hv : ∀ c ∈ v.closures, ∃ w ∈ values, c ∈ w.closures) (hb : (ev.bind σ name v).1 = .ok σ') :
    Kept (ev.bind σ name v).2 (σ' :: scopes) values := by
  obtain ⟨-, -, hs, -⟩ := bind_good ev name h.memory (h.scopes σ hσ) (h.given hv)
  exact (h.bind hσ name hv).cons_scope (hs σ' hb)

theorem got {name : String} {v : Value} (h : Kept ev scopes values) (hg : ev.get? σ name = some v) :
    Kept ev scopes (v :: values) := by
  obtain ⟨cell, -, hg⟩ := Option.bind_eq_some_iff.1 hg
  obtain ⟨content, hc, rfl⟩ := Option.bind_eq_some_iff.1 hg
  have hv : ∀ w ∈ [v], ∀ c ∈ w.closures, c.Good ev.memory.size := by
    intro w hw
    rw [List.mem_singleton.1 hw]
    exact h.memory hc
  exact h.append_values hv

end Kept

theorem Session.kept {limit : Nat} {ev : Evaluator} {scopes : List Scope} {values : List Value}
    (h : Session limit ev scopes values) : Kept ev scopes values := by
  induction h with
  | start =>
    refine ⟨?_, ?_, by simp⟩
    · intro cell v hv
      simp [fresh, Memory.fresh, Store.empty, Store.content?] at hv
    · intro σ hσ
      rw [List.mem_singleton.1 hσ]
      exact .empty _
  | evaluated _ hσ he ih => exact ih.evaluate_ok hσ he
  | @failed _ _ _ forms _ _ _ hσ _ ih => exact ih.evaluate hσ forms
  | bound _ hσ name hv hb ih => exact ih.bind_ok hσ name hv hb
  | unbound _ hσ name hv _ ih => exact ih.bind hσ name hv
  | got _ _ hg ih => exact ih.got hg

/-- **Any sequence of calls on an evaluator**, failed ones included, leaves it in a good state, and the
scopes and closures it has given are good. No program that is run in such a scope, and no binding in one, meets an
internal error, unless all cells that there can be are there. -/
theorem session_good {limit : Nat} {ev : Evaluator} {scopes : List Scope} {values : List Value}
    (h : Session limit ev scopes values) :
    ev.memory.Good ∧ (∀ σ ∈ scopes, Scope.Good ev.memory.size σ) ∧
      (∀ v ∈ values, ∀ c ∈ v.closures, c.Good ev.memory.size) ∧
      (∀ forms, ∀ σ ∈ scopes, ∀ e, (ev.evaluate forms σ).1 = .error e →
        (∀ f, e.cause ≠ .internal f) ∨ (ev.evaluate forms σ).2.memory.Exhausts e) ∧
      ∀ σ ∈ scopes, ∀ name v, (∀ c ∈ v.closures, ∃ w ∈ values, c ∈ w.closures) →
        ∀ e, (ev.bind σ name v).1 = .error e → ev.memory.Exhausts e := by
  have hkept := h.kept
  refine ⟨hkept.memory, hkept.scopes, hkept.values, ?_, ?_⟩
  · intro forms σ hσ e he
    exact (evaluate_good ev forms hkept.memory (hkept.scopes σ hσ)).error e he
  · intro σ hσ name v hv
    exact (bind_good ev name hkept.memory (hkept.scopes σ hσ) (hkept.given hv)).2.2.2

/-- `(var f (fn (x) (f x)))` -/
def selfCall : List Form :=
  [.list [.symbol "var", .symbol "f",
    .list [.symbol "fn", .list [.symbol "x"], .list [.symbol "f", .symbol "x"]]]]

/-- A closure that is kept in a cell of its own scope. -/
theorem session_good_selfCall : ∃ v σ, ((fresh 8).evaluate selfCall .empty).1 = .ok (some v, σ) ∧
    v.closures.length = 1 ∧ ((fresh 8).evaluate selfCall .empty).2.memory.Good ∧
    Scope.Good ((fresh 8).evaluate selfCall .empty).2.memory.size σ ∧
    (∀ c ∈ v.closures, c.Good ((fresh 8).evaluate selfCall .empty).2.memory.size) ∧
    ∀ forms e, (((fresh 8).evaluate selfCall .empty).2.evaluate forms σ).1 = .error e →
      (∀ f, e.cause ≠ .internal f) ∨
        (((fresh 8).evaluate selfCall .empty).2.evaluate forms σ).2.memory.Exhausts e := by
  have h : (((fresh 8).evaluate selfCall .empty).1.toOption.bind Prod.fst).map (·.closures.length) =
      some 1 := by decide +kernel
  obtain ⟨v, hv, hlen⟩ := Option.map_eq_some_iff.1 h
  cases he : ((fresh 8).evaluate selfCall .empty).1 with
  | error e => rw [he] at hv; cases hv
  | ok r =>
    obtain ⟨w, σ⟩ := r
    rw [he] at hv
    change w = some v at hv
    subst hv
    obtain ⟨hm, hs, hvalues, hrun, -⟩ := session_good (.evaluated .start (List.mem_singleton_self _) he)
    exact ⟨v, σ, rfl, hlen, hm, hs σ List.mem_cons_self, hvalues v List.mem_cons_self,
      fun forms => hrun forms σ List.mem_cons_self⟩

end Evaluator

end HostLisp
