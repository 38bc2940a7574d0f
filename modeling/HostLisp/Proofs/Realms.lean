import HostLisp.Evaluator
import Mathlib.Data.List.Basic

/-!
# Realms

What an evaluation keeps, whether it succeeds or fails. A realm says which cells are its own and which
closures are good for a store of a given size. A run in a realm leaves cells that are not its own as they
were, and keeps the values in its own cells free of bad closures.

* `Value.closures`: the closures in a value, also inside nested lists.
* `Realm.Holds`: own cells hold good values. `Realm.Grows`: cells stay, and those not its own are as before.
* `Memory.Exhausts`: the failure to make a cell, behind which all cells are there.
* `Realm.Runs`: **a computation that keeps a realm**, fails only in ways that are tolerated or for want of
  cells, and has a property of its result. `Runs.bind` and the lemmas on memory are the rules by which
  evaluation is judged.
-/

namespace HostLisp

namespace Value

mutual

/-- The closures in a value. -/
def closures : Value → List Closure
  | .literal _ | .symbol _ => []
  | .list items => closuresEach items
  | .closure c => [c]

/-- The closures in some values. -/
def closuresEach : List Value → List Closure
  | [] => []
  | v :: vs => closures v ++ closuresEach vs

end

theorem closuresEach_append (vs ws : List Value) :
    closuresEach (vs ++ ws) = closuresEach vs ++ closuresEach ws := by
  induction vs with
  | nil => rfl
  | cons v vs ih => simp [closuresEach, ih]

mutual

theorem closures_ofForm : ∀ f : Form, (ofForm f).closures = []
  | .literal _ => rfl
  | .symbol _ => rfl
  | .list items => closuresEach_ofForms items

theorem closuresEach_ofForms : ∀ fs : List Form, closuresEach (ofForms fs) = []
  | [] => rfl
  | f :: fs => by simp [ofForms, closuresEach, closures_ofForm f, closuresEach_ofForms fs]

end

end Value

/-- How many cells a memory has. -/
def Memory.size (m : Memory) : Nat := m.store.size

theorem Memory.size_push (m : Memory) (content : Option Value) :
    Memory.size { m with store := m.store.push content } = m.size + 1 :=
  Store.size_push m.store content

/-- No cell can be made any more, and an error says so. -/
structure Memory.Exhausts (m : Memory) (e : Error) : Prop where
  error : e = Store.exhausted
  full : Store.capacity ≤ m.size

/-- What a computation gives on a memory, and the memory behind it. -/
def Eval.outcome {α : Type} (x : Eval α) (m : Memory) : Except Error α × Memory := x.run.run m

theorem Eval.outcome_alloc_ok {m : Memory} (h : m.size < Store.capacity) (content : Option Value) :
    (alloc content).outcome m = (.ok ⟨m.size⟩, { m with store := m.store.push content }) := by
  have halloc : m.store.alloc content = .ok (⟨m.size⟩, m.store.push content) := if_pos h
  change (ofExcept (m.store.alloc content) >>= fun r => do set { m with store := r.2 }; return r.1).outcome m = _
  rw [halloc]; rfl

theorem Eval.outcome_alloc_error {m : Memory} (h : Store.capacity ≤ m.size) (content : Option Value) :
    (alloc content).outcome m = (.error Store.exhausted, m) := by
  have halloc : m.store.alloc content = .error Store.exhausted := if_neg (Nat.not_lt.2 h)
  change (ofExcept (m.store.alloc content) >>= fun r => do set { m with store := r.2 }; return r.1).outcome m = _
  rw [halloc]; rfl

namespace Evaluator

/-- Own cells, and closures that are good for a store of a given size. -/
structure Realm where
  own : CellId → Prop
  good : Nat → Closure → Prop
  mono : ∀ {n n' : Nat} {c : Closure}, n ≤ n' → good n c → good n' c

namespace Realm

section

variable (F : Realm)

/-- All closures in a value are good. -/
def GoodValue (n : Nat) (v : Value) : Prop := ∀ c ∈ v.closures, F.good n c

/-- All closures in some values are good. -/
def GoodValues (n : Nat) (vs : List Value) : Prop := ∀ c ∈ Value.closuresEach vs, F.good n c

/-- Own cells hold good values. -/
def Holds (m : Memory) : Prop :=
  ∀ {cell : CellId} {v : Value}, F.own cell → m.store.content? cell = some (some v) → F.GoodValue m.size v

/-- Cells stay, and those that are not own hold what they held. -/
structure Grows (m m' : Memory) : Prop where
  size : m.size ≤ m'.size
  foreign : ∀ cell : CellId, ¬F.own cell → cell.index < m.size →
    m'.store.content? cell = m.store.content? cell

/-- **A computation keeps the realm**, has a property if it succeeds, and fails only as tolerated or for want of
cells. -/
structure Runs {α : Type} (tol : Error → Prop) (x : Eval α) (m : Memory) (P : α → Memory → Prop) : Prop where
  grows : F.Grows m (x.outcome m).2
  holds : F.Holds (x.outcome m).2
  ok : ∀ a, (x.outcome m).1 = .ok a → P a (x.outcome m).2
  error : ∀ e, (x.outcome m).1 = .error e → tol e ∨ (x.outcome m).2.Exhausts e

end

variable {F : Realm}

theorem GoodValue.mono {n n' : Nat} {v : Value} (h : F.GoodValue n v) (hn : n ≤ n') : F.GoodValue n' v :=
  fun c hc => F.mono hn (h c hc)

theorem GoodValues.mono {n n' : Nat} {vs : List Value} (h : F.GoodValues n vs) (hn : n ≤ n') :
    F.GoodValues n' vs :=
  fun c hc => F.mono hn (h c hc)

theorem goodValues_nil (n : Nat) : F.GoodValues n [] := by
  intro c hc; cases hc

theorem goodValues_cons {n : Nat} {v : Value} {vs : List Value} :
    F.GoodValues n (v :: vs) ↔ F.GoodValue n v ∧ F.GoodValues n vs := by
  simp [GoodValues, GoodValue, Value.closuresEach, or_imp, forall_and]

theorem goodValues_append {n : Nat} {vs ws : List Value} :
    F.GoodValues n (vs ++ ws) ↔ F.GoodValues n vs ∧ F.GoodValues n ws := by
  simp [GoodValues, Value.closuresEach_append, or_imp, forall_and]

theorem GoodValues.of_mem {n : Nat} {v : Value} {vs : List Value} (h : F.GoodValues n vs) (hv : v ∈ vs) :
    F.GoodValue n v := by
  induction vs with
  | nil => cases hv
  | cons w ws ih =>
    rw [goodValues_cons] at h
    rcases List.mem_cons.1 hv with rfl | hv
    · exact h.1
    · exact ih h.2 hv

theorem goodValue_literal (n : Nat) (l : Literal) : F.GoodValue n (.literal l) := by
  intro c hc; cases hc

theorem goodValue_ofForm (n : Nat) (f : Form) : F.GoodValue n (.ofForm f) := by
  intro c hc
  rw [Value.closures_ofForm] at hc
  cases hc

theorem goodValue_closure {n : Nat} {c : Closure} (h : F.good n c) : F.GoodValue n (.closure c) := by
  intro d hd
  rw [Value.closures, List.mem_singleton] at hd
  rw [hd]; exact h

theorem Grows.refl (m : Memory) : F.Grows m m := ⟨Nat.le_refl _, fun _ _ _ => rfl⟩

theorem Grows.trans {m m₁ m₂ : Memory} (h : F.Grows m m₁) (h' : F.Grows m₁ m₂) : F.Grows m m₂ := by
  refine ⟨Nat.le_trans h.size h'.size, ?_⟩
  intro cell ho hc
  rw [h'.foreign cell ho (Nat.lt_of_lt_of_le hc h.size), h.foreign cell ho hc]

/-- A new cell leaves all others alone. -/
theorem Grows.push (m : Memory) (content : Option Value) : F.Grows m { m with store := m.store.push content } := by
  refine ⟨by rw [Memory.size_push]; exact Nat.le_succ _, ?_⟩
  intro cell _ hc
  have hold : cell.index ≠ m.store.size := Nat.ne_of_lt hc
  rw [Store.content?_push, if_neg hold]

namespace Runs

variable {α β : Type} {tol : Error → Prop} {m : Memory}

theorem outcome_bind (x : Eval α) (f : α → Eval β) (m : Memory) :
    (x >>= f).outcome m = match x.outcome m with
      | (.ok a, m') => (f a).outcome m'
      | (.error e, m') => (.error e, m') := by
  simp only [Eval.outcome, ExceptT.run_bind, StateT.run_bind]
  rcases x.run.run m with ⟨r | r, m'⟩ <;> rfl

theorem pure {P : α → Memory → Prop} {a : α} (hm : F.Holds m) (h : P a m) :
    F.Runs tol (Pure.pure a) m P := by
  refine ⟨.refl m, hm, ?_, ?_⟩
  · intro b hb; cases hb; exact h
  · intro e he; cases he

/-- **Two computations one after the other.** -/
theorem bind {P : α → Memory → Prop} {Q : β → Memory → Prop} {x : Eval α} {f : α → Eval β}
    (hx : F.Runs tol x m P)
    (hf : ∀ a m', F.Grows m m' → F.Holds m' → P a m' → F.Runs tol (f a) m' Q) :
    F.Runs tol (x >>= f) m Q := by
  obtain ⟨hg, hm, hok, herr⟩ := hx
  have ho := outcome_bind x f m
  rcases hr : x.outcome m with ⟨e | a, m'⟩
  -- a failure ends the run with the memory it has reached
  · rw [hr] at ho hg hm herr
    simp only at ho
    refine ⟨?_, ?_, ?_, ?_⟩ <;> rw [ho]
    · exact hg
    · exact hm
    · intro b hb; cases hb
    · intro e' he; cases he; exact herr e rfl
  · rw [hr] at ho hg hm hok
    simp only at ho
    obtain ⟨hg', hm', hok', herr'⟩ := hf a m' hg hm (hok a rfl)
    refine ⟨?_, ?_, ?_, ?_⟩ <;> rw [ho]
    · exact hg.trans hg'
    · exact hm'
    · exact hok'
    · exact herr'

theorem weaken {P Q : α → Memory → Prop} {x : Eval α} (hx : F.Runs tol x m P)
    (h : ∀ a m', P a m' → Q a m') : F.Runs tol x m Q :=
  ⟨hx.grows, hx.holds, fun a ha => h a _ (hx.ok a ha), hx.error⟩

theorem throw {P : α → Memory → Prop} {e : Error} (hm : F.Holds m) (h : tol e) :
    F.Runs tol (MonadExcept.throw e : Eval α) m P := by
  refine ⟨.refl m, hm, ?_, ?_⟩
  · intro b hb; cases hb
  · intro e' he; cases he; exact .inl h

theorem ofExcept {P : α → Memory → Prop} {x : Except Error α} (hm : F.Holds m)
    (hok : ∀ a, x = .ok a → P a m) (herr : ∀ e, x = .error e → tol e) :
    F.Runs tol (Eval.ofExcept x) m P :=
  ⟨.refl m, hm, hok, fun e he => .inl (herr e he)⟩

/-! ### Memory -/

theorem alloc {content : Option Value} (hm : F.Holds m)
    (hv : ∀ v, content = some v → F.GoodValue m.size v) :
    F.Runs tol (Eval.alloc content) m fun cell m' => cell = ⟨m.size⟩ ∧ m'.size = m.size + 1 := by
  rcases Nat.lt_or_ge m.size Store.capacity with hroom | hfull
  · have ho := Eval.outcome_alloc_ok hroom content
    refine ⟨?_, ?_, ?_, ?_⟩ <;> rw [ho]
    · exact .push m content
    · intro cell v hown hc
      rw [Store.content?_push] at hc
      rw [Memory.size_push]
      split at hc
      · cases hc; exact (hv v rfl).mono (Nat.le_succ _)
      · exact (hm hown hc).mono (Nat.le_succ _)
    · intro cell hc; cases hc; exact ⟨rfl, Memory.size_push m content⟩
    · intro e he; cases he
  · have ho := Eval.outcome_alloc_error hfull content
    refine ⟨?_, ?_, ?_, ?_⟩ <;> rw [ho]
    · exact .refl m
    · exact hm
    · intro cell hc; cases hc
    · intro e he; cases he; exact .inr ⟨rfl, hfull⟩

theorem read {cell : CellId} (hm : F.Holds m) (hown : F.own cell) (hc : cell.index < m.size) :
    F.Runs tol (Eval.read cell) m fun content m' => ∀ v, content = some v → F.GoodValue m'.size v := by
  obtain ⟨content, hcontent⟩ : ∃ content, m.store.content? cell = some content :=
    ⟨_, Array.getElem?_eq_getElem hc⟩
  have ho : (Eval.read cell).outcome m = (.ok content, m) := by
    have hread : m.store.read cell = .ok content := by rw [Store.read, hcontent]
    change (m.store.read cell, m) = _
    rw [hread]
  refine ⟨?_, ?_, ?_, ?_⟩ <;> rw [ho]
  · exact .refl m
  · exact hm
  · intro a ha v hv
    cases ha; cases hv
    exact hm hown hcontent
  · intro e he; cases he

theorem write {cell : CellId} {v : Value} (hm : F.Holds m) (hown : F.own cell) (hc : cell.index < m.size)
    (hv : F.GoodValue m.size v) :
    F.Runs tol (Eval.write cell v) m fun _ m' => m'.size = m.size := by
  obtain ⟨store, hw⟩ : ∃ store, m.store.write cell v = .ok store := ⟨_, dif_pos hc⟩
  have ho : (Eval.write cell v).outcome m = (.ok (), { m with store }) := by
    change (Eval.ofExcept (m.store.write cell v) >>= fun store => set { m with store }).outcome m = _
    rw [hw]; rfl
  have hsize : Memory.size { m with store } = m.size := Store.size_write hw
  refine ⟨⟨?_, ?_⟩, ?_, ?_, ?_⟩ <;> rw [ho]
  · exact Nat.le_of_eq hsize.symm
  · intro other hother _
    -- the cell written is own, so it is another one
    have : other.index ≠ cell.index := by
      intro h
      have : other = cell := by cases other; cases cell; simp_all
      exact hother (this ▸ hown)
    rw [Store.content?_write hw, if_neg this]
  · intro other w hother hcontent
    rw [Store.content?_write hw] at hcontent
    rw [hsize]
    split at hcontent
    · cases hcontent; exact hv
    · exact hm hother hcontent
  · intro _ _; exact hsize
  · intro e he; cases he

theorem stamp (hm : F.Holds m) : F.Runs tol Eval.stamp m fun _ m' => m'.size = m.size := by
  refine ⟨⟨Nat.le_refl _, fun _ _ _ => rfl⟩, hm, ?_, ?_⟩
  · intro _ _; rfl
  · intro e he; cases he

end Runs

end Realm

end Evaluator

end HostLisp
