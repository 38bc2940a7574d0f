import HostLisp.Proofs.Realms
import Mathlib.Data.Set.Basic

/-!
# Two runs side by side

The same program runs twice: in two memories, under two limits, or in one memory that is looked at twice.
A correspondence says which cells, stamps, memories and errors of the two runs belong together. If the four
operations on memory keep a correspondence, then every evaluation does, since a program gets at cells
through names and at closures through calls, and never sees a number of a cell.

* `Pairing.Alike`, `Pairing.Scopes`: values and scopes that correspond, given which cells do.
* `Correspondence`: what is asked of the operations on memory.
* `Correspondence.Tracks`: **two computations that take corresponding memories to corresponding
  outcomes.** Where the first one quits, nothing is asked of the second. Where the second one has no cell left
  and the first one has, the second *stalls* and the first goes on.
* `Correspondence.Covers`: what is asked of results, so that the first run can be followed beyond a stall.
* `layer_tracks`, `perform_tracks`, `runAll_tracks`: one level, all levels, and programs.
* `Pairing.moving`: runs whose cells and stamps differ by functions. `Pairing.within`: a run beside itself,
  inside a set of cells.
-/

namespace HostLisp

theorem Store.read_of_content? {s : Store} {cell : CellId} {content : Option Value}
    (h : s.content? cell = some content) : s.read cell = .ok content := by
  rw [Store.read, h]

theorem Store.read_of_foreign {s : Store} {cell : CellId} (h : s.content? cell = none) :
    s.read cell = .error (foreign cell) := by
  rw [Store.read, h]

theorem Store.write_of_content? {s : Store} {cell : CellId} {content : Option Value}
    (h : s.content? cell = some content) (v : Value) : ∃ t, s.write cell v = .ok t := by
  have hlt : cell.index < s.cells.size := (Array.getElem?_eq_some_iff.1 h).1
  exact ⟨_, dif_pos hlt⟩

theorem Store.write_of_foreign {s : Store} {cell : CellId} (h : s.content? cell = none) (v : Value) :
    s.write cell v = .error (foreign cell) := by
  have hge : s.cells.size ≤ cell.index := Array.getElem?_eq_none_iff.1 h
  exact dif_neg (Nat.not_lt.2 hge)

theorem Store.lt_size_of_write {s t : Store} {cell : CellId} {v : Value} (h : s.write cell v = .ok t) :
    cell.index < s.size := by
  by_contra hge
  have hno : s.content? cell = none := Array.getElem?_eq_none_iff.2 (Nat.not_lt.1 hge)
  rw [write_of_foreign hno] at h
  cases h

namespace Eval

theorem outcome_read (cell : CellId) (m : Memory) : (read cell).outcome m = (m.store.read cell, m) := rfl

theorem outcome_write_ok {m : Memory} {cell : CellId} {v : Value} {store : Store}
    (h : m.store.write cell v = .ok store) : (write cell v).outcome m = (.ok (), { m with store }) := by
  change (ofExcept (m.store.write cell v) >>= fun store => set { m with store }).outcome m = _
  rw [h]; rfl

theorem outcome_write_error {m : Memory} {cell : CellId} {v : Value} {e : Error}
    (h : m.store.write cell v = .error e) : (write cell v).outcome m = (.error e, m) := by
  change (ofExcept (m.store.write cell v) >>= fun store => set { m with store }).outcome m = _
  rw [h]; rfl

theorem size_write (cell : CellId) (v : Value) (m : Memory) : ((write cell v).outcome m).2.size = m.size := by
  cases hw : m.store.write cell v with
  | error e => rw [outcome_write_error hw]
  | ok store =>
    rw [outcome_write_ok hw]
    exact Store.size_write hw

end Eval

/-- A scope with other cells in the place of its own. -/
def Scope.move (f : CellId → CellId) (σ : Scope) : Scope := Std.ExtTreeMap.map (fun _ cell => f cell) σ

theorem Scope.find?_move (f : CellId → CellId) (σ : Scope) (name : String) :
    Scope.find? (Scope.move f σ) name = (Scope.find? σ name).map f :=
  Std.ExtTreeMap.getElem?_map

namespace Evaluator

/-! ## Values and scopes that correspond -/

/-- Which cells, and which stamps of closures, correspond. -/
structure Pairing where
  cell : CellId → CellId → Prop
  stamp : Nat → Nat → Prop

namespace Pairing

/-- The same names are bound, to cells that correspond. -/
def Scopes (P : Pairing) (σ τ : Scope) : Prop :=
  ∀ name, Option.Rel P.cell (σ.find? name) (τ.find? name)

mutual

/-- Values that differ in cells and stamps only. -/
inductive Alike (P : Pairing) : Value → Value → Prop
  | literal (l : Literal) : Alike P (.literal l) (.literal l)
  | symbol (name : String) : Alike P (.symbol name) (.symbol name)
  | list {vs ws : List Value} (h : AlikeEach P vs ws) : Alike P (.list vs) (.list ws)
  | closure {s t : Nat} {σ τ : Scope} (params : Parameters) (body : Body) (hs : P.stamp s t)
      (hσ : P.Scopes σ τ) : Alike P (.closure ⟨s, params, body, σ⟩) (.closure ⟨t, params, body, τ⟩)

/-- Lists of values, item by item. -/
inductive AlikeEach (P : Pairing) : List Value → List Value → Prop
  | nil : AlikeEach P [] []
  | cons {v w : Value} {vs ws : List Value} (h : Alike P v w) (hs : AlikeEach P vs ws) :
      AlikeEach P (v :: vs) (w :: ws)

end

/-- A value and a scope that correspond to others. -/
def Results (P : Pairing) (r s : Value × Scope) : Prop := P.Alike r.1 s.1 ∧ P.Scopes r.2 s.2

/-- Values and a scope that correspond to others. -/
def ResultsEach (P : Pairing) (r s : List Value × Scope) : Prop := P.AlikeEach r.1 s.1 ∧ P.Scopes r.2 s.2

variable {P : Pairing}

theorem Scopes.empty : P.Scopes .empty .empty := by
  intro name
  rw [Scope.find?_empty]
  exact .none

theorem Scopes.bind {σ τ : Scope} {c d : CellId} (h : P.Scopes σ τ) (hc : P.cell c d) (name : String) :
    P.Scopes (σ.bind name c) (τ.bind name d) := by
  intro other
  rw [Scope.find?_bind, Scope.find?_bind]
  by_cases hn : name = other
  · rw [if_pos hn, if_pos hn]; exact .some hc
  · rw [if_neg hn, if_neg hn]; exact h other

/-- A name is bound in neither scope, or in both. -/
theorem Scopes.find? {σ τ : Scope} (h : P.Scopes σ τ) (name : String) :
    (σ.find? name = none ∧ τ.find? name = none) ∨
      ∃ c d, σ.find? name = some c ∧ τ.find? name = some d ∧ P.cell c d := by
  have hn := h name
  cases hσ : σ.find? name <;> cases hτ : τ.find? name <;> rw [hσ, hτ] at hn <;> cases hn
  · exact Or.inl ⟨rfl, rfl⟩
  · rename_i c d hc
    exact Or.inr ⟨c, d, rfl, rfl, hc⟩

mutual

theorem alike_ofForm : ∀ f : Form, P.Alike (.ofForm f) (.ofForm f)
  | .literal l => .literal l
  | .symbol name => .symbol name
  | .list items => .list (alikeEach_ofForms items)

theorem alikeEach_ofForms : ∀ fs : List Form, P.AlikeEach (Value.ofForms fs) (Value.ofForms fs)
  | [] => .nil
  | f :: fs => .cons (alike_ofForm f) (alikeEach_ofForms fs)

end

theorem AlikeEach.append {vs ws vs' ws' : List Value} (h : P.AlikeEach vs ws) (h' : P.AlikeEach vs' ws') :
    P.AlikeEach (vs ++ vs') (ws ++ ws') := by
  induction vs generalizing ws with
  | nil => cases h; exact h'
  | cons v vs ih =>
    cases h with
    | cons hv hvs => exact .cons hv (ih hvs)

theorem AlikeEach.length_eq {vs ws : List Value} (h : P.AlikeEach vs ws) : vs.length = ws.length := by
  induction vs generalizing ws with
  | nil => cases h; rfl
  | cons v vs ih =>
    cases h with
    | cons _ hvs => rw [List.length_cons, List.length_cons, ih hvs]

theorem Alike.isTruthy_eq {v w : Value} (h : P.Alike v w) : v.isTruthy = w.isTruthy := by
  cases h <;> rfl

/-! ### Counterparts, where every cell and every stamp has one -/

theorem exists_scopes (hcell : ∀ c, ∃ d, P.cell c d) (σ : Scope) : ∃ τ, P.Scopes σ τ := by
  choose f hf using hcell
  refine ⟨Scope.move f σ, fun name => ?_⟩
  rw [Scope.find?_move]
  cases Scope.find? σ name with
  | none => exact .none
  | some c => exact .some (hf c)

mutual

theorem exists_alike (hcell : ∀ c, ∃ d, P.cell c d) (hstamp : ∀ s, ∃ t, P.stamp s t) :
    ∀ v : Value, ∃ w, P.Alike v w
  | .literal l => ⟨_, .literal l⟩
  | .symbol name => ⟨_, .symbol name⟩
  | .list items => by
    obtain ⟨ws, h⟩ := exists_alikeEach hcell hstamp items
    exact ⟨_, .list h⟩
  | .closure c => by
    obtain ⟨t, ht⟩ := hstamp c.stamp
    obtain ⟨τ, hτ⟩ := exists_scopes hcell c.scope
    exact ⟨_, .closure c.params c.body ht hτ⟩

theorem exists_alikeEach (hcell : ∀ c, ∃ d, P.cell c d) (hstamp : ∀ s, ∃ t, P.stamp s t) :
    ∀ vs : List Value, ∃ ws, P.AlikeEach vs ws
  | [] => ⟨_, .nil⟩
  | v :: vs => by
    obtain ⟨w, h⟩ := exists_alike hcell hstamp v
    obtain ⟨ws, hs⟩ := exists_alikeEach hcell hstamp vs
    exact ⟨_, .cons h hs⟩

end

end Pairing

/-! ## Computations that track one another -/

/-- **What corresponds in two runs.** Operations on memory take corresponding memories to corresponding
ones. The first run may *quit* with some errors, which leaves the second one free. The second run may *stall*
for want of a cell that the first one makes; the first memory only gets larger from there on. -/
structure Correspondence extends Pairing where
  memory : Memory → Memory → Prop
  error : Error → Error → Prop
  quits : Error → Prop
  stalls : Memory → Memory → Prop
  error_refl : ∀ e, error e e
  error_foreign : ∀ {c d : CellId}, cell c d → error (Store.foreign c) (Store.foreign d)
  room : ∀ {m n : Memory}, memory m n → n.size < Store.capacity → m.size < Store.capacity
  alloc : ∀ {m n : Memory} {v w : Option Value}, memory m n → Option.Rel toPairing.Alike v w →
    n.size < Store.capacity → cell ⟨m.size⟩ ⟨n.size⟩ ∧
      memory { m with store := m.store.push v } { n with store := n.store.push w }
  stall : ∀ {m n : Memory} (v : Option Value), memory m n → m.size < Store.capacity →
    Store.capacity ≤ n.size → stalls { m with store := m.store.push v } n
  stalls_mono : ∀ {m m' n : Memory}, stalls m n → m.size ≤ m'.size → stalls m' n
  covers : ∀ {m n : Memory}, stalls m n → (∀ c, ∃ d, cell c d) ∧ ∀ s, ∃ t, stamp s t
  content : ∀ {m n : Memory} {c d : CellId}, memory m n → cell c d →
    Option.Rel (Option.Rel toPairing.Alike) (m.store.content? c) (n.store.content? d)
  write : ∀ {m n : Memory} {c d : CellId} {v w : Value} {s t : Store}, memory m n → cell c d →
    toPairing.Alike v w → m.store.write c v = .ok s → n.store.write d w = .ok t →
    memory { m with store := s } { n with store := t }
  stamped : ∀ {m n : Memory}, memory m n → stamp m.closures n.closures ∧
    memory { m with closures := m.closures + 1 } { n with closures := n.closures + 1 }

namespace Correspondence

variable {α β α' β' : Type}

/-- Outcomes that correspond. -/
inductive Meets (C : Correspondence) (R : α → β → Prop) :
    Except Error α × Memory → Except Error β × Memory → Prop
  | ok {a : α} {b : β} {m n : Memory} (h : R a b) (hm : C.memory m n) : Meets C R (.ok a, m) (.ok b, n)
  | error {e e' : Error} {m n : Memory} (h : C.error e e') (hm : C.memory m n) :
      Meets C R (.error e, m) (.error e', n)
  | quits {e : Error} {m : Memory} {r : Except Error β × Memory} (h : C.quits e) :
      Meets C R (.error e, m) r
  | stalls {r : Except Error α × Memory} {n : Memory} (h : C.stalls r.2 n) :
      Meets C R r (.error Store.exhausted, n)

/-- The second run can be the one that has no cell left. -/
def CanStall (C : Correspondence) : Prop := ∃ m n, C.stalls m n

/-- **Corresponding memories lead to corresponding outcomes.** Where the second run can stall, the first one
loses no cells. -/
structure Tracks (C : Correspondence) (R : α → β → Prop) (x : Eval α) (y : Eval β) : Prop where
  grows : C.CanStall → ∀ m, m.size ≤ (x.outcome m).2.size
  meets : ∀ m n, C.memory m n → C.Meets R (x.outcome m) (y.outcome n)

/-- Where the second run can stall, all that the first one gives has a counterpart. -/
class Covers (C : Correspondence) (R : α → β → Prop) : Prop where
  exists_right : C.CanStall → ∀ a, ∃ b, R a b

variable {C : Correspondence} {R : α → β → Prop} {S : α' → β' → Prop}

namespace Covers

instance cell : C.Covers C.cell := ⟨fun ⟨_, _, h⟩ => (C.covers h).1⟩

instance stamp : C.Covers C.stamp := ⟨fun ⟨_, _, h⟩ => (C.covers h).2⟩

instance scopes : C.Covers C.Scopes := ⟨fun ⟨_, _, h⟩ => Pairing.exists_scopes (C.covers h).1⟩

instance alike : C.Covers C.Alike :=
  ⟨fun ⟨_, _, h⟩ => Pairing.exists_alike (C.covers h).1 (C.covers h).2⟩

instance alikeEach : C.Covers C.AlikeEach :=
  ⟨fun ⟨_, _, h⟩ => Pairing.exists_alikeEach (C.covers h).1 (C.covers h).2⟩

instance results : C.Covers C.Results := by
  refine ⟨fun hs r => ?_⟩
  obtain ⟨w, hw⟩ := alike.exists_right hs r.1
  obtain ⟨τ, hτ⟩ := scopes.exists_right hs r.2
  exact ⟨(w, τ), hw, hτ⟩

instance resultsEach : C.Covers C.ResultsEach := by
  refine ⟨fun hs r => ?_⟩
  obtain ⟨ws, hws⟩ := alikeEach.exists_right hs r.1
  obtain ⟨τ, hτ⟩ := scopes.exists_right hs r.2
  exact ⟨(ws, τ), hws, hτ⟩

instance option [h : C.Covers R] : C.Covers (Option.Rel R) := by
  refine ⟨fun hs v => ?_⟩
  cases v with
  | none => exact ⟨none, .none⟩
  | some a =>
    obtain ⟨b, hb⟩ := h.exists_right hs a
    exact ⟨some b, .some hb⟩

instance eq : C.Covers (@Eq α) := ⟨fun _ a => ⟨a, rfl⟩⟩

instance unit : C.Covers (fun (_ : α) (_ : Unit) => True) := ⟨fun _ _ => ⟨(), trivial⟩⟩

end Covers

namespace Tracks

theorem pure {a : α} {b : β} (h : R a b) : C.Tracks R (Pure.pure a) (Pure.pure b) :=
  ⟨fun _ _ => Nat.le_refl _, fun _ _ hm => .ok h hm⟩

theorem throw (e : Error) : C.Tracks R (MonadExcept.throw e) (MonadExcept.throw e) :=
  ⟨fun _ _ => Nat.le_refl _, fun _ _ hm => .error (C.error_refl e) hm⟩

/-- **Two computations, each followed by another.** -/
theorem bind [C.Covers R] {x : Eval α} {y : Eval β} {f : α → Eval α'} {g : β → Eval β'}
    (hx : C.Tracks R x y) (hf : ∀ a b, R a b → C.Tracks S (f a) (g b)) :
    C.Tracks S (x >>= f) (y >>= g) := by
  have hgrows : C.CanStall → ∀ a m, m.size ≤ ((f a).outcome m).2.size := by
    intro hs a
    obtain ⟨b, hb⟩ := Covers.exists_right (R := R) hs a
    exact (hf a b hb).grows hs
  constructor
  · intro hs m
    have hfirst := hx.grows hs m
    rw [Realm.Runs.outcome_bind]
    generalize x.outcome m = r at hfirst ⊢
    obtain ⟨e | a, m'⟩ := r
    · exact hfirst
    · exact Nat.le_trans hfirst (hgrows hs a m')
  · intro m n hm
    rw [Realm.Runs.outcome_bind, Realm.Runs.outcome_bind]
    have hmeet := hx.meets m n hm
    generalize x.outcome m = r at hmeet ⊢
    generalize y.outcome n = s at hmeet ⊢
    cases hmeet with
    | ok h hm' => exact (hf _ _ h).meets _ _ hm'
    | error h hm' => exact .error h hm'
    | quits h => exact .quits h
    | @stalls _ n' h =>
      -- the second run is over, and the first goes on
      obtain ⟨e | a, m'⟩ := r
      · exact .stalls h
      · exact .stalls (C.stalls_mono h (hgrows ⟨m', n', h⟩ a m'))

/-- A check that leaves memory alone comes out the same in both runs. -/
theorem ofExcept (x : Except Error α) : C.Tracks Eq (Eval.ofExcept x) (Eval.ofExcept x) := by
  refine ⟨fun _ _ => Nat.le_refl _, ?_⟩
  intro m n hm
  cases x with
  | ok a => exact .ok rfl hm
  | error e => exact .error (C.error_refl e) hm

theorem alloc {v w : Option Value} (h : Option.Rel C.Alike v w) :
    C.Tracks C.cell (Eval.alloc v) (Eval.alloc w) := by
  constructor
  · intro _ m
    rcases Nat.lt_or_ge m.size Store.capacity with hroom | hfull
    · rw [Eval.outcome_alloc_ok hroom]
      rw [Memory.size_push]
      exact Nat.le_succ _
    · rw [Eval.outcome_alloc_error hfull]
  · intro m n hm
    rcases Nat.lt_or_ge n.size Store.capacity with hroom | hfull
    · obtain ⟨hcell, hm'⟩ := C.alloc hm h hroom
      rw [Eval.outcome_alloc_ok (C.room hm hroom), Eval.outcome_alloc_ok hroom]
      exact .ok hcell hm'
    rw [Eval.outcome_alloc_error hfull]
    rcases Nat.lt_or_ge m.size Store.capacity with hroom | hfull'
    · rw [Eval.outcome_alloc_ok hroom]
      exact .stalls (C.stall v hm hroom hfull)
    · rw [Eval.outcome_alloc_error hfull']
      exact .error (C.error_refl _) hm

theorem read {c d : CellId} (h : C.cell c d) :
    C.Tracks (Option.Rel C.Alike) (Eval.read c) (Eval.read d) := by
  refine ⟨fun _ _ => Nat.le_refl _, ?_⟩
  intro m n hm
  rw [Eval.outcome_read, Eval.outcome_read]
  have hcontent := C.content hm h
  cases hc : m.store.content? c <;> cases hd : n.store.content? d <;> rw [hc, hd] at hcontent <;>
    cases hcontent
  · rw [Store.read_of_foreign hc, Store.read_of_foreign hd]
    exact .error (C.error_foreign h) hm
  · rename_i hv
    rw [Store.read_of_content? hc, Store.read_of_content? hd]
    exact .ok hv hm

theorem write {c d : CellId} {v w : Value} (h : C.cell c d) (hv : C.Alike v w) :
    C.Tracks (fun _ _ => True) (Eval.write c v) (Eval.write d w) := by
  refine ⟨fun _ m => Nat.le_of_eq (Eval.size_write c v m).symm, ?_⟩
  intro m n hm
  -- a cell is missing in both stores or in none
  have hcontent := C.content hm h
  cases hc : m.store.content? c <;> cases hd : n.store.content? d <;> rw [hc, hd] at hcontent <;>
    cases hcontent
  · rw [Eval.outcome_write_error (Store.write_of_foreign hc v),
      Eval.outcome_write_error (Store.write_of_foreign hd w)]
    exact .error (C.error_foreign h) hm
  · obtain ⟨s, hs⟩ := Store.write_of_content? hc v
    obtain ⟨t, ht⟩ := Store.write_of_content? hd w
    rw [Eval.outcome_write_ok hs, Eval.outcome_write_ok ht]
    exact .ok trivial (C.write hm h hv hs ht)

theorem stamp : C.Tracks C.stamp Eval.stamp Eval.stamp := by
  refine ⟨fun _ _ => Nat.le_refl _, ?_⟩
  intro m n hm
  obtain ⟨hstamp, hm'⟩ := C.stamped hm
  exact .ok hstamp hm'

end Tracks

/-- Performers that track one another on every job. -/
def TracksJobs (C : Correspondence) (below above : Performer) : Prop :=
  ∀ (job : Job) {σ τ : Scope}, C.Scopes σ τ → C.Tracks C.Results (below job σ) (above job τ)

end Correspondence

/-! ## One level -/

section

open Correspondence Pairing

variable {C : Correspondence} {below above : Performer} {σ τ : Scope}

theorem lookup_tracks (site : Form) (name : String) (hσ : C.Scopes σ τ) :
    C.Tracks C.Alike (lookup site name σ) (lookup site name τ) := by
  unfold lookup
  rcases hσ.find? name with ⟨hs, ht⟩ | ⟨c, d, hs, ht, hcell⟩
  · rw [hs, ht]; exact .throw _
  · rw [hs, ht]
    refine .bind (.read hcell) ?_
    rintro _ _ (hv | _)
    · exact .pure hv
    · exact .throw _

theorem bindEach_tracks {names : List String} {vs ws : List Value} (h : C.AlikeEach vs ws)
    (hσ : C.Scopes σ τ) :
    C.Tracks C.Scopes (bindEach (names.zip vs) σ) (bindEach (names.zip ws) τ) := by
  induction names generalizing vs ws σ τ with
  | nil => exact .pure hσ
  | cons name names ih =>
    cases h with
    | nil => exact .pure hσ
    | cons hv hvs =>
      refine .bind (.alloc (.some hv)) ?_
      intro c d hcell
      exact ih hvs (hσ.bind hcell name)

variable (hbelow : C.TracksJobs below above)
include hbelow

theorem evalEach_tracks (fs : List Form) (hσ : C.Scopes σ τ) :
    C.Tracks C.ResultsEach (evalEach below fs σ) (evalEach above fs τ) := by
  induction fs generalizing σ τ with
  | nil => exact .pure ⟨.nil, hσ⟩
  | cons f fs ih =>
    refine .bind (hbelow (.form f) hσ) ?_
    rintro ⟨v, σ₁⟩ ⟨w, τ₁⟩ ⟨hv, hσ₁⟩
    refine .bind (ih hσ₁) ?_
    rintro ⟨vs, σ₂⟩ ⟨ws, τ₂⟩ ⟨hvs, hσ₂⟩
    exact .pure ⟨.cons hv hvs, hσ₂⟩

theorem evalBody_tracks (leading : List Form) (last : Form) (hσ : C.Scopes σ τ) :
    C.Tracks C.Alike (evalBody below leading last σ) (evalBody above leading last τ) := by
  induction leading generalizing σ τ with
  | nil =>
    refine .bind (hbelow (.form last) hσ) ?_
    rintro ⟨v, σ₁⟩ ⟨w, τ₁⟩ ⟨hv, -⟩
    exact .pure hv
  | cons f fs ih =>
    refine .bind (hbelow (.form f) hσ) ?_
    rintro ⟨v, σ₁⟩ ⟨w, τ₁⟩ ⟨-, hσ₁⟩
    exact ih hσ₁

/-- **Calls of closures that correspond.** They have the same parameters and body, so the calls fail to
match in the same way, and the bodies run in scopes that correspond. -/
theorem call_tracks (site : Form) (params : Parameters) (body : Body) {s t : Nat} {vs ws : List Value}
    (hσ : C.Scopes σ τ) (hvs : C.AlikeEach vs ws) :
    C.Tracks C.Alike (call below site ⟨s, params, body, σ⟩ vs) (call above site ⟨t, params, body, τ⟩ ws) := by
  have hbody : ∀ (names : List String) {vs ws : List Value}, C.AlikeEach vs ws →
      C.Tracks C.Alike (bindEach (names.zip vs) σ >>= evalBody below body.leading body.last)
        (bindEach (names.zip ws) τ >>= evalBody above body.leading body.last) := by
    intro names vs ws h
    refine .bind (bindEach_tracks h hσ) ?_
    intro σ₁ τ₁ hσ₁
    exact evalBody_tracks hbelow _ _ hσ₁
  cases params with
  | fixed names =>
    simp only [call]
    rw [hvs.length_eq]
    split
    · exact hbody names hvs
    · exact .throw _
  | rest name =>
    exact hbody [name] (.cons (.list hvs) .nil)

theorem apply_tracks (site head : Form) (args : List Form) (hσ : C.Scopes σ τ) :
    C.Tracks C.Results (apply below site head args σ) (apply above site head args τ) := by
  refine .bind (hbelow (.form head) hσ) ?_
  rintro ⟨callee, σ₁⟩ ⟨callee', τ₁⟩ ⟨hcallee, hσ₁⟩
  refine .bind (evalEach_tracks hbelow args hσ₁) ?_
  rintro ⟨vs, σ₂⟩ ⟨ws, τ₂⟩ ⟨hvs, hσ₂⟩
  cases hcallee with
  | literal l => exact .throw _
  | symbol name => exact .throw _
  | list _ => exact .throw _
  | closure params body _ hscope =>
    refine .bind (call_tracks hbelow site params body hscope hvs) ?_
    intro v w hv
    exact .pure ⟨hv, hσ₂⟩

theorem evalSpecial_tracks (site : Form) (special : Special) (hσ : C.Scopes σ τ) :
    C.Tracks C.Results (evalSpecial below site special σ) (evalSpecial above site special τ) := by
  cases special with
  | var name init =>
    refine .bind (.alloc .none) ?_
    intro c d hcell
    refine .bind (hbelow (.form init) (hσ.bind hcell name)) ?_
    rintro ⟨v, σ₁⟩ ⟨w, τ₁⟩ ⟨hv, hσ₁⟩
    refine .bind (.write hcell hv) ?_
    intro _ _ _
    exact .pure ⟨hv, hσ₁⟩
  | fn params body =>
    refine .bind .stamp ?_
    intro s t hs
    exact .pure ⟨.closure params body hs hσ, hσ⟩
  | assign target value =>
    cases target with
    | property _ => exact .throw _
    | name name =>
      simp only [evalSpecial]
      rcases hσ.find? name with ⟨hs, ht⟩ | ⟨c, d, hs, ht, hcell⟩
      · rw [hs, ht]; exact .throw _
      · rw [hs, ht]
        refine .bind (hbelow (.form value) hσ) ?_
        rintro ⟨v, σ₁⟩ ⟨w, τ₁⟩ ⟨hv, hσ₁⟩
        refine .bind (.write hcell hv) ?_
        intro _ _ _
        exact .pure ⟨hv, hσ₁⟩
  | conditional test consequent alternative =>
    refine .bind (hbelow (.form test) hσ) ?_
    rintro ⟨v, σ₁⟩ ⟨w, τ₁⟩ ⟨hv, hσ₁⟩
    -- both runs take the same branch
    have hbranch : v.isTruthy = w.isTruthy := hv.isTruthy_eq
    dsimp only
    rw [hbranch]
    exact hbelow _ hσ₁
  | quote datum => exact .pure ⟨alike_ofForm datum, hσ⟩
  | quasiquote template => exact hbelow (.template template) hσ
  | list items =>
    refine .bind (evalEach_tracks hbelow items hσ) ?_
    rintro ⟨vs, σ₁⟩ ⟨ws, τ₁⟩ ⟨hvs, hσ₁⟩
    exact .pure ⟨.list hvs, hσ₁⟩
  | unquote | unquoteSplicing | member | object | importModules | defineSyntax | syntaxRules =>
    exact .throw _

theorem evalForm_tracks (form : Form) (hσ : C.Scopes σ τ) :
    C.Tracks C.Results (evalForm below form σ) (evalForm above form τ) := by
  unfold evalForm
  cases form.shape with
  | literal l => exact .pure ⟨.literal l, hσ⟩
  | name name =>
    refine .bind (lookup_tracks form name hσ) ?_
    intro v w hv
    exact .pure ⟨hv, hσ⟩
  | empty => exact .throw _
  | special k args =>
    refine .bind (.ofExcept _) ?_
    rintro special _ rfl
    exact evalSpecial_tracks hbelow form special hσ
  | access key args =>
    refine .bind (.ofExcept _) ?_
    intro _ _ _
    exact .throw _
  | application head args => exact apply_tracks hbelow form head args hσ

theorem rebuildItem_tracks (item : Form) (hσ : C.Scopes σ τ) :
    C.Tracks C.ResultsEach (rebuildItem below item σ) (rebuildItem above item τ) := by
  unfold rebuildItem
  split
  · refine .bind (.ofExcept _) ?_
    rintro inner _ rfl
    refine .bind (hbelow (.form inner) hσ) ?_
    rintro ⟨v, σ₁⟩ ⟨w, τ₁⟩ ⟨hv, hσ₁⟩
    cases hv with
    | list hvs => exact .pure ⟨hvs, hσ₁⟩
    | literal l => exact .throw _
    | symbol name => exact .throw _
    | closure => exact .throw _
  · refine .bind (hbelow (.template item) hσ) ?_
    rintro ⟨v, σ₁⟩ ⟨w, τ₁⟩ ⟨hv, hσ₁⟩
    exact .pure ⟨.cons hv .nil, hσ₁⟩

theorem rebuildEach_tracks (items : List Form) (hσ : C.Scopes σ τ) :
    C.Tracks C.ResultsEach (rebuildEach below items σ) (rebuildEach above items τ) := by
  induction items generalizing σ τ with
  | nil => exact .pure ⟨.nil, hσ⟩
  | cons item items ih =>
    refine .bind (rebuildItem_tracks hbelow item hσ) ?_
    rintro ⟨vs, σ₁⟩ ⟨ws, τ₁⟩ ⟨hvs, hσ₁⟩
    refine .bind (ih hσ₁) ?_
    rintro ⟨vs', σ₂⟩ ⟨ws', τ₂⟩ ⟨hvs', hσ₂⟩
    exact .pure ⟨hvs.append hvs', hσ₂⟩

theorem rebuild_tracks (template : Form) (hσ : C.Scopes σ τ) :
    C.Tracks C.Results (rebuild below template σ) (rebuild above template τ) := by
  unfold rebuild
  split
  · refine .bind (.ofExcept _) ?_
    rintro inner _ rfl
    exact hbelow (.form inner) hσ
  · exact .throw _
  · split
    · refine .bind (rebuildEach_tracks hbelow _ hσ) ?_
      rintro ⟨vs, σ₁⟩ ⟨ws, τ₁⟩ ⟨hvs, hσ₁⟩
      exact .pure ⟨.list hvs, hσ₁⟩
    · exact .pure ⟨alike_ofForm template, hσ⟩

/-- **One level tracks another if the levels below do.** -/
theorem layer_tracks : C.TracksJobs (layer below) (layer above) := by
  intro job σ τ hσ
  cases job with
  | form f => exact evalForm_tracks hbelow f hσ
  | template f => exact rebuild_tracks hbelow f hσ

end

/-! ## All levels, and programs -/

section

open Correspondence

variable {C : Correspondence} {limit limit' : Nat}

/-- **Jobs track one another at every number of levels**, where the second run may have some levels more
than the first. What is left to show is the end of the first run's levels. -/
theorem perform_tracks (more : Nat) (hend : C.TracksJobs (perform limit 0) (perform limit' more))
    (levels : Nat) : C.TracksJobs (perform limit levels) (perform limit' (levels + more)) := by
  induction levels with
  | zero => rw [Nat.zero_add]; exact hend
  | succ levels ih =>
    rw [Nat.succ_add]
    exact layer_tracks ih

/-- Under one limit the levels of both runs end together. -/
theorem perform_tracks_self (limit levels : Nat) :
    C.TracksJobs (perform limit levels) (perform limit levels) := by
  have hend : C.TracksJobs (perform limit 0) (perform limit 0) := fun _ _ _ _ => .throw _
  exact perform_tracks 0 hend levels

/-- A value, if there is one, and a scope that correspond to others. -/
def Correspondence.Answers (C : Correspondence) (r s : Option Value × Scope) : Prop :=
  Option.Rel C.Alike r.1 s.1 ∧ C.Scopes r.2 s.2

/-- **A program tracks itself.** -/
theorem runAll_tracks (hjobs : C.TracksJobs (perform limit limit) (perform limit' limit'))
    (forms : List Form) {v w : Option Value} {σ τ : Scope} (hv : Option.Rel C.Alike v w)
    (hσ : C.Scopes σ τ) :
    C.Tracks C.Answers (runAll limit v forms σ) (runAll limit' w forms τ) := by
  induction forms generalizing v w σ τ with
  | nil => exact .pure ⟨hv, hσ⟩
  | cons f fs ih =>
    refine .bind (.ofExcept _) ?_
    intro _ _ _
    refine .bind (hjobs (.form f) hσ) ?_
    rintro ⟨v₁, σ₁⟩ ⟨w₁, τ₁⟩ ⟨hv₁, hσ₁⟩
    exact ih (.some hv₁) hσ₁

/-- **Two evaluators that correspond** give corresponding answers, and correspond afterwards. -/
theorem evaluate_meets (ev ev' : Evaluator) (hm : C.memory ev.memory ev'.memory)
    (hjobs : C.TracksJobs (perform ev.maxDepth ev.maxDepth) (perform ev'.maxDepth ev'.maxDepth))
    (forms : List Form) {σ τ : Scope} (hσ : C.Scopes σ τ) :
    C.Meets C.Answers ((ev.evaluate forms σ).1, (ev.evaluate forms σ).2.memory)
      ((ev'.evaluate forms τ).1, (ev'.evaluate forms τ).2.memory) :=
  (runAll_tracks hjobs forms .none hσ).meets ev.memory ev'.memory hm

end

end Evaluator

/-! ## Cells and stamps that move -/

/-- The cells that a scope binds names to. -/
def Scope.cells (σ : Scope) : Set CellId := {cell | ∃ name, Scope.find? σ name = some cell}

/-- The cells that the scopes of some closures bind names to. -/
def Closure.cellsEach (cs : List Closure) : Set CellId := {cell | ∃ c ∈ cs, cell ∈ Scope.cells c.scope}

/-- The cells that the closures in a value bind names to. -/
def Value.cells (v : Value) : Set CellId := Closure.cellsEach v.closures

theorem Closure.cellsEach_append (cs ds : List Closure) :
    cellsEach (cs ++ ds) = cellsEach cs ∪ cellsEach ds := by
  ext cell
  simp [cellsEach, or_and_right, exists_or]

theorem Closure.cellsEach_singleton (c : Closure) : cellsEach [c] = Scope.cells c.scope := by
  ext cell
  simp [cellsEach]

section

variable (f : CellId → CellId) (g : Nat → Nat)

/-- A closure with other cells and another stamp. -/
def Closure.move (c : Closure) : Closure :=
  { c with stamp := g c.stamp, scope := Scope.move f c.scope }

mutual

/-- A value with other cells and other stamps in its closures. -/
def Value.move : Value → Value
  | .literal l => .literal l
  | .symbol name => .symbol name
  | .list items => .list (Value.moveEach items)
  | .closure c => .closure (c.move f g)

/-- Values with other cells and other stamps in their closures. -/
def Value.moveEach : List Value → List Value
  | [] => []
  | v :: vs => Value.move v :: Value.moveEach vs

end

end

@[simp] theorem Scope.move_id (σ : Scope) : Scope.move id σ = σ := by
  apply Scope.ext_find?
  intro name
  rw [Scope.find?_move, Option.map_id, id]

mutual

@[simp] theorem Value.move_id : ∀ v : Value, v.move id id = v
  | .literal _ => rfl
  | .symbol _ => rfl
  | .list items => by rw [Value.move, Value.moveEach_id items]
  | .closure c => by simp [Value.move, Closure.move]

@[simp] theorem Value.moveEach_id : ∀ vs : List Value, Value.moveEach id id vs = vs
  | [] => rfl
  | v :: vs => by rw [Value.moveEach, Value.move_id v, Value.moveEach_id vs]

end

namespace Evaluator.Pairing

section

variable {f : CellId → CellId} {g : Nat → Nat} {own : Set CellId}

/-- The cells of a set move, and so do stamps. -/
def moving (f : CellId → CellId) (g : Nat → Nat) (own : Set CellId) : Pairing where
  cell c d := d = f c ∧ c ∈ own
  stamp s t := t = g s

theorem scopes_moving_iff {σ τ : Scope} :
    (moving f g own).Scopes σ τ ↔ τ = Scope.move f σ ∧ Scope.cells σ ⊆ own := by
  constructor
  · intro h
    constructor
    · apply Scope.ext_find?
      intro name
      rw [Scope.find?_move]
      rcases h.find? name with ⟨hs, ht⟩ | ⟨c, d, hs, ht, rfl, -⟩ <;> rw [hs, ht] <;> rfl
    · rintro cell ⟨name, hf⟩
      rcases h.find? name with ⟨hs, -⟩ | ⟨c, d, hs, -, -, hown⟩
      · rw [hf] at hs; cases hs
      · rw [hf] at hs; cases hs; exact hown
  · rintro ⟨rfl, hown⟩ name
    rw [Scope.find?_move]
    cases hf : Scope.find? σ name with
    | none => exact .none
    | some cell => exact .some ⟨rfl, hown ⟨name, hf⟩⟩

mutual

theorem Alike.of_moving {v w : Value} : (moving f g own).Alike v w → w = v.move f g ∧ v.cells ⊆ own
  | .literal l => ⟨rfl, by simp [Value.cells, Value.closures, Closure.cellsEach]⟩
  | .symbol name => ⟨rfl, by simp [Value.cells, Value.closures, Closure.cellsEach]⟩
  | .list h => by
    obtain ⟨rfl, hown⟩ := AlikeEach.of_moving h
    exact ⟨rfl, hown⟩
  | .closure params body hs hσ => by
    obtain ⟨rfl, hown⟩ := scopes_moving_iff.1 hσ
    obtain rfl : _ = g _ := hs
    refine ⟨rfl, ?_⟩
    rw [Value.cells, Value.closures, Closure.cellsEach_singleton]
    exact hown

theorem AlikeEach.of_moving {vs ws : List Value} : (moving f g own).AlikeEach vs ws →
    ws = Value.moveEach f g vs ∧ Closure.cellsEach (Value.closuresEach vs) ⊆ own
  | .nil => ⟨rfl, by simp [Value.closuresEach, Closure.cellsEach]⟩
  | .cons h hs => by
    obtain ⟨rfl, hown⟩ := Alike.of_moving h
    obtain ⟨rfl, howns⟩ := AlikeEach.of_moving hs
    refine ⟨rfl, ?_⟩
    rw [Value.closuresEach, Closure.cellsEach_append]
    exact Set.union_subset hown howns

end

mutual

theorem alike_move : ∀ {v : Value}, v.cells ⊆ own → (moving f g own).Alike v (v.move f g)
  | .literal l, _ => .literal l
  | .symbol name, _ => .symbol name
  | .list items, h => .list (alikeEach_move h)
  | .closure c, h => by
    rw [Value.cells, Value.closures, Closure.cellsEach_singleton] at h
    exact .closure c.params c.body rfl (scopes_moving_iff.2 ⟨rfl, h⟩)

theorem alikeEach_move : ∀ {vs : List Value}, Closure.cellsEach (Value.closuresEach vs) ⊆ own →
    (moving f g own).AlikeEach vs (Value.moveEach f g vs)
  | [], _ => .nil
  | v :: vs, h => by
    rw [Value.closuresEach, Closure.cellsEach_append, Set.union_subset_iff] at h
    exact .cons (alike_move h.1) (alikeEach_move h.2)

end

theorem alike_moving_iff {v w : Value} :
    (moving f g own).Alike v w ↔ w = v.move f g ∧ v.cells ⊆ own := by
  constructor
  · exact Alike.of_moving
  · rintro ⟨rfl, hown⟩
    exact alike_move hown

/-- What a cell holds, or an answer without a value. -/
theorem rel_alike_moving_iff {v w : Option Value} :
    Option.Rel (moving f g own).Alike v w ↔ w = v.map (·.move f g) ∧ ∀ x ∈ v, x.cells ⊆ own := by
  constructor
  · rintro (h | _)
    · obtain ⟨rfl, hown⟩ := alike_moving_iff.1 h
      refine ⟨rfl, ?_⟩
      rintro x ⟨⟩
      exact hown
    · exact ⟨rfl, by simp⟩
  · rintro ⟨rfl, hown⟩
    cases v with
    | none => exact .none
    | some x => exact .some (alike_move (hown x rfl))

end

/-! ### A run beside itself -/

section

variable {own : Set CellId}

/-- Cells of a set correspond to themselves, and so do stamps. -/
abbrev within (own : Set CellId) : Pairing := moving id id own

theorem scopes_within_iff {σ τ : Scope} : (within own).Scopes σ τ ↔ σ = τ ∧ Scope.cells σ ⊆ own := by
  rw [scopes_moving_iff, Scope.move_id, eq_comm]

theorem alike_within_iff {v w : Value} : (within own).Alike v w ↔ v = w ∧ v.cells ⊆ own := by
  rw [alike_moving_iff, Value.move_id, eq_comm]

theorem rel_alike_within_iff {v w : Option Value} :
    Option.Rel (within own).Alike v w ↔ v = w ∧ ∀ x ∈ v, x.cells ⊆ own := by
  have hid : v.map (·.move id id) = v := by simp
  rw [rel_alike_moving_iff, hid, eq_comm]

end

end Evaluator.Pairing

end HostLisp
