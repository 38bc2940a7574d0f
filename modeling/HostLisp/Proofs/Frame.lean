import HostLisp.Proofs.Correspondence
import Mathlib.Data.Set.Insert

/-!
# What a program can reach

A program gets at the cells that its scope binds, at the cells that closures in those cells bind, and so on.
All other cells are out of its reach: whatever it does, and however it ends, they hold what they held, and
what it gives back leads to none of them. Cells that it makes itself are its own.

Nothing is asked of the memory or of the scope. A cell that a scope binds and the store does not have yet
is in reach too; it may come to exist while the program runs.

* `Store.Reachable`: the least set of cells with the roots in it that is closed under what cells hold.
* `confined`: a run beside itself, inside its reach and the cells it makes.
* `evaluate_frame`: **cells out of reach stay as they are, and stay out of reach.**
-/

namespace HostLisp

/-- The cells that are reached from some roots: what a reached cell holds leads on to the cells of its
closures. -/
inductive Store.Reachable (s : Store) (roots : Set CellId) : CellId → Prop
  | root {cell : CellId} (h : cell ∈ roots) : Reachable s roots cell
  | held {cell other : CellId} {v : Value} (h : Reachable s roots cell)
      (hv : s.content? cell = some (some v)) (ho : other ∈ v.cells) : Reachable s roots other

/-- A set that holds the roots and is closed under what cells hold has all that is reached. -/
theorem Store.Reachable.mem_of_closed {s : Store} {roots own : Set CellId} (hroots : roots ⊆ own)
    (hclosed : ∀ cell ∈ own, ∀ v, s.content? cell = some (some v) → v.cells ⊆ own) {cell : CellId}
    (h : s.Reachable roots cell) : cell ∈ own := by
  induction h with
  | root h => exact hroots h
  | held _ hv ho ih => exact hclosed _ ih _ hv ho

namespace Evaluator

open Pairing

/-! ## Runs that stay inside a set of cells -/

/-- The realm of a set of cells: closures bind cells of the set only. -/
def inside (own : Set CellId) : Realm where
  own cell := cell ∈ own
  good _ c := Scope.cells c.scope ⊆ own
  mono _ h := h

theorem goodValue_inside {own : Set CellId} {n : Nat} {v : Value} :
    (inside own).GoodValue n v ↔ v.cells ⊆ own := by
  constructor
  · rintro h cell ⟨c, hc, hcell⟩
    exact h c hc hcell
  · intro h c hc cell hcell
    exact h ⟨c, hc, hcell⟩

/-- **A run beside itself, inside a set of cells.** The set has all cells that are made from a given memory
on. Cells outside hold what they held there, and cells inside lead to no cell outside. -/
def confined (own : Set CellId) (start : Memory)
    (hnew : ∀ cell : CellId, start.size ≤ cell.index → cell ∈ own) : Correspondence where
  toPairing := within own
  memory m n := m = n ∧ (inside own).Grows start m ∧ (inside own).Holds m
  error _ _ := True
  quits _ := False
  stalls _ _ := False
  error_refl _ := trivial
  error_foreign _ := trivial
  room h := h.1 ▸ id
  alloc := by
    rintro m _ v w ⟨rfl, hg, hm⟩ h hroom
    obtain ⟨rfl, hv⟩ := rel_alike_within_iff.1 h
    have hruns : (inside own).Runs (fun _ => True) (Eval.alloc v) m _ :=
      .alloc hm fun x hx => goodValue_inside.2 (hv x hx)
    have hgrows := hruns.grows
    have hholds : (inside own).Holds _ := hruns.holds
    rw [Eval.outcome_alloc_ok hroom] at hgrows hholds
    exact ⟨⟨rfl, hnew _ hg.size⟩, rfl, hg.trans hgrows, hholds⟩
  stall _ h hroom hfull := Nat.not_le.2 (h.1 ▸ hroom) hfull
  stalls_mono h _ := h
  covers h := h.elim
  content := by
    rintro m _ _ c ⟨rfl, -, hm⟩ ⟨rfl, hown⟩
    cases hc : m.store.content? c with
    | none => exact .none
    | some content =>
      refine .some (rel_alike_within_iff.2 ⟨rfl, ?_⟩)
      rintro v ⟨⟩
      exact goodValue_inside.1 (hm hown hc)
  write := by
    rintro m _ _ c v _ s t ⟨rfl, hg, hm⟩ ⟨rfl, hown⟩ hv hs ht
    obtain ⟨rfl, hcells⟩ := alike_within_iff.1 hv
    rw [hs] at ht
    cases ht
    have hlt : c.index < m.size := Store.lt_size_of_write hs
    have hruns : (inside own).Runs (fun _ => True) (Eval.write c v) m _ :=
      .write hm hown hlt (goodValue_inside.2 hcells)
    have hgrows := hruns.grows
    have hholds : (inside own).Holds _ := hruns.holds
    rw [Eval.outcome_write_ok hs] at hgrows hholds
    exact ⟨rfl, hg.trans hgrows, hholds⟩
  stamped := by
    rintro m _ ⟨rfl, hg, hm⟩
    have hruns : (inside own).Runs (fun _ => True) Eval.stamp m _ := .stamp hm
    exact ⟨rfl, rfl, hg.trans hruns.grows, hruns.holds⟩

/-! ## Programs stay inside their reach -/

/-- What a program can get at from a scope, and the cells that it makes. -/
def reach (m : Memory) (σ : Scope) : Set CellId :=
  {cell | m.store.Reachable (Scope.cells σ) cell ∨ m.size ≤ cell.index}

theorem mem_reach_of_le (m : Memory) (σ : Scope) (cell : CellId) (h : m.size ≤ cell.index) :
    cell ∈ reach m σ := Or.inr h

theorem reachable_of_mem_reach {m : Memory} {σ : Scope} {cell : CellId} (h : cell ∈ reach m σ)
    (hlt : cell.index < m.size) : m.store.Reachable (Scope.cells σ) cell :=
  h.resolve_right (Nat.not_le.2 hlt)

/-- Cells in reach hold nothing that leads out of it. -/
theorem holds_reach (m : Memory) (σ : Scope) : (inside (reach m σ)).Holds m := by
  intro cell v hown hv
  have hlt : cell.index < m.size := (Array.getElem?_eq_some_iff.1 hv).1
  rw [goodValue_inside]
  intro other ho
  exact Or.inl (.held (reachable_of_mem_reach hown hlt) hv ho)

/-- The cells that an answer leads to at once: those of the scope and those of the value. -/
def Answer.cells (r : Option Value × Scope) : Set CellId :=
  Scope.cells r.2 ∪ {cell | ∃ v ∈ r.1, cell ∈ v.cells}

/-- A program leaves a memory that is confined to its reach, and an answer that leads nowhere else. -/
theorem evaluate_confined (ev : Evaluator) (forms : List Form) (σ : Scope) :
    (inside (reach ev.memory σ)).Grows ev.memory (ev.evaluate forms σ).2.memory ∧
      (inside (reach ev.memory σ)).Holds (ev.evaluate forms σ).2.memory ∧
      ∀ r, (ev.evaluate forms σ).1 = .ok r → Answer.cells r ⊆ reach ev.memory σ := by
  have hnew := mem_reach_of_le ev.memory σ
  have hσ : (confined _ ev.memory hnew).Scopes σ σ :=
    scopes_within_iff.2 ⟨rfl, fun cell hcell => Or.inl (.root hcell)⟩
  have hmeet := evaluate_meets (C := confined _ ev.memory hnew) ev ev ⟨rfl, .refl _, holds_reach _ _⟩
    (perform_tracks_self _ _) forms hσ
  generalize ev.evaluate forms σ = s at hmeet ⊢
  obtain ⟨r, ev'⟩ := s
  cases r with
  | error e =>
    cases hmeet with
    | error _ hm => exact ⟨hm.2.1, hm.2.2, fun r hr => by cases hr⟩
    | quits h => exact h.elim
    | stalls h => exact h.elim
  | ok r =>
    cases hmeet with
    | ok h hm =>
      refine ⟨hm.2.1, hm.2.2, ?_⟩
      rintro _ ⟨⟩
      obtain ⟨-, hv⟩ := rel_alike_within_iff.1 h.1
      obtain ⟨-, hs⟩ := scopes_within_iff.1 h.2
      rintro cell (hcell | ⟨v, hmem, hcell⟩)
      · exact hs hcell
      · exact hv v hmem hcell

/-- **Cells out of reach stay as they are, and stay out of reach.** However a program ends, a cell that
existed before and cannot be reached from the program's scope holds what it held; and every cell that
existed before and can be reached from the answer could be reached from that scope. -/
theorem evaluate_frame (ev : Evaluator) (forms : List Form) (σ : Scope) :
    (∀ cell : CellId, cell.index < ev.memory.size → ¬ev.memory.store.Reachable (Scope.cells σ) cell →
      (ev.evaluate forms σ).2.memory.store.content? cell = ev.memory.store.content? cell) ∧
    ∀ r, (ev.evaluate forms σ).1 = .ok r → ∀ cell : CellId, cell.index < ev.memory.size →
      (ev.evaluate forms σ).2.memory.store.Reachable (Answer.cells r) cell →
      ev.memory.store.Reachable (Scope.cells σ) cell := by
  obtain ⟨hgrows, hholds, hanswer⟩ := evaluate_confined ev forms σ
  constructor
  · intro cell hlt hout
    have hnot : cell ∉ reach ev.memory σ := fun h => hout (reachable_of_mem_reach h hlt)
    exact hgrows.foreign cell hnot hlt
  · intro r hr cell hlt hreach
    have hmem : cell ∈ reach ev.memory σ :=
      hreach.mem_of_closed (hanswer r hr) fun _ hown _ hv => goodValue_inside.1 (hholds hown hv)
    exact reachable_of_mem_reach hmem hlt

/-- Three cells: `#t`, the closure `(fn () (set! x #f))` with `x` in the first cell, and `#t` again. -/
def switchMemory : Memory where
  store := ⟨#[some (.literal (.boolean true)),
    some (.closure ⟨0, .fixed [], ⟨[], .list [.symbol "set!", .symbol "x", .literal (.boolean false)]⟩,
      Scope.bind .empty "x" ⟨0⟩⟩),
    some (.literal (.boolean true))]⟩
  closures := 1

/-- The scope that binds `f` to the closure of `switchMemory`. -/
def switchScope : Scope := Scope.bind .empty "f" ⟨1⟩

theorem cells_bind_empty (name : String) (cell : CellId) :
    Scope.cells (Scope.bind .empty name cell) = {cell} := by
  ext other
  constructor
  · rintro ⟨n, hn⟩
    rw [Scope.find?_bind, Scope.find?_empty] at hn
    split at hn
    · cases hn; rfl
    · cases hn
  · rintro rfl
    exact ⟨name, by rw [Scope.find?_bind, if_pos rfl]⟩

theorem not_reachable_switch : ¬switchMemory.store.Reachable (Scope.cells switchScope) ⟨2⟩ := by
  intro h
  have hmem : (⟨2⟩ : CellId) ∈ ({⟨0⟩, ⟨1⟩} : Set CellId) := by
    refine h.mem_of_closed ?_ ?_
    · rw [switchScope, cells_bind_empty]
      simp
    · rintro cell (rfl | rfl) v hv
      · cases hv
        simp [Value.cells, Value.closures, Closure.cellsEach]
      · cases hv
        rw [Value.cells, Value.closures, Closure.cellsEach_singleton, cells_bind_empty]
        simp
  simp at hmem

/-- `(f)` writes to the first cell, which only the closure binds; the third one is out of reach. -/
theorem evaluate_frame_switch :
    ((Evaluator.mk 8 switchMemory).evaluate [.list [.symbol "f"]] switchScope).2.memory.store.content? ⟨2⟩ =
        some (some (.literal (.boolean true))) ∧
      ∃ r, ((Evaluator.mk 8 switchMemory).evaluate [.list [.symbol "f"]] switchScope).1 = .ok r ∧
        ¬((Evaluator.mk 8 switchMemory).evaluate [.list [.symbol "f"]] switchScope).2.memory.store.Reachable
          (Answer.cells r) ⟨2⟩ := by
  obtain ⟨hframe, hreach⟩ := evaluate_frame ⟨8, switchMemory⟩ [.list [.symbol "f"]] switchScope
  refine ⟨hframe ⟨2⟩ (by decide) not_reachable_switch, ?_⟩
  have hok : ((Evaluator.mk 8 switchMemory).evaluate [.list [.symbol "f"]] switchScope).1.isOk = true := by
    decide +kernel
  cases hr : ((Evaluator.mk 8 switchMemory).evaluate [.list [.symbol "f"]] switchScope).1 with
  | error e => rw [hr] at hok; cases hok
  | ok r =>
    exact ⟨r, rfl, fun h => not_reachable_switch (hreach r hr ⟨2⟩ (by decide) h)⟩

end Evaluator

end HostLisp
