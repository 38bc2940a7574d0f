import HostLisp.Proofs.Correspondence
import HostLisp.Proofs.Sessions

/-!
# Programs do not see what ran before them

A program that starts with no scope runs in a used evaluator as it does in a fresh one. Its cells come
behind those that are there, so that all numbers of cells are larger by as many, and the stamps of its
closures are larger by the number of closures made before. Beyond that nothing is different: the answer is
the same up to these numbers, an error is the same error, and the old cells are left alone. The one thing that
a program can come to feel is that its cells do not all have numbers behind those that are there.

* `Value.shift`, `Scope.shift`: the same value or scope, with larger numbers.
* `Memory.followedBy`: a memory with another one's cells behind its own. `Memory.Fits`: there are numbers for
  these cells.
* `behind`: a run in a memory, and the same run behind the cells of another memory.
* `evaluate_followedBy`: **a used evaluator answers as a fresh one does**, if the cells of the fresh run fit, and
  has no cell left otherwise.
-/

namespace HostLisp

/-- The cell that comes some cells later. -/
def CellId.shift (k : Nat) (cell : CellId) : CellId := ⟨cell.index + k⟩

/-- A scope whose cells come some cells later. -/
def Scope.shift (k : Nat) (σ : Scope) : Scope := Scope.move (CellId.shift k) σ

/-- A value whose closures have cells that come some cells later, and stamps that come later too. -/
def Value.shift (k stamps : Nat) (v : Value) : Value := v.move (CellId.shift k) (· + stamps)

/-- A memory with the cells of another one behind its own. -/
def Memory.followedBy (old m : Memory) : Memory where
  store := ⟨old.store.cells ++ m.store.cells.map (Option.map (Value.shift old.size old.closures))⟩
  closures := m.closures + old.closures

/-- A memory makes no cells, or there are numbers for all of them behind those of another memory. -/
def Memory.Fits (old m : Memory) : Prop := m.size = 0 ∨ old.size + m.size ≤ Store.capacity

theorem Memory.size_followedBy (old m : Memory) : (old.followedBy m).size = m.size + old.size := by
  simp [followedBy, size, Store.size, Nat.add_comm]

@[simp] theorem Memory.followedBy_fresh (old : Memory) : old.followedBy .fresh = old := by
  simp [followedBy, fresh, Store.empty]

/-- Stores with the same cells are equal. -/
theorem Store.ext_content? {s t : Store} (h : ∀ cell, s.content? cell = t.content? cell) : s = t := by
  obtain ⟨xs⟩ := s
  obtain ⟨ys⟩ := t
  have hxy : xs = ys := Array.ext_getElem? fun i => h ⟨i⟩
  rw [hxy]

theorem Memory.content?_followedBy (old m : Memory) (cell : CellId) :
    (old.followedBy m).store.content? cell =
      if cell.index < old.size then old.store.content? cell
      else (m.store.content? ⟨cell.index - old.size⟩).map (Option.map (Value.shift old.size old.closures)) := by
  unfold followedBy Store.content?
  rw [Array.getElem?_append, Array.getElem?_map]
  rfl

theorem Memory.content?_followedBy_shift (old m : Memory) (cell : CellId) :
    (old.followedBy m).store.content? (cell.shift old.size) =
      (m.store.content? cell).map (Option.map (Value.shift old.size old.closures)) := by
  have hge : ¬(cell.shift old.size).index < old.size := by
    simp only [CellId.shift]; omega
  rw [content?_followedBy, if_neg hge]
  simp [CellId.shift]

/-- A new cell of the memory behind is a new cell of both together. -/
theorem Memory.followedBy_push (old m : Memory) (v : Option Value) :
    old.followedBy { m with store := m.store.push v } =
      { old.followedBy m with
        store := (old.followedBy m).store.push (v.map (Value.shift old.size old.closures)) } := by
  simp [followedBy, Store.push]

/-- Writing to a cell of the memory behind is writing to the cell that is some cells later. -/
theorem Memory.followedBy_write (old m : Memory) {cell : CellId} {v : Value} {s t : Store}
    (hs : m.store.write cell v = .ok s)
    (ht : (old.followedBy m).store.write (cell.shift old.size) (v.shift old.size old.closures) = .ok t) :
    old.followedBy { m with store := s } = { old.followedBy m with store := t } := by
  have hstore : (old.followedBy { m with store := s }).store = t := by
    apply Store.ext_content?
    intro other
    rw [Store.content?_write ht, content?_followedBy, content?_followedBy]
    by_cases hlt : other.index < old.size
    · have hne : other.index ≠ (cell.shift old.size).index := by
        simp only [CellId.shift]; omega
      rw [if_pos hlt, if_neg hne, if_pos hlt]
    · rw [if_neg hlt, if_neg hlt, Store.content?_write hs]
      by_cases heq : other.index - old.size = cell.index
      · have heq' : other.index = (cell.shift old.size).index := by
          simp only [CellId.shift]; omega
        rw [if_pos heq, if_pos heq']
        rfl
      · have hne : other.index ≠ (cell.shift old.size).index := by
          simp only [CellId.shift]; omega
        rw [if_neg heq, if_neg hne]
  rw [← hstore]
  rfl

namespace Evaluator

open Pairing

/-- **A run in a memory, and the same run behind the cells of another memory.** Errors are the same but for
those that name a cell by its number. The second run stalls where its numbers end, and leaves the cells of the
other memory as they are. -/
def behind (old : Memory) : Correspondence where
  toPairing := moving (CellId.shift old.size) (· + old.closures) Set.univ
  memory m n := n = old.followedBy m ∧ old.Fits m
  error e e' := e.NotInternal ∨ e = Store.exhausted → e = e'
  quits _ := False
  stalls m n := ¬old.Fits m ∧ Store.capacity ≤ n.size ∧
    ∀ cell : CellId, cell.index < old.size → n.store.content? cell = old.store.content? cell
  error_refl _ _ := rfl
  error_foreign := by
    rintro c d _ (h | h)
    · exact absurd rfl (h (.foreignCell c.index))
    · cases h
  room := by
    rintro m _ ⟨rfl, -⟩ hroom
    rw [Memory.size_followedBy] at hroom
    omega
  alloc := by
    rintro m _ v w ⟨rfl, -⟩ h hroom
    obtain ⟨rfl, -⟩ := rel_alike_moving_iff.1 h
    rw [Memory.size_followedBy] at hroom
    refine ⟨⟨?_, Set.mem_univ _⟩, (Memory.followedBy_push old m v).symm, Or.inr ?_⟩
    · rw [Memory.size_followedBy]
      rfl
    · rw [Memory.size_push]
      omega
  stall := by
    rintro m _ v ⟨rfl, -⟩ - hfull
    refine ⟨?_, hfull, ?_⟩
    · rw [Memory.size_followedBy] at hfull
      rw [Memory.Fits, Memory.size_push]
      omega
    · intro cell hlt
      rw [Memory.content?_followedBy, if_pos hlt]
  stalls_mono := by
    rintro m m' n ⟨hfits, h⟩ hle
    refine ⟨?_, h⟩
    rw [Memory.Fits] at hfits ⊢
    omega
  covers _ := ⟨fun c => ⟨_, rfl, Set.mem_univ c⟩, fun _ => ⟨_, rfl⟩⟩
  content := by
    rintro m _ c _ ⟨rfl, -⟩ ⟨rfl, -⟩
    rw [Memory.content?_followedBy_shift]
    cases m.store.content? c with
    | none => exact .none
    | some content => exact .some (rel_alike_moving_iff.2 ⟨rfl, fun _ _ => Set.subset_univ _⟩)
  write := by
    rintro m _ c _ v _ s t ⟨rfl, hfits⟩ ⟨rfl, -⟩ hv hs ht
    obtain ⟨rfl, -⟩ := alike_moving_iff.1 hv
    have hsize : Memory.size { m with store := s } = m.size := Store.size_write hs
    exact ⟨(Memory.followedBy_write old m hs ht).symm, by rw [Memory.Fits, hsize]; exact hfits⟩
  stamped := by
    rintro m _ ⟨rfl, hfits⟩
    refine ⟨rfl, ?_, hfits⟩
    simp only [Memory.followedBy, Memory.mk.injEq, true_and]
    omega

/-- In a fresh evaluator no program meets an internal error while there are cells left. -/
theorem notInternal_of_fresh {limit : Nat} {forms : List Form} {e : Error}
    (he : ((fresh limit).evaluate forms .empty).1 = .error e) : e.NotInternal ∨ e = Store.exhausted := by
  have hkept : Kept (fresh limit) [.empty] [] := Session.start.kept
  have hruns := evaluate_good (fresh limit) forms hkept.memory (hkept.scopes _ List.mem_cons_self)
  exact (hruns.error e he).imp_right Memory.Exhausts.error

/-- **A used evaluator answers as a fresh one does**, if there are numbers for the cells of the fresh run behind
those that are there. The error is the same, or the value and the scope are the same with cells that come behind
the old ones; the new cells are those of the fresh run, and the old ones are unchanged. If there are not numbers for
all of them, the program fails for want of a cell, with the old ones unchanged too. -/
theorem evaluate_followedBy (ev : Evaluator) (forms : List Form) :
    (ev.memory.Fits ((fresh ev.maxDepth).evaluate forms .empty).2.memory →
      (ev.evaluate forms .empty).1 = ((fresh ev.maxDepth).evaluate forms .empty).1.map
          (fun r => (r.1.map (Value.shift ev.memory.size ev.memory.closures), Scope.shift ev.memory.size r.2)) ∧
        (ev.evaluate forms .empty).2.memory.store.cells = ev.memory.store.cells ++
          ((fresh ev.maxDepth).evaluate forms .empty).2.memory.store.cells.map
            (Option.map (Value.shift ev.memory.size ev.memory.closures))) ∧
    (¬ev.memory.Fits ((fresh ev.maxDepth).evaluate forms .empty).2.memory →
      (ev.evaluate forms .empty).1 = .error Store.exhausted ∧
        Store.capacity ≤ (ev.evaluate forms .empty).2.memory.size ∧
        ∀ cell : CellId, cell.index < ev.memory.size →
          (ev.evaluate forms .empty).2.memory.store.content? cell = ev.memory.store.content? cell) := by
  have hmeet := evaluate_meets (C := behind ev.memory) (fresh ev.maxDepth) ev
    ⟨(Memory.followedBy_fresh ev.memory).symm, Or.inl rfl⟩ (perform_tracks_self _ _) forms .empty
  have hinternal := @notInternal_of_fresh ev.maxDepth forms
  generalize (fresh ev.maxDepth).evaluate forms .empty = r at hmeet hinternal ⊢
  generalize ev.evaluate forms .empty = s at hmeet ⊢
  obtain ⟨r, ev₁⟩ := r
  obtain ⟨s, ev₂⟩ := s
  cases hmeet with
  | quits h => exact h.elim
  | stalls h => exact ⟨fun hfits => absurd hfits h.1, fun _ => ⟨rfl, h.2⟩⟩
  | @error e e' _ _ he hm =>
    have hsame : e = e' := he (hinternal rfl)
    refine ⟨fun _ => ⟨?_, by rw [hm.1]; rfl⟩, absurd hm.2⟩
    rw [hsame]; rfl
  | @ok a b _ _ h hm =>
    obtain ⟨v, σ⟩ := a
    obtain ⟨w, τ⟩ := b
    obtain ⟨hw, -⟩ : w = _ ∧ _ := rel_alike_moving_iff.1 h.1
    obtain ⟨hτ, -⟩ : τ = _ ∧ _ := scopes_moving_iff.1 h.2
    refine ⟨fun _ => ⟨?_, by rw [hm.1]; rfl⟩, absurd hm.2⟩
    rw [hw, hτ]; rfl

/-- A function that knows its own cell, made again behind the first one. -/
theorem evaluate_followedBy_selfCall : ∃ ev : Evaluator, ev.maxDepth = 8 ∧ 0 < ev.memory.size ∧
    ev.memory.Fits ((fresh 8).evaluate selfCall .empty).2.memory ∧
    (ev.evaluate selfCall .empty).1 = ((fresh 8).evaluate selfCall .empty).1.map
      (fun r => (r.1.map (Value.shift ev.memory.size ev.memory.closures), Scope.shift ev.memory.size r.2)) := by
  have hsize : 0 < ((fresh 8).evaluate selfCall .empty).2.memory.size := by decide +kernel
  have hfits : ((fresh 8).evaluate selfCall .empty).2.memory.Fits ((fresh 8).evaluate selfCall .empty).2.memory :=
    Or.inr (by decide +kernel)
  exact ⟨_, rfl, hsize, hfits, ((evaluate_followedBy ((fresh 8).evaluate selfCall .empty).2 selfCall).1 hfits).1⟩

end Evaluator

end HostLisp
