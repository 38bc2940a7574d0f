import HostLisp.Value.Basic

/-!
# Stores

A store is a growing row of cells. A cell is empty from the time it is made until a value is first
written to it. Cells are never removed, so a cell that a store has it keeps. Cells are numbered with 32
bits: when there are no numbers left, no cell can be made any more.

* `Store.alloc`: a new cell behind the others, up to `Store.capacity` of them.
* `Store.read`, `Store.write`: the content of a cell. A cell that the store does not have is refused.
-/

namespace HostLisp

/-- A row of cells, each empty or holding a value. -/
structure Store where
  cells : Array (Option Value)

namespace Store

/-- The store without cells. -/
def empty : Store := ⟨#[]⟩

/-- How many cells a store has. -/
def size (s : Store) : Nat := s.cells.size

/-- How many cells a store can have: as many as there are numbers of 32 bits. -/
def capacity : Nat := UInt32.size

/-- The store with one more cell. -/
def push (s : Store) (content : Option Value) : Store := ⟨s.cells.push content⟩

/-- The failure to make a cell. -/
def exhausted : Error := .plain (.internal .cellsExhausted)

/-- A new cell with the given content, if there is a number for it. -/
def alloc (s : Store) (content : Option Value) : Except Error (CellId × Store) :=
  if s.size < capacity then .ok (⟨s.size⟩, s.push content) else .error exhausted

/-- The content of a cell, if the store has the cell. -/
def content? (s : Store) (cell : CellId) : Option (Option Value) :=
  s.cells[cell.index]?

/-- The failure to find a cell. -/
def foreign (cell : CellId) : Error := .plain (.internal (.foreignCell cell.index))

/-- The content of a cell. -/
def read (s : Store) (cell : CellId) : Except Error (Option Value) :=
  match s.content? cell with
  | some content => .ok content
  | none => .error (foreign cell)

/-- The store with a value written to a cell. -/
def write (s : Store) (cell : CellId) (v : Value) : Except Error Store :=
  if h : cell.index < s.cells.size then .ok ⟨s.cells.set cell.index (some v) h⟩
  else .error (foreign cell)

@[simp] theorem size_empty : empty.size = 0 := rfl

@[simp] theorem size_push (s : Store) (content : Option Value) : (s.push content).size = s.size + 1 := by
  simp [push, size]

theorem content?_push (s : Store) (content : Option Value) (cell : CellId) :
    (s.push content).content? cell = if cell.index = s.size then some content else s.content? cell := by
  unfold push content? size
  rw [Array.getElem?_push]

theorem size_write {s t : Store} {cell : CellId} {v : Value} (h : s.write cell v = .ok t) :
    t.size = s.size := by
  unfold write at h
  split at h
  · cases h; simp [size]
  · simp at h

theorem content?_write {s t : Store} {cell : CellId} {v : Value} (h : s.write cell v = .ok t)
    (other : CellId) :
    t.content? other = if other.index = cell.index then some (some v) else s.content? other := by
  unfold write at h
  split at h
  · rename_i hlt
    cases h
    simp only [content?]
    rw [Array.getElem?_set]
    by_cases hi : cell.index = other.index
    · rw [if_pos hi, if_pos hi.symm]
    · rw [if_neg hi, if_neg (fun h => hi h.symm)]
  · simp at h

end Store

end HostLisp
