import Std.Data.ExtTreeMap

/-!
# Scopes

A scope says which cell a name stands for. Scopes are values: binding a name gives a new scope and leaves
the old one as it was. Two scopes are equal when they bind the same names to the same cells.
-/

namespace HostLisp

/-- A cell of a store, by its number. -/
structure CellId where
  index : Nat
deriving DecidableEq, Ord

/-- The cells that names stand for. -/
abbrev Scope := Std.ExtTreeMap String CellId

namespace Scope

/-- The scope that binds nothing. -/
def empty : Scope := ∅

/-- The cell that a name stands for. -/
def find? (σ : Scope) (name : String) : Option CellId := σ[name]?

/-- Binds a name, over any earlier binding of it. -/
def bind (σ : Scope) (name : String) (cell : CellId) : Scope := σ.insert name cell

@[simp] theorem find?_empty (name : String) : empty.find? name = none := by
  simp [empty, find?]

theorem find?_bind (σ : Scope) (name other : String) (cell : CellId) :
    (σ.bind name cell).find? other = if name = other then some cell else σ.find? other := by
  simp [bind, find?, Std.ExtTreeMap.getElem?_insert]

/-- Scopes that bind the same names to the same cells are equal. -/
theorem ext_find? {σ τ : Scope} (h : ∀ name, σ.find? name = τ.find? name) : σ = τ :=
  Std.ExtTreeMap.ext_getElem? h

end Scope

end HostLisp
