import HostLisp.Form.Basic

/-!
# How deep forms nest

* `Form.depth`: by recursion on the form, 0 for an atom and one more than the deepest item for a list.
* `Form.nestingDepth`: the same measure by a list of pending forms, so that measuring a form of any
  depth takes no deep recursion.
* `Form.nestingLimit`: the depth up to which forms are read, evaluated and compiled.
-/

namespace HostLisp.Form

/-- Forms nest at most this deep in programs. -/
def nestingLimit : Nat := 256

mutual

/-- The nesting depth of a form. -/
def depth : Form → Nat
  | .list items => depthEach items + 1
  | _ => 0

/-- The greatest nesting depth among forms. -/
def depthEach : List Form → Nat
  | [] => 0
  | f :: fs => max (depth f) (depthEach fs)

end

mutual

/-- How many nodes a form has. -/
def nodes : Form → Nat
  | .list items => nodesEach items + 1
  | _ => 1

/-- How many nodes forms have together. -/
def nodesEach : List Form → Nat
  | [] => 0
  | f :: fs => nodes f + nodesEach fs

end

theorem nodesEach_append (fs gs : List Form) :
    nodesEach (fs ++ gs) = nodesEach fs + nodesEach gs := by
  induction fs with
  | nil => simp [nodesEach]
  | cons f fs ih => simp [nodesEach, ih]; omega

/-- The deepest level among pending forms, each with the level at which it stands, and a level already
reached. -/
def deepest (reached : Nat) : List (Form × Nat) → Nat
  | [] => reached
  | (.list items, level) :: pending =>
    deepest (max reached (level + 1)) (items.map (fun f => (f, level + 1)) ++ pending)
  | (.literal _, _) :: pending => deepest reached pending
  | (.symbol _, _) :: pending => deepest reached pending
termination_by pending => nodesEach (pending.map Prod.fst)
decreasing_by
  · simp [nodesEach, nodes, nodesEach_append, Function.comp_def]
  · simp [nodesEach, nodes]
  · simp [nodesEach, nodes]

/-- The nesting depth of a form. -/
def nestingDepth (f : Form) : Nat :=
  deepest 0 [(f, 0)]

end HostLisp.Form
