import HostLisp.Error
import HostLisp.Host.Identifier
import Std.Data.ExtTreeMap
import Std.Data.ExtTreeSet

/-!
# Renamings

A renaming says which host identifier, its *target*, a name stands for, and which targets are taken. A
name that is bound gets a target that is not taken, so an inner binding never hides an outer one in the
host.

* `Renaming.ofGlobals`: names that stand for themselves.
* `Renaming.put`: binds a name to a fresh target.
* `Renaming.reserve?`: takes a target without a name.
-/

namespace HostLisp.Host

/-- Targets of names, and the targets that are taken. -/
structure Renaming where
  targets : Std.ExtTreeMap String String
  taken : Std.ExtTreeSet String
deriving DecidableEq

namespace Renaming

/-- The renaming that binds and takes nothing. -/
def empty : Renaming := ⟨∅, ∅⟩

/-- The target of a name. -/
def target? (ρ : Renaming) (name : String) : Option String := ρ.targets[name]?

/-- Whether a target is taken. -/
def isTaken (ρ : Renaming) (target : String) : Bool := ρ.taken.contains target

/-- How many names are bound. -/
def size (ρ : Renaming) : Nat := ρ.targets.size

/-- Binds a name to a target and takes the target. -/
def bind (ρ : Renaming) (name target : String) : Renaming :=
  ⟨ρ.targets.insert name target, ρ.taken.insert target⟩

/-- Each name stands for itself. -/
def ofGlobals (names : List String) : Renaming :=
  names.foldl (fun ρ name => ρ.bind name name) empty

/-- The target for a spelling: the spelling itself if it is free, else with the least number from 1 on
that makes it free. Among as many numbers as there are taken targets, and one more, there is a free
one. -/
def fresh (ρ : Renaming) (spelling : String) : String :=
  let numbered (n : Nat) : String := spelling ++ toString n
  if ρ.isTaken spelling then
    let count := ρ.taken.size
    numbered (((List.range' 1 count).find? fun n => !ρ.isTaken (numbered n)).getD (count + 1))
  else spelling

/-- **Binds a name to a fresh target.** A character that has no spelling is reported at `site`. -/
def put (ρ : Renaming) (name : String) (site : Form) : Except Error (String × Renaming) :=
  match sanitize name with
  | .error c => .error (.raised site (.unsupportedCharacter c))
  | .ok spelling => .ok (ρ.fresh spelling, ρ.bind name (ρ.fresh spelling))

/-- Takes a target that is free. -/
def reserve? (ρ : Renaming) (target : String) : Option Renaming :=
  if ρ.isTaken target then none else some { ρ with taken := ρ.taken.insert target }

end Renaming

end HostLisp.Host
