import HostLisp.Host.Renaming
import HostLisp.Proofs.Spelling
import Mathlib.Data.List.Basic
import Mathlib.Data.List.Nodup

/-!
# Renamings that only grow

Compiling changes a renaming in one way: it binds names to fresh targets, one after the other. `Puts`
says so, with the names and their targets in order, and the rest follows from it by induction.

* `fresh_not_taken`: the target for a spelling is never a taken one. Among as many numbers as there are
  taken targets one is free, by counting.
* `Renaming.Good`: bound targets are taken, and no two names share a target.
* `Puts.good`, `Puts.isTaken_iff`, `Puts.target?_cases`: **what putting names keeps.** A good renaming
  stays good, exactly the new targets become taken, and a name changes its target to a new one only.
* `Puts.nodup`, `Puts.not_taken`, `Puts.isSafe`: the new targets are distinct, fresh and usable.
-/

namespace HostLisp.Host.Renaming

/-! ## Fresh targets -/

@[simp] theorem isTaken_bind (ρ : Renaming) (name target t : String) :
    (ρ.bind name target).isTaken t = true ↔ t = target ∨ ρ.isTaken t = true := by
  simp only [isTaken, bind, Std.ExtTreeSet.contains_insert, Bool.or_eq_true, beq_iff_eq,
    Std.LawfulEqCmp.compare_eq_iff_eq]
  rw [eq_comm]

theorem target?_bind (ρ : Renaming) (name target n : String) :
    (ρ.bind name target).target? n = if name = n then some target else ρ.target? n := by
  simp only [target?, bind, Std.ExtTreeMap.getElem?_insert, Std.LawfulEqCmp.compare_eq_iff_eq]

/-- Distinct taken targets are not more than the renaming counts. -/
theorem length_le_of_taken {ρ : Renaming} {ts : List String} (hn : ts.Nodup)
    (ht : ∀ t ∈ ts, ρ.isTaken t = true) : ts.length ≤ ρ.taken.size := by
  rw [← Std.ExtTreeSet.length_toList]
  apply hn.length_le_of_subset
  intro t h
  rw [Std.ExtTreeSet.mem_toList]
  exact ht t h

/-- If a spelling is taken, then one of the first numbers makes it free. -/
theorem exists_number_not_taken {ρ : Renaming} {s : String} (hs : ρ.isTaken s = true) :
    ∃ n ∈ List.range' 1 ρ.taken.size, ρ.isTaken (s ++ toString n) = false := by
  by_contra hall
  push Not at hall
  -- the spelling and all its numbered forms would be one more than there are taken targets
  have hn : (s :: (List.range' 1 ρ.taken.size).map fun n => s ++ toString n).Nodup := by
    rw [List.nodup_cons]
    refine ⟨?_, (List.nodup_range' ..).map fun _ _ => numbered_injective s⟩
    intro h
    obtain ⟨n, -, hn⟩ := List.mem_map.1 h
    exact ne_numbered s n hn.symm
  have := length_le_of_taken hn fun t ht => by
    rcases List.mem_cons.1 ht with rfl | ht
    · exact hs
    · obtain ⟨n, hn, rfl⟩ := List.mem_map.1 ht
      simpa using hall n hn
  simp only [List.length_cons, List.length_map, List.length_range'] at this
  omega

/-- **The target for a spelling**: the spelling if it is free, else the spelling with the least number from 1 on
that makes it free. -/
theorem fresh_cases (ρ : Renaming) (s : String) :
    (ρ.isTaken s = false ∧ ρ.fresh s = s) ∨
      ∃ n : Nat, ρ.fresh s = s ++ toString n ∧ ρ.isTaken (s ++ toString n) = false ∧
        ρ.isTaken s = true ∧ 1 ≤ n ∧ ∀ m, 1 ≤ m → m < n → ρ.isTaken (s ++ toString m) = true := by
  unfold fresh
  cases hs : ρ.isTaken s with
  | false => exact Or.inl ⟨rfl, by simp⟩
  | true =>
    right
    simp only [if_true]
    cases hf : (List.range' 1 ρ.taken.size).find? fun n => !ρ.isTaken (s ++ toString n) with
    | some n =>
      rw [List.find?_range'_eq_some, List.mem_range'_1] at hf
      obtain ⟨hfree, hmem, hleast⟩ := hf
      exact ⟨n, rfl, by simpa using hfree, trivial, hmem.1, fun m hm hlt => by simpa using hleast m hm hlt⟩
    | none =>
      obtain ⟨n, hn, hfree⟩ := exists_number_not_taken hs
      have := List.find?_eq_none.1 hf n hn
      rw [hfree] at this; simp at this

theorem fresh_not_taken (ρ : Renaming) (s : String) : ρ.isTaken (ρ.fresh s) = false := by
  rcases fresh_cases ρ s with ⟨h, he⟩ | ⟨n, he, h, -⟩
  · rw [he]; exact h
  · rw [he]; exact h

theorem isSafe_fresh (ρ : Renaming) {s : String} (hs : isSafe s = true) :
    isSafe (ρ.fresh s) = true := by
  rcases fresh_cases ρ s with ⟨-, he⟩ | ⟨n, he, -⟩
  · rw [he]; exact hs
  · rw [he]; exact isSafe_numbered hs n

/-- **Binding a name** gives it a target that is free and usable, and changes nothing else. -/
theorem put_spec {ρ ρ' : Renaming} {name target : String} {site : Form}
    (h : ρ.put name site = .ok (target, ρ')) :
    ρ' = ρ.bind name target ∧ ρ.isTaken target = false ∧ isSafe target = true := by
  unfold put at h
  cases hs : sanitize name with
  | error c => rw [hs] at h; cases h
  | ok s =>
    rw [hs] at h
    cases h
    exact ⟨rfl, fresh_not_taken ρ s, isSafe_fresh ρ (isSafe_of_sanitize hs)⟩

/-! ## Good renamings -/

/-- Bound targets are taken, and no two names share a target. -/
structure Good (ρ : Renaming) : Prop where
  taken : ∀ {name target}, ρ.target? name = some target → ρ.isTaken target = true
  injective : ∀ {m n target}, ρ.target? m = some target → ρ.target? n = some target → m = n

theorem good_empty : empty.Good := by
  constructor <;> intro _ _ <;> simp [target?, empty]

theorem Good.bind {ρ : Renaming} (hρ : ρ.Good) {name target : String} (ht : ρ.isTaken target = false) :
    (ρ.bind name target).Good := by
  have hfree : ∀ n, ρ.target? n ≠ some target := by
    intro n h
    rw [hρ.taken h] at ht; cases ht
  constructor
  · intro n t h
    rw [target?_bind] at h
    rw [isTaken_bind]
    split at h
    · left; cases h; rfl
    · right; exact hρ.taken h
  · intro m n t hm hn
    rw [target?_bind] at hm hn
    split at hm <;> split at hn
    · simp_all
    · cases hm; exact absurd hn (hfree n)
    · cases hn; exact absurd hm (hfree m)
    · exact hρ.injective hm hn

/-! ## Putting names one after the other -/

/-- Names bound in order to fresh targets, and the renaming behind them. -/
inductive Puts : Renaming → List String → List String → Renaming → Prop
  | nil (ρ : Renaming) : Puts ρ [] [] ρ
  | cons {ρ ρ₁ ρ₂ : Renaming} {name target : String} {names targets : List String} {site : Form}
      (h : ρ.put name site = .ok (target, ρ₁)) (hs : Puts ρ₁ names targets ρ₂) :
      Puts ρ (name :: names) (target :: targets) ρ₂

namespace Puts

variable {ρ ρ₁ ρ₂ : Renaming} {names names' targets targets' : List String}

theorem one {name target : String} {site : Form} (h : ρ.put name site = .ok (target, ρ₁)) :
    Puts ρ [name] [target] ρ₁ :=
  .cons h (.nil ρ₁)

theorem append (h : Puts ρ names targets ρ₁) (h' : Puts ρ₁ names' targets' ρ₂) :
    Puts ρ (names ++ names') (targets ++ targets') ρ₂ := by
  induction h with
  | nil => exact h'
  | cons hp _ ih => exact .cons hp (ih h')

/-- **A good renaming stays good.** -/
theorem good (h : Puts ρ names targets ρ₁) (hρ : ρ.Good) : ρ₁.Good := by
  induction h with
  | nil => exact hρ
  | cons hp _ ih =>
    obtain ⟨rfl, ht, -⟩ := put_spec hp
    exact ih (hρ.bind ht)

/-- **Exactly the new targets become taken.** -/
theorem isTaken_iff (h : Puts ρ names targets ρ₁) (t : String) :
    ρ₁.isTaken t = true ↔ ρ.isTaken t = true ∨ t ∈ targets := by
  induction h with
  | nil => simp
  | cons hp _ ih =>
    obtain ⟨rfl, -, -⟩ := put_spec hp
    rw [ih, isTaken_bind, List.mem_cons]
    tauto

theorem not_taken (h : Puts ρ names targets ρ₁) : ∀ t ∈ targets, ρ.isTaken t = false := by
  induction h with
  | nil => simp
  | cons hp _ ih =>
    obtain ⟨rfl, ht, -⟩ := put_spec hp
    intro t hm
    rcases List.mem_cons.1 hm with rfl | hm
    · exact ht
    · have := ih t hm
      rw [← Bool.not_eq_true, isTaken_bind, not_or, Bool.not_eq_true] at this
      exact this.2

theorem nodup (h : Puts ρ names targets ρ₁) : targets.Nodup := by
  induction h with
  | nil => simp
  | cons hp hs ih =>
    obtain ⟨rfl, -, -⟩ := put_spec hp
    rw [List.nodup_cons]
    refine ⟨?_, ih⟩
    -- the first target is taken when the others are chosen
    intro hm
    have := hs.not_taken _ hm
    rw [← Bool.not_eq_true, isTaken_bind] at this
    exact this (Or.inl rfl)

theorem isSafe (h : Puts ρ names targets ρ₁) : ∀ t ∈ targets, isSafe t = true := by
  induction h with
  | nil => simp
  | cons hp _ ih =>
    intro t hm
    rcases List.mem_cons.1 hm with rfl | hm
    · exact (put_spec hp).2.2
    · exact ih t hm

/-- **A name keeps its target or gets a new one.** -/
theorem target?_cases (h : Puts ρ names targets ρ₁) (n : String) :
    ρ₁.target? n = ρ.target? n ∨ ∃ t ∈ targets, ρ₁.target? n = some t := by
  induction h with
  | nil => exact Or.inl rfl
  | @cons _ _ _ name target _ _ _ hp _ ih =>
    obtain ⟨rfl, -, -⟩ := put_spec hp
    rcases ih with ih | ⟨t, ht, ih⟩
    · rw [target?_bind] at ih
      split at ih
      · exact Or.inr ⟨target, by simp, ih⟩
      · exact Or.inl ih
    · exact Or.inr ⟨t, List.mem_cons_of_mem _ ht, ih⟩

/-- The bound names are those bound before and the new ones. -/
theorem isSome_target?_iff (h : Puts ρ names targets ρ₁) (n : String) :
    (ρ₁.target? n).isSome = true ↔ (ρ.target? n).isSome = true ∨ n ∈ names := by
  induction h with
  | nil => simp
  | cons hp _ ih =>
    obtain ⟨rfl, -, -⟩ := put_spec hp
    rw [ih, target?_bind, List.mem_cons]
    split
    · rename_i h
      simp [h]
    · rename_i h
      have : n ≠ _ := Ne.symm h
      simp [this]

end Puts

/-- A renaming that is reached by putting names. -/
def Extends (ρ ρ' : Renaming) : Prop := ∃ names targets, Puts ρ names targets ρ'

namespace Extends

variable {ρ ρ₁ ρ₂ : Renaming}

theorem refl (ρ : Renaming) : ρ.Extends ρ := ⟨[], [], .nil ρ⟩

theorem trans (h : ρ.Extends ρ₁) (h' : ρ₁.Extends ρ₂) : ρ.Extends ρ₂ := by
  obtain ⟨_, _, h⟩ := h
  obtain ⟨_, _, h'⟩ := h'
  exact ⟨_, _, h.append h'⟩

theorem good (h : ρ.Extends ρ₁) (hρ : ρ.Good) : ρ₁.Good := by
  obtain ⟨_, _, h⟩ := h
  exact h.good hρ

end Extends

end HostLisp.Host.Renaming
