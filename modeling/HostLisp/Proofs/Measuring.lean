import HostLisp.Error
import Mathlib.Tactic.Tauto

/-!
# Measuring how deep a form nests

The depth of a form is measured with forms that are pending. Each turn takes one of them: a list leaves its items
one level further in, and an atom leaves nothing. What is pending may grow in a turn, but it always has one node less
than before. It does not matter which of the pending forms is taken.

* `Form.Turn`, `Form.Turns`: a turn, and several of them.
* `Form.Turns.nodes_eq`: the number of turns is the number of nodes that are gone.
* `Form.Turn.within_iff`, `Form.Turns.within_iff`: what is pending stays as deep as it was.
* `Form.turns_deepest`: `Form.deepest` takes turns until nothing is pending.
* `Form.nestingDepth_eq_depth`: **the measured depth is the depth.**
* `Form.measuring_ends_at_depth`: **measuring ends at the depth in any order**, and forms deeper than a limit fail.
-/

namespace HostLisp.Form

/-! ## Bounds -/

theorem depthEach_le_iff {fs : List Form} {n : Nat} : depthEach fs ≤ n ↔ ∀ f ∈ fs, f.depth ≤ n := by
  induction fs with
  | nil => simp [depthEach]
  | cons f fs ih => rw [depthEach, Nat.max_le, ih, List.forall_mem_cons]

/-- What bounds the items of a list one level further in bounds the list. -/
theorem depth_list_le_iff {items : List Form} {level n : Nat} :
    level + (Form.list items).depth ≤ n ↔ level + 1 ≤ n ∧ ∀ f ∈ items, level + 1 + f.depth ≤ n := by
  have hitems : depthEach items ≤ n - (level + 1) ↔ _ := depthEach_le_iff
  rw [depth]
  constructor
  · intro h
    refine ⟨by omega, fun f hf => ?_⟩
    have := hitems.1 (by omega) f hf
    omega
  · rintro ⟨hlevel, h⟩
    have := hitems.2 fun f hf => by have := h f hf; omega
    omega

/-! ## Turns -/

/-- A measurement under way: the deepest level reached, and the pending forms with the levels at which they stand. -/
structure Measurement where
  reached : Nat
  pending : List (Form × Nat)

/-- The start of the measurement of a form. -/
def measurement (f : Form) : Measurement := ⟨0, [(f, 0)]⟩

namespace Measurement

/-- How many nodes the pending forms have. -/
def nodes (m : Measurement) : Nat := nodesEach (m.pending.map Prod.fst)

/-- Pending forms stand at levels that were reached. -/
def Sound (m : Measurement) : Prop := ∀ p ∈ m.pending, p.2 ≤ m.reached

/-- Neither what was reached nor what is pending is deeper than a level. -/
def Within (m : Measurement) (n : Nat) : Prop :=
  m.reached ≤ n ∧ ∀ p ∈ m.pending, p.2 + p.1.depth ≤ n

end Measurement

/-- **A turn**, which takes any of the pending forms. The items of a list take its place. -/
inductive Turn : Measurement → Measurement → Prop
  | list (reached : Nat) (before after : List (Form × Nat)) (items : List Form) (level : Nat) :
      Turn ⟨reached, before ++ (.list items, level) :: after⟩
        ⟨max reached (level + 1), before ++ (items.map (fun f => (f, level + 1)) ++ after)⟩
  | literal (reached : Nat) (before after : List (Form × Nat)) (l : Literal) (level : Nat) :
      Turn ⟨reached, before ++ (.literal l, level) :: after⟩ ⟨reached, before ++ after⟩
  | symbol (reached : Nat) (before after : List (Form × Nat)) (name : String) (level : Nat) :
      Turn ⟨reached, before ++ (.symbol name, level) :: after⟩ ⟨reached, before ++ after⟩

/-- A number of turns. -/
inductive Turns : Nat → Measurement → Measurement → Prop
  | none (m : Measurement) : Turns 0 m m
  | more {n : Nat} {m m₁ m' : Measurement} (h : Turn m m₁) (hs : Turns n m₁ m') : Turns (n + 1) m m'

variable {m m' : Measurement} {n : Nat}

/-- Each of the pending forms can be taken, and what it leaves stands in its place. -/
theorem exists_turn {before after : List (Form × Nat)} {p : Form × Nat} (h : m.pending = before ++ p :: after) :
    ∃ reached left, Turn m ⟨reached, before ++ (left ++ after)⟩ := by
  obtain ⟨reached, pending⟩ := m
  obtain ⟨f, level⟩ := p
  subst h
  cases f with
  | literal l => exact ⟨_, [], .literal reached before after l level⟩
  | symbol name => exact ⟨_, [], .symbol reached before after name level⟩
  | list items => exact ⟨_, _, .list reached before after items level⟩

theorem Turn.nodes_eq (h : Turn m m') : m.nodes = m'.nodes + 1 := by
  cases h <;> simp [Measurement.nodes, nodesEach_append, nodesEach, Form.nodes, Function.comp_def] <;> omega

theorem Turns.nodes_eq (h : Turns n m m') : m.nodes = m'.nodes + n := by
  induction h with
  | none => rfl
  | more h _ ih => rw [h.nodes_eq, ih, Nat.add_assoc]

theorem Turn.sound (h : Turn m m') (hm : m.Sound) : m'.Sound := by
  cases h with
  | list reached before after items level =>
    simp only [Measurement.Sound, List.forall_mem_append, List.forall_mem_cons, List.forall_mem_map] at hm ⊢
    obtain ⟨hbefore, -, hafter⟩ := hm
    have hreached : reached ≤ max reached (level + 1) := Nat.le_max_left _ _
    exact ⟨fun p hp => Nat.le_trans (hbefore p hp) hreached, fun _ _ => Nat.le_max_right _ _,
      fun p hp => Nat.le_trans (hafter p hp) hreached⟩
  | literal | symbol =>
    simp only [Measurement.Sound, List.forall_mem_append, List.forall_mem_cons] at hm ⊢
    exact ⟨hm.1, hm.2.2⟩

/-- **A turn leaves the depth as it is.** An atom stands at a level that was reached, so it adds nothing. -/
theorem Turn.within_iff (h : Turn m m') (hm : m.Sound) (n : Nat) : m'.Within n ↔ m.Within n := by
  cases h with
  | list reached before after items level =>
    simp only [Measurement.Within, List.forall_mem_append, List.forall_mem_cons, List.forall_mem_map,
      depth_list_le_iff, Nat.max_le]
    tauto
  | literal reached before after _ level | symbol reached before after _ level =>
    simp only [Measurement.Sound, List.forall_mem_append, List.forall_mem_cons] at hm
    have hatom : reached ≤ n → level ≤ n := Nat.le_trans hm.2.1
    simp only [Measurement.Within, List.forall_mem_append, List.forall_mem_cons, depth, Nat.add_zero]
    tauto

theorem Turns.within_iff (h : Turns n m m') (hm : m.Sound) (k : Nat) : m'.Within k ↔ m.Within k := by
  induction h with
  | none => rfl
  | more h _ ih => exact (ih (h.sound hm)).trans (h.within_iff hm k)

/-- **A measurement that has come to its end has reached the depth of the form.** -/
theorem Turns.reached_eq_depth {f : Form} (h : Turns n f.measurement m) (hend : m.pending = []) :
    m.reached = f.depth := by
  have hsound : f.measurement.Sound := by simp [Measurement.Sound, measurement]
  have hbound (k : Nat) : m.reached ≤ k ↔ f.depth ≤ k := by
    simpa [Measurement.Within, measurement, hend] using h.within_iff hsound k
  exact Nat.le_antisymm ((hbound _).2 (Nat.le_refl _)) ((hbound _).1 (Nat.le_refl _))

/-! ## The measured depth -/

/-- The deepest level is found in turns that take the first of the pending forms. -/
theorem turns_deepest (reached : Nat) (pending : List (Form × Nat)) :
    ∃ n, Turns n ⟨reached, pending⟩ ⟨deepest reached pending, []⟩ := by
  fun_induction deepest reached pending with
  | case1 reached => exact ⟨0, .none _⟩
  | case2 reached items level pending ih =>
    obtain ⟨n, hn⟩ := ih
    simp only [List.map_attach_eq_pmap, List.pmap_eq_map] at hn ⊢
    exact ⟨n + 1, .more (.list reached [] pending items level) hn⟩
  | case3 reached l level pending ih =>
    obtain ⟨n, hn⟩ := ih
    exact ⟨n + 1, .more (.literal reached [] pending l level) hn⟩
  | case4 reached name level pending ih =>
    obtain ⟨n, hn⟩ := ih
    exact ⟨n + 1, .more (.symbol reached [] pending name level) hn⟩

/-- **The measured depth is the depth.** -/
theorem nestingDepth_eq_depth (f : Form) : f.nestingDepth = f.depth := by
  obtain ⟨n, hn⟩ := turns_deepest 0 [(f, 0)]
  exact Turns.reached_eq_depth hn rfl

/-- A form is refused exactly if it nests deeper than the limit. -/
theorem checkNesting_eq (f : Form) (limit : Nat) : f.checkNesting limit =
    if limit < f.depth then .error (.plain (.limitExceeded (.nesting limit))) else .ok () := by
  rw [checkNesting, nestingDepth_eq_depth]

/-- **Measuring a form ends at its depth**, in whatever order pending forms are taken. Any form that is pending can be
taken next, but there are no more turns than the form has nodes. When nothing is pending, the depth of the form is the
level that was reached. The measured depth comes about so, and a form fails exactly at the limits that are less than
its depth. -/
theorem measuring_ends_at_depth (f : Form) :
    (∀ n m, Turns n f.measurement m → n ≤ f.nodes ∧
      (∀ before p after, m.pending = before ++ p :: after →
        ∃ reached left, Turn m ⟨reached, before ++ (left ++ after)⟩) ∧
      (m.pending = [] → n = f.nodes ∧ m.reached = f.depth)) ∧
    Turns f.nodes f.measurement ⟨f.nestingDepth, []⟩ ∧ f.nestingDepth = f.depth ∧
    ∀ limit, (f.checkNesting limit = .error (.plain (.limitExceeded (.nesting limit))) ↔ limit < f.depth) ∧
      (f.checkNesting limit = .ok () ↔ f.depth ≤ limit) := by
  have hnodes {n : Nat} {m : Measurement} (h : Turns n f.measurement m) : f.nodes = m.nodes + n := by
    simpa [measurement, Measurement.nodes, nodesEach] using h.nodes_eq
  have hnone {m : Measurement} (hend : m.pending = []) : m.nodes = 0 := by
    rw [Measurement.nodes, hend, List.map_nil, nodesEach]
  refine ⟨fun n m h => ⟨?_, fun _ _ _ => exists_turn, fun hend => ⟨?_, h.reached_eq_depth hend⟩⟩, ?_,
    nestingDepth_eq_depth f, fun limit => ?_⟩
  · have := hnodes h
    omega
  · rw [hnodes h, hnone hend, Nat.zero_add]
  · obtain ⟨n, hn⟩ := turns_deepest 0 [(f, 0)]
    have hcount : f.nodes = n := by rw [hnodes hn, hnone rfl, Nat.zero_add]
    exact hcount ▸ hn
  · rw [checkNesting_eq]
    by_cases hlimit : limit < f.depth
    · simp [hlimit]
    · simp [hlimit, Nat.le_of_not_lt hlimit]

/-- A name, a list in a list, and a truth value. -/
def uneven : Form := .list [.symbol "a", .list [.list []], .literal (.boolean true)]

/-- Five turns that each take the last of the pending forms reach the third level. -/
theorem measuring_ends_at_depth_uneven :
    Turns 5 uneven.measurement ⟨3, []⟩ ∧ uneven.nodes = 5 ∧ uneven.depth = 3 ∧
      uneven.checkNesting 2 = .error (.plain (.limitExceeded (.nesting 2))) ∧ uneven.checkNesting 3 = .ok () := by
  have hturns : Turns 5 uneven.measurement ⟨3, []⟩ :=
    .more (.list 0 [] [] _ 0) <|
    .more (.literal 1 [(.symbol "a", 1), (.list [.list []], 1)] [] (.boolean true) 1) <|
    .more (.list 1 [(.symbol "a", 1)] [] [.list []] 1) <|
    .more (.list 2 [(.symbol "a", 1)] [] [] 2) <|
    .more (.symbol 3 [] [] "a" 1) (.none _)
  obtain ⟨hruns, -, -, hlimits⟩ := measuring_ends_at_depth uneven
  obtain ⟨hcount, hdepth⟩ := (hruns 5 _ hturns).2.2 rfl
  refine ⟨hturns, hcount.symm, hdepth.symm, (hlimits 2).1.2 ?_, (hlimits 3).2.2 ?_⟩
  · exact Nat.lt_of_lt_of_eq (by decide) hdepth
  · exact Nat.le_of_eq hdepth.symm

end HostLisp.Form
