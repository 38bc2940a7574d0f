import HostLisp.Compiler.Codegen
import HostLisp.Proofs.Parts
import Mathlib.Data.List.Basic

/-!
# The targets that an expression declares

A host declaration holds for the whole function it stands in. `Expr.declared` lists the targets that an
expression declares in the function around it; what a function inside it declares is its own
(`Expr.ownTargets`).

* `declared_joined`: **a template list declares what its parts declare.** A splice is left out where its
  text is that of the empty array, and such a text has no declaration in it
  (`declared_eq_nil_of_isEmptyArray`).
-/

namespace HostLisp

namespace Host.Expr

mutual

/-- The targets that an expression declares in the function it stands in, in order. -/
def declared : Expr → List String
  | .literal _ | .identifier _ | .intern _ => []
  | .array items => declaredEach items
  | .concat pieces => declaredEach pieces
  | .object fields => declaredFields fields
  | .conditional test consequent alternative =>
    declared test ++ (declared consequent ++ declared alternative)
  | .function _ _ _ => []
  | .call callee args => declared callee ++ declaredEach args
  | .index target key => declared target ++ declared key
  | .member target _ => declared target
  | .assign place value => declared place ++ declared value
  | .declare target init => target :: declared init

/-- The targets that expressions declare, from left to right. -/
def declaredEach : List Expr → List String
  | [] => []
  | e :: es => declared e ++ declaredEach es

/-- The targets that the fields of an object declare. -/
def declaredFields : List (String × Expr) → List String
  | [] => []
  | (_, e) :: fields => declared e ++ declaredFields fields

end

/-- The targets that belong to a function: its parameters, and what its body declares. -/
def ownTargets : Expr → List String
  | .function params leading result => params.names ++ (declaredEach leading ++ declared result)
  | _ => []

theorem declaredEach_append (es fs : List Expr) :
    declaredEach (es ++ fs) = declaredEach es ++ declaredEach fs := by
  induction es with
  | nil => rfl
  | cons e es ih => simp [declaredEach, ih]

/-! ## A declaration shows in the text -/

theorem mem_intercalate {c : Char} {sep s : String} {texts : List String} (hs : s ∈ texts)
    (hc : c ∈ s.toList) : c ∈ (sep.intercalate texts).toList := by
  induction texts with
  | nil => simp at hs
  | cons t texts ih =>
    cases texts with
    | nil =>
      rw [List.mem_singleton] at hs
      rw [String.intercalate_singleton, ← hs]; exact hc
    | cons u texts =>
      rw [String.intercalate_cons_cons]
      simp only [String.toList_append, List.mem_append]
      rcases List.mem_cons.1 hs with rfl | hs
      · exact Or.inl (Or.inl hc)
      · exact Or.inr (ih hs)

theorem mem_targetText {c : Char} {text : String} (hc : c ∈ text.toList) :
    c ∈ (targetText text).toList := by
  unfold targetText
  split
  · simp [hc]
  · exact hc

theorem mem_memberText {c : Char} {text key : String} (hc : c ∈ text.toList) :
    c ∈ (memberText text key).toList := by
  unfold memberText
  split <;> simp [mem_targetText hc]

mutual

/-- The text of an expression that declares something has the first letter of a declaration in it. -/
theorem mem_render (indent : String) : ∀ e : Expr, declared e ≠ [] → 'v' ∈ (render indent e).toList
  | .literal _, h => absurd rfl h
  | .identifier _, h => absurd rfl h
  | .intern _, h => absurd rfl h
  | .function _ _ _, h => absurd rfl h
  | .array items, h => by
    obtain ⟨s, hs, hv⟩ := mem_renderEach indent items h
    simp only [render, commas, String.toList_append, List.mem_append]
    exact Or.inl (Or.inr (mem_intercalate hs hv))
  | .concat pieces, h => by
    obtain ⟨s, hs, hv⟩ := mem_renderEach indent pieces h
    simp only [render, String.toList_append, List.mem_append]
    exact Or.inl (Or.inr (mem_intercalate hs hv))
  | .object fields, h => by
    obtain ⟨s, hs, hv⟩ := mem_renderFields indent fields h
    simp only [render, commas, String.toList_append, List.mem_append]
    exact Or.inl (Or.inr (mem_intercalate hs hv))
  | .conditional t c a, h => by
    simp only [declared, ne_eq, List.append_eq_nil_iff, not_and_or] at h
    simp only [render, String.toList_append, List.mem_append]
    rcases h with h | h | h
    · simp [mem_render indent t h]
    · simp [mem_render indent c h]
    · simp [mem_render indent a h]
  | .call callee args, h => by
    simp only [declared, ne_eq, List.append_eq_nil_iff, not_and_or] at h
    rcases h with h | h
    · simp [render, mem_render indent callee h]
    · obtain ⟨s, hs, hv⟩ := mem_renderEach indent args h
      simp only [render, commas, String.toList_append, List.mem_append]
      exact Or.inl (Or.inr (mem_intercalate hs hv))
  | .index target key, h => by
    simp only [declared, ne_eq, List.append_eq_nil_iff, not_and_or] at h
    rcases h with h | h
    · simp [render, mem_targetText (mem_render indent target h)]
    · simp [render, mem_render indent key h]
  | .member target _, h => mem_memberText (mem_render indent target h)
  | .assign place value, h => by
    simp only [declared, ne_eq, List.append_eq_nil_iff, not_and_or] at h
    rcases h with h | h
    · simp [render, mem_render indent place h]
    · simp [render, mem_render indent value h]
  | .declare _ _, _ => by simp [render]

theorem mem_renderEach (indent : String) : ∀ es : List Expr, declaredEach es ≠ [] →
    ∃ s ∈ renderEach indent es, 'v' ∈ s.toList
  | [], h => absurd rfl h
  | e :: es, h => by
    simp only [declaredEach, ne_eq, List.append_eq_nil_iff, not_and_or] at h
    rcases h with h | h
    · exact ⟨_, List.mem_cons_self, mem_render indent e h⟩
    · obtain ⟨s, hs, hv⟩ := mem_renderEach indent es h
      exact ⟨s, List.mem_cons_of_mem _ hs, hv⟩

theorem mem_renderFields (indent : String) : ∀ fields : List (String × Expr), declaredFields fields ≠ [] →
    ∃ s ∈ renderFields indent fields, 'v' ∈ s.toList
  | [], h => absurd rfl h
  | (key, e) :: fields, h => by
    simp only [declaredFields, ne_eq, List.append_eq_nil_iff, not_and_or] at h
    rcases h with h | h
    · exact ⟨_, List.mem_cons_self, by simp [mem_render indent e h]⟩
    · obtain ⟨s, hs, hv⟩ := mem_renderFields indent fields h
      exact ⟨s, List.mem_cons_of_mem _ hs, hv⟩

end

/-- **An expression that is written as the empty array declares nothing.** -/
theorem declared_eq_nil_of_isEmptyArray {e : Expr} (h : e.isEmptyArray = true) : e.declared = [] := by
  by_contra hd
  have hv := mem_render "" e hd
  rw [of_decide_eq_true h] at hv
  exact absurd hv (by decide)

end Host.Expr

namespace Codegen

open Host Expr

/-- The targets that a part of a template list declares. -/
def Part.declared : Part → List String
  | .item e => e.declared
  | .splice e => e.declared

theorem declaredEach_flush (run pieces : List Expr) :
    declaredEach (flush run pieces) = declaredEach run ++ declaredEach pieces := by
  unfold flush
  cases run with
  | nil => rfl
  | cons e es => simp [declaredEach, Expr.declared]

theorem declaredEach_piecesFrom (run : List Expr) (parts : List Part) :
    declaredEach (piecesFrom run parts) = declaredEach run ++ parts.flatMap Part.declared := by
  induction parts generalizing run with
  | nil => simp [piecesFrom, declaredEach_flush, declaredEach]
  | cons part parts ih =>
    cases part with
    | item e =>
      simp [piecesFrom, ih, declaredEach_append, declaredEach, Part.declared]
    | splice e =>
      simp only [piecesFrom, List.flatMap_cons, Part.declared]
      split
      -- the splice that is left out has declared nothing
      · rename_i he
        rw [ih, declared_eq_nil_of_isEmptyArray he, List.nil_append]
      · rw [declaredEach_flush, declaredEach, ih]
        simp [declaredEach]

/-- **A template list declares what its parts declare.** -/
theorem declared_joined (parts : List Part) : (joined parts).declared = parts.flatMap Part.declared := by
  have h := declaredEach_piecesFrom [] parts
  rw [declaredEach, List.nil_append] at h
  rw [← h]
  unfold joined
  split
  · rename_i hp; rw [hp]; rfl
  · rename_i piece hp; rw [hp]; simp [declaredEach]
  · rfl

mutual

theorem declared_quoted : ∀ f : Form, (quoted f).declared = []
  | .literal _ => rfl
  | .symbol _ => rfl
  | .list items => declaredEach_quotedEach items

theorem declaredEach_quotedEach : ∀ fs : List Form, declaredEach (quotedEach fs) = []
  | [] => rfl
  | f :: fs => by simp [quotedEach, declaredEach, declared_quoted f, declaredEach_quotedEach fs]

end

end Codegen

end HostLisp
