import HostLisp.Proofs.Renaming
import Mathlib.Order.Bounds.Defs

/-!
# Renamings that can be built

A renaming starts empty or with global names; then names are put and targets are reserved, in any order. Spellings
meet in many ways on the way: different names are spelled alike, a numbered target may be a name that the source
has, a global or a reserved target. All renamings that come about so are good.

* `Built`: the renamings that can be built.
* `Good.reserve`, `good_ofGlobals`: what reserving keeps, and the start with globals.
* `Built.good`: **a renaming that can be built is good.**
* `exists_put_iff`: a name can be put exactly if it has a spelling.
* `built_put`: **what putting a name does to a renaming that can be built.**
-/

namespace HostLisp.Host.Renaming

/-- **The renamings that can be built**: from nothing or from global names, by putting names and reserving targets. -/
inductive Built : Renaming → Prop
  | empty : Built empty
  | globals (names : List String) : Built (ofGlobals names)
  | put {ρ ρ' : Renaming} {name target : String} {site : Form} (h : Built ρ)
      (hp : ρ.put name site = .ok (target, ρ')) : Built ρ'
  | reserve {ρ ρ' : Renaming} {target : String} (h : Built ρ) (hr : ρ.reserve? target = some ρ') : Built ρ'

/-- Reserving takes one more target and binds no name. -/
theorem reserve?_eq_some {ρ ρ' : Renaming} {target : String} (h : ρ.reserve? target = some ρ') :
    (∀ name, ρ'.target? name = ρ.target? name) ∧ ∀ t, ρ.isTaken t = true → ρ'.isTaken t = true := by
  unfold reserve? at h
  split at h
  · cases h
  · cases h
    refine ⟨fun name => rfl, fun t ht => ?_⟩
    simp only [isTaken, Std.ExtTreeSet.contains_insert, Bool.or_eq_true] at ht ⊢
    exact Or.inr ht

theorem Good.reserve {ρ ρ' : Renaming} {target : String} (hρ : ρ.Good) (h : ρ.reserve? target = some ρ') :
    ρ'.Good := by
  obtain ⟨hsame, htaken⟩ := reserve?_eq_some h
  constructor
  · intro name t ht
    rw [hsame] at ht
    exact htaken t (hρ.taken ht)
  · intro m n t hm hn
    rw [hsame] at hm hn
    exact hρ.injective hm hn

/-- Global names stand for themselves, so no two of them share a target. -/
theorem good_ofGlobals (names : List String) : (ofGlobals names).Good := by
  have hself : ∀ (names : List String) (ρ : Renaming),
      (∀ name t, ρ.target? name = some t → t = name ∧ ρ.isTaken t = true) →
      ∀ name t, (names.foldl (fun ρ name => ρ.bind name name) ρ).target? name = some t →
        t = name ∧ (names.foldl (fun ρ name => ρ.bind name name) ρ).isTaken t = true := by
    intro names
    induction names with
    | nil => exact fun ρ h => h
    | cons global names ih =>
      intro ρ h
      refine ih (ρ.bind global global) fun name t ht => ?_
      rw [target?_bind] at ht
      rw [isTaken_bind]
      split at ht
      · rename_i heq
        cases ht
        exact ⟨heq, Or.inl rfl⟩
      · obtain ⟨heq, htaken⟩ := h name t ht
        exact ⟨heq, Or.inr htaken⟩
  have hglobals := hself names Renaming.empty fun name t ht => by simp [target?, Renaming.empty] at ht
  constructor
  · intro name t ht
    exact (hglobals name t ht).2
  · intro m n t hm hn
    rw [← (hglobals m t hm).1, ← (hglobals n t hn).1]

/-- **A renaming that can be built is good.** -/
theorem Built.good {ρ : Renaming} (h : Built ρ) : ρ.Good := by
  induction h with
  | empty => exact good_empty
  | globals names => exact good_ofGlobals names
  | put _ hp ih => exact (Puts.one hp).good ih
  | reserve _ hr ih => exact ih.reserve hr

/-- **A name can be put exactly if it has a spelling.** -/
theorem exists_put_iff (ρ : Renaming) (name : String) (site : Form) :
    (∃ r, ρ.put name site = .ok r) ↔ ∃ spelling, sanitize name = .ok spelling := by
  unfold put
  cases sanitize name with
  | error c => simp
  | ok spelling => simp

/-- The target of a name that is put is the one for its spelling. -/
theorem put_eq_ok {ρ ρ' : Renaming} {name target : String} {site : Form}
    (h : ρ.put name site = .ok (target, ρ')) :
    ∃ spelling, sanitize name = .ok spelling ∧ ρ.fresh spelling = target := by
  unfold put at h
  cases hs : sanitize name with
  | error c => rw [hs] at h; cases h
  | ok spelling =>
    rw [hs] at h
    cases h
    exact ⟨spelling, rfl, rfl⟩

/-- A usable identifier is none of the words that stand for something in the host. -/
theorem notMem_words_of_isSafe {target : String} (h : isSafe target = true) :
    target ∉ ["arguments", "NaN", "Infinity", "true", "false"] := by
  intro hmem
  have hwords : (["arguments", "NaN", "Infinity", "true", "false"].all isReserved) = true := by decide +kernel
  have hreserved := List.all_eq_true.1 hwords target hmem
  simp [isSafe, hreserved] at h

/-- **Putting a name into a renaming that can be built.** The targets of the renaming are taken, and no two names share
one. A name can be put exactly if it has a spelling. Its target is then the spelling if that is free, else the
spelling with the least number from 1 on that makes it free. The target is usable in the host, was not taken, and is
what the name stands for afterwards, while all other names stand for what they did. -/
theorem built_put {ρ : Renaming} (hρ : Built ρ) :
    (∀ name target, ρ.target? name = some target → ρ.isTaken target = true) ∧
    (∀ m n target, ρ.target? m = some target → ρ.target? n = some target → m = n) ∧
    ∀ (name : String) (site : Form),
      ((∃ r, ρ.put name site = .ok r) ↔ ∃ spelling, sanitize name = .ok spelling) ∧
      ∀ target ρ', ρ.put name site = .ok (target, ρ') →
        (∃ spelling, sanitize name = .ok spelling ∧
          ((ρ.isTaken spelling = false ∧ target = spelling) ∨
            ρ.isTaken spelling = true ∧ ∃ n, target = spelling ++ toString n ∧
              IsLeast {n : Nat | 1 ≤ n ∧ ρ.isTaken (spelling ++ toString n) = false} n)) ∧
        isIdentifierName target = true ∧ isReserved target = false ∧
        target ∉ ["arguments", "NaN", "Infinity", "true", "false"] ∧
        ρ.isTaken target = false ∧ ρ'.target? name = some target ∧
        ∀ other, other ≠ name → ρ'.target? other = ρ.target? other := by
  refine ⟨fun _ _ => hρ.good.taken, fun _ _ _ => hρ.good.injective, fun name site => ?_⟩
  refine ⟨exists_put_iff ρ name site, fun target ρ' hp => ?_⟩
  obtain ⟨spelling, hs, rfl⟩ := put_eq_ok hp
  obtain ⟨rfl, hfree, hsafe⟩ := put_spec hp
  have hwords := notMem_words_of_isSafe hsafe
  simp only [isSafe, Bool.and_eq_true, Bool.not_eq_true'] at hsafe
  refine ⟨⟨spelling, hs, ?_⟩, hsafe.1, hsafe.2, hwords, hfree, ?_, fun other hother => ?_⟩
  · rcases fresh_cases ρ spelling with hplain | ⟨n, heq, hn, htaken, hpos, hleast⟩
    · exact Or.inl hplain
    · refine Or.inr ⟨htaken, n, heq, ⟨hpos, hn⟩, fun m hm => ?_⟩
      -- a smaller number would be taken
      by_contra hlt
      have hm' := hleast m hm.1 (by omega)
      rw [hm.2] at hm'
      cases hm'
  · rw [target?_bind, if_pos rfl]
  · rw [target?_bind, if_neg (Ne.symm hother)]

/-- The global name `x1`, then a name `x`, then the reserved target `x2`. -/
def crowded : Renaming :=
  { (ofGlobals ["x1"]).bind "x" "x" with taken := ((ofGlobals ["x1"]).bind "x" "x").taken.insert "x2" }

/-- Where `x`, `x1` and `x2` are taken, a second `x` gets the target `x3`, and `x1` still stands for itself. -/
theorem built_put_crowded : Built crowded ∧ ∃ ρ', crowded.put "x" (.symbol "x") = .ok ("x3", ρ') ∧
    crowded.isTaken "x3" = false ∧ ρ'.target? "x" = some "x3" ∧ ρ'.target? "x1" = crowded.target? "x1" ∧
    crowded.target? "x1" = some "x1" := by
  have hx : (ofGlobals ["x1"]).put "x" (.symbol "x") = .ok ("x", (ofGlobals ["x1"]).bind "x" "x") := rfl
  have hx2 : ((ofGlobals ["x1"]).bind "x" "x").reserve? "x2" = some crowded := rfl
  have hbuilt : Built crowded := .reserve (.put (.globals ["x1"]) hx) hx2
  obtain ⟨-, -, hput⟩ := built_put hbuilt
  have hp : crowded.put "x" (.symbol "x") = .ok ("x3", crowded.bind "x" "x3") := rfl
  obtain ⟨-, -, -, -, hfree, hget, hothers⟩ := (hput "x" (.symbol "x")).2 "x3" _ hp
  exact ⟨hbuilt, _, hp, hfree, hget, hothers "x1" (by decide), rfl⟩

end HostLisp.Host.Renaming
