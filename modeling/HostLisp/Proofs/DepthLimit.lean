import HostLisp.Proofs.Correspondence

/-!
# Raising the depth limit

A program that stays within a depth limit cannot tell what the limit is. Under a higher limit it gives the
same value or fails in the same way, and memory is the same behind it: levels are counted on the way down
and given back on the way up, by code and by templates alike, and after a failure too.

* `upToDepth`: two runs in the same memory, of which the first may quit for depth.
* `evaluate_eq_of_maxDepth_le`: **a run quits for depth, or is the run under any higher limit.**
-/

namespace HostLisp.Evaluator

open Pairing

/-- Two runs in the same memory. The first one may quit because it goes deeper than its limit. -/
def upToDepth (limit : Nat) : Correspondence where
  toPairing := within Set.univ
  memory := Eq
  error := Eq
  quits e := e.cause = .limitExceeded (.depth limit)
  stalls _ _ := False
  error_refl _ := rfl
  error_foreign h := congrArg _ h.1.symm
  room h := h ▸ id
  alloc := by
    rintro m _ v w rfl h -
    obtain ⟨rfl, -⟩ := rel_alike_within_iff.1 h
    exact ⟨⟨rfl, Set.mem_univ _⟩, rfl⟩
  stall _ h hroom hfull := Nat.not_le.2 (h ▸ hroom) hfull
  stalls_mono h _ := h
  covers h := h.elim
  content := by
    rintro m _ _ c rfl ⟨rfl, -⟩
    cases m.store.content? c with
    | none => exact .none
    | some content => exact .some (rel_alike_within_iff.2 ⟨rfl, fun _ _ => Set.subset_univ _⟩)
  write := by
    rintro m _ _ c v _ s t rfl ⟨rfl, -⟩ hv hs ht
    obtain ⟨rfl, -⟩ := alike_within_iff.1 hv
    rw [hs] at ht
    cases ht; rfl
  stamped := by
    rintro m _ rfl
    exact ⟨rfl, rfl⟩

theorem perform_upToDepth (low levels more : Nat) :
    (upToDepth low).TracksJobs (perform low levels) (perform (low + more) (levels + more)) := by
  have hend : (upToDepth low).TracksJobs (perform low 0) (perform (low + more) more) :=
    fun _ _ _ _ => ⟨fun _ _ => Nat.le_refl _, fun _ _ _ => .quits rfl⟩
  exact perform_tracks more hend levels

/-- **A run goes too deep, or is the run under any higher limit**: the same value and scope or the same
error, and the same memory. -/
theorem evaluate_eq_of_maxDepth_le (memory : Memory) (forms : List Form) (σ : Scope) {low high : Nat}
    (h : low ≤ high) :
    (∃ e, ((Evaluator.mk low memory).evaluate forms σ).1 = .error e ∧
        e.cause = .limitExceeded (.depth low)) ∨
      ((Evaluator.mk low memory).evaluate forms σ).1 = ((Evaluator.mk high memory).evaluate forms σ).1 ∧
      ((Evaluator.mk low memory).evaluate forms σ).2.memory =
        ((Evaluator.mk high memory).evaluate forms σ).2.memory := by
  obtain ⟨more, rfl⟩ := Nat.exists_eq_add_of_le h
  have hσ : (upToDepth low).Scopes σ σ := scopes_within_iff.2 ⟨rfl, Set.subset_univ _⟩
  have hmeet := evaluate_meets (C := upToDepth low) ⟨low, memory⟩ ⟨low + more, memory⟩ rfl
    (perform_upToDepth low low more) forms hσ
  generalize (Evaluator.mk low memory).evaluate forms σ = r at hmeet ⊢
  generalize (Evaluator.mk (low + more) memory).evaluate forms σ = s at hmeet ⊢
  obtain ⟨r, ev⟩ := r
  obtain ⟨s, ev'⟩ := s
  cases hmeet with
  | quits he => exact Or.inl ⟨_, rfl, he⟩
  | stalls h => exact h.elim
  | error he hm => exact Or.inr ⟨congrArg Except.error he, hm⟩
  | @ok a b _ _ hab hm =>
    obtain ⟨v, σ'⟩ := a
    obtain ⟨w, τ'⟩ := b
    obtain ⟨rfl, -⟩ : v = w ∧ _ := rel_alike_within_iff.1 hab.1
    obtain ⟨rfl, -⟩ : σ' = τ' ∧ _ := scopes_within_iff.1 hab.2
    exact Or.inr ⟨rfl, hm⟩

/-- ``(var f (fn (x) `(x ,x)))`` and `(f #t)` -/
def templateCall : List Form :=
  [.list [.symbol "var", .symbol "f", .list [.symbol "fn", .list [.symbol "x"],
    .list [.symbol "quasiquote", .list [.symbol "x", .list [.symbol "unquote", .symbol "x"]]]]],
    .list [.symbol "f", .literal (.boolean true)]]

/-- A call, a template in its body and an unquoted name in the template need five levels, and no more. -/
theorem evaluate_eq_of_maxDepth_le_template :
    ((Evaluator.mk 5 .fresh).evaluate templateCall .empty).1 =
        ((Evaluator.mk 128 .fresh).evaluate templateCall .empty).1 ∧
      ((Evaluator.mk 5 .fresh).evaluate templateCall .empty).2.memory =
        ((Evaluator.mk 128 .fresh).evaluate templateCall .empty).2.memory := by
  have hok : ((Evaluator.mk 5 .fresh).evaluate templateCall .empty).1.isOk = true := by decide +kernel
  rcases evaluate_eq_of_maxDepth_le .fresh templateCall .empty (by decide : 5 ≤ 128) with ⟨e, he, -⟩ | h
  · rw [he] at hok; cases hok
  · exact h

end HostLisp.Evaluator
