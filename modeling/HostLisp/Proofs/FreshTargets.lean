import HostLisp.Proofs.Hygiene
import HostLisp.Proofs.Subexpressions

/-!
# Targets are new wherever they are bound

Compiling puts names into a renaming, and inside a function it puts more names into a renaming that is dropped
behind it. So a target that is taken where a job starts is not bound again anywhere in its code.

* `BindsFresh`: code that binds no target that is taken.
* `Emits.bindsFresh`: one level binds fresh targets as the levels below it do.
* `compile_bindsFresh`: **compiled code binds targets that were not taken**, in all functions inside it too.
-/

namespace HostLisp.Codegen

open Host Expr Renaming

mutual

theorem binders_quoted : ∀ f : Form, (quoted f).binders = []
  | .literal _ => rfl
  | .symbol _ => rfl
  | .list items => by
    rw [quoted]
    exact (collect_eq ownBinders _).trans (bindersEach_quotedEach items)

theorem bindersEach_quotedEach : ∀ fs : List Form, (quotedEach fs).flatMap binders = []
  | [] => rfl
  | f :: fs => by
    rw [quotedEach, List.flatMap_cons, binders_quoted f, bindersEach_quotedEach fs, List.append_nil]

end

variable {ρ ρ' : Renaming}

/-- The targets that code binds are not taken in a renaming. -/
def BindsFresh (ρ : Renaming) (e : Expr) : Prop := ∀ t ∈ e.binders, ρ.isTaken t = false

theorem not_taken_of_extends {t : String} (hρ : ρ.Extends ρ') (h : ρ'.isTaken t = false) :
    ρ.isTaken t = false := by
  obtain ⟨names, targets, hputs⟩ := hρ
  rw [Bool.eq_false_iff] at h ⊢
  exact fun htaken => h ((hputs.isTaken_iff t).2 (Or.inl htaken))

theorem not_taken_of_put {name target : String} {site : Form} (h : ρ.put name site = .ok (target, ρ')) :
    ρ.isTaken target = false :=
  (Puts.one h).not_taken target (List.mem_singleton_self target)

/-- Fresh targets in front of code that binds fresh ones. -/
theorem bindsFresh_of {e : Expr} (hown : ∀ t ∈ e.ownBinders, ρ.isTaken t = false)
    (h : ∀ c ∈ e.components, BindsFresh ρ c) : BindsFresh ρ e := by
  intro t ht
  rcases mem_binders.1 ht with ht | ⟨c, hc, ht⟩
  · exact hown t ht
  · exact h c hc t ht

/-- Code that binds targets that are not taken in a renaming, and leads to an extension of it. -/
def FreshFrom (ρ : Renaming) : Answers := fun _ _ e s' => ρ.Extends s' ∧ BindsFresh ρ e

section

variable {s s' : Renaming}

theorem Threads.freshFrom {α β : Type} {P : α → Renaming → β → Renaming → Prop} {Q : β → Prop} {as : List α}
    {bs : List β} (hP : ∀ a s b s', P a s b s' → ρ.Extends s' ∧ Q b) (hs : ρ.Extends s)
    (h : Threads P as s bs s') : ρ.Extends s' ∧ ∀ b ∈ bs, Q b := by
  induction h with
  | nil => exact ⟨hs, List.forall_mem_nil _⟩
  | cons h _ ih =>
    obtain ⟨hs₁, hb⟩ := hP _ _ _ _ h
    obtain ⟨hs', hbs⟩ := ih hs₁
    exact ⟨hs', List.forall_mem_cons.2 ⟨hb, hbs⟩⟩

theorem EmitsEach.bindsFresh {fs : List Form} {es : List Expr} (hs : ρ.Extends s)
    (h : EmitsEach (FreshFrom ρ) fs s es s') : ρ.Extends s' ∧ ∀ e ∈ es, BindsFresh ρ e :=
  Threads.freshFrom (fun _ _ _ _ he => he) hs h

theorem EmitsTail.bindsFresh {tail : Form} {es : List Expr} {e : Expr} (hs : ρ.Extends s)
    (h : EmitsTail (FreshFrom ρ) tail s es e s') : (∀ x ∈ es, BindsFresh ρ x) ∧ BindsFresh ρ e := by
  cases h with
  | declaration hspecial hd hp h =>
    -- the target is new behind the parameters and the rest of the body
    have hnew := not_taken_of_extends hs (not_taken_of_put hp)
    refine ⟨List.forall_mem_singleton.2 (bindsFresh_of ?_ ?_), ?_⟩
    · exact List.forall_mem_singleton.2 hnew
    · exact List.forall_mem_singleton.2 h.2
    · exact bindsFresh_of (List.forall_mem_nil _) (List.forall_mem_nil _)
  | other hspecial h => exact ⟨List.forall_mem_nil _, h.2⟩

theorem EmitsPart.bindsFresh {item : Form} {p : Part} (h : EmitsPart (FreshFrom ρ) item s p s') :
    ρ.Extends s' ∧ BindsFresh ρ p.expr := by
  cases h with
  | splice hspecial hq h => exact h
  | item hspecial h => exact h

end

/-- **One level binds fresh targets as the levels below it do.** -/
theorem Emits.bindsFresh {job : Job} {e : Expr} (h : Emits (FreshFrom ρ) job ρ e ρ') : BindsFresh ρ e := by
  have hρ := Extends.refl ρ
  have hnone {e : Expr} (he : e.ownBinders = []) : ∀ t ∈ e.ownBinders, ρ.isTaken t = false := by
    rw [he]
    exact List.forall_mem_nil _
  have hleaf (t : String) : BindsFresh ρ (.identifier t) := bindsFresh_of (hnone rfl) (List.forall_mem_nil _)
  have hquoted (f : Form) : BindsFresh ρ (quoted f) := by
    intro t ht
    rw [binders_quoted] at ht
    cases ht
  cases h with
  | literal h => exact bindsFresh_of (hnone rfl) (List.forall_mem_nil _)
  | name h ht => exact hleaf _
  | var h hp hi =>
    refine bindsFresh_of (List.forall_mem_singleton.2 (not_taken_of_put hp)) ?_
    exact List.forall_mem_singleton.2 hi.2
  | fn h hp hl ht =>
    have hputs := putParameters_puts hp
    obtain ⟨hs, hleading⟩ := EmitsEach.bindsFresh ⟨_, _, hputs⟩ hl
    obtain ⟨hlast, hresult⟩ := ht.bindsFresh hs
    refine bindsFresh_of hputs.not_taken ?_
    simp only [components, List.forall_mem_append, List.forall_mem_singleton]
    exact ⟨⟨hleading, hlast⟩, hresult⟩
  | assignName h ht hv =>
    refine bindsFresh_of (hnone rfl) ?_
    exact List.forall_mem_cons.2 ⟨hleaf _, List.forall_mem_singleton.2 hv.2⟩
  | assignProperty h ha hv =>
    refine bindsFresh_of (hnone rfl) ?_
    exact List.forall_mem_cons.2 ⟨ha.2, List.forall_mem_singleton.2 hv.2⟩
  | conditional h ht hc ha =>
    refine bindsFresh_of (hnone rfl) ?_
    exact List.forall_mem_cons.2 ⟨ht.2, List.forall_mem_cons.2 ⟨hc.2, List.forall_mem_singleton.2 ha.2⟩⟩
  | quote h => exact hquoted _
  | quasiquote h ht => exact ht.2
  | list h hi => exact bindsFresh_of (hnone rfl) (EmitsEach.bindsFresh hρ hi).2
  | member h ht hk =>
    refine bindsFresh_of (hnone rfl) ?_
    exact List.forall_mem_cons.2 ⟨ht.2, List.forall_mem_singleton.2 hk.2⟩
  | object h he =>
    refine bindsFresh_of (hnone rfl) ?_
    have hfields := (Threads.freshFrom (Q := fun f => BindsFresh ρ f.2) (fun _ _ _ _ hf => hf.2) hρ he).2
    exact List.forall_mem_map.2 hfields
  | access h ht => exact bindsFresh_of (hnone rfl) (List.forall_mem_singleton.2 ht.2)
  | accessCall h ht ha =>
    refine bindsFresh_of (hnone rfl) (List.forall_mem_cons.2 ⟨?_, (EmitsEach.bindsFresh ht.1 ha).2⟩)
    exact bindsFresh_of (hnone rfl) (List.forall_mem_singleton.2 ht.2)
  | application h hh ha =>
    exact bindsFresh_of (hnone rfl) (List.forall_mem_cons.2 ⟨hh.2, (EmitsEach.bindsFresh hh.1 ha).2⟩)
  | unquote hs hq hi => exact hi.2
  | templateList hs hp =>
    have hparts := (Threads.freshFrom (Q := fun p => BindsFresh ρ p.expr) (fun _ _ _ _ => EmitsPart.bindsFresh) hρ hp).2
    intro t ht
    rw [binders, collect_joined shows_ownBinders, List.mem_flatMap] at ht
    obtain ⟨part, hpart, ht⟩ := ht
    exact hparts part hpart t ht
  | templateAtom h => exact hquoted _

/-- **Compiled code binds targets that were not taken**, in all functions inside it too. -/
theorem compile_bindsFresh {limit levels : Nat} {job : Job} {e : Expr}
    (h : compile limit levels job ρ = .ok (e, ρ')) : BindsFresh ρ e := by
  induction levels generalizing job ρ e ρ' with
  | zero => cases h
  | succ levels ih =>
    have hextends : ∀ job s e s', Answers.of (compile limit levels) job s e s' → s.Extends s' :=
      fun _ _ _ _ hb => ⟨_, _, compile_puts hb⟩
    refine ((layer_eq_ok_iff.1 h).within hextends).mono (S := FreshFrom ρ) ?_ |>.bindsFresh
    rintro j s e' s' ⟨hs, hj⟩
    exact ⟨hs.trans (hextends _ _ _ _ hj), fun t ht => not_taken_of_extends hs (ih hj t ht)⟩

end HostLisp.Codegen
