import HostLisp.Proofs.Correspondence
import HostLisp.Proofs.Fragment
import HostLisp.Proofs.HostSemantics

/-!
# Evaluation and its host side by side

A binding of a name is a cell of the evaluator and a variable of the host. A world holds the two memories and
says which cells are linked. Linked cells hold matching values, and a link stays for good.

* `Matches`: a value and what it is in the host. A closure matches a function whose code was compiled from it,
  in a scope that agrees.
* `Agrees`: the variables of the host have what the names of a scope stand for.
* `World.Sound`: **linked cells match, one to one.** `World.Sound.connect`, `World.Sound.write` and
  `World.Sound.grow` are the steps that keep it.
* `Unlinked`: variables that have been declared for a function and not been reached.
* `Entered`: the variables of a function on entry. `World.Sound.enter`: they are there, and nothing else changes.
-/

namespace HostLisp

open Host Codegen

/-! ## Values and scopes -/

/-- Which cells of the host stand for the cells of the evaluator. -/
abbrev Links := CellId → CellId → Prop

/-- **The variables of the host have what the names of a scope stand for**, and the table is where it should
be. -/
structure Agrees (table : Option CellId) (link : Links) (σ : Scope) (ρ : Renaming) (η : Scope) : Prop where
  good : ρ.Good
  safe : SafeScope η
  names : ∀ {x a}, σ.find? x = some a → ∃ t c, ρ.target? x = some t ∧ η.find? t = some c ∧ link a c
  table : ∀ {c}, table = some c → ρ.isTaken tableName = true ∧ η.find? tableName = some c

/-- A closure and the parts of a function that was compiled from it. -/
inductive CodeOf (table : Option CellId) (link : Links) :
    Closure → Parameters → List Expr → Expr → Scope → Prop
  | intro {c : Closure} {targets : Parameters} {es last : List Expr} {result : Expr} {η : Scope}
      {ρ ρ₁ ρ₂ ρ₃ : Renaming} (hp : putParameters c.params ρ = .ok (targets, ρ₁))
      (hl : EmitsEach Compiles c.body.leading ρ₁ es ρ₂) (ht : EmitsTail Compiles c.body.last ρ₂ last result ρ₃)
      (hleading : ∀ f ∈ c.body.leading, f.FitsStatement table)
      (hlast : if c.body.last.isSpecial .var then c.body.last.FitsStatement table
        else (Job.form c.body.last).Fits table)
      (hscope : Agrees table link c.scope ρ η) : CodeOf table link c targets (es ++ last) result η

section

variable (table : Option CellId) (link : Links)

mutual

/-- **A value and what it is in the host.** -/
def Matches : Value → Datum → Prop
  | .literal l, d => d = .literal l.inHost
  | .symbol name, d => d = .symbol name
  | .list vs, d => ∃ ds, d = .array ds ∧ MatchesEach vs ds
  | .closure c, d => ∃ params leading result η, d = .function params leading result η ∧
      CodeOf table link c params leading result η

/-- Values and what they are in the host. -/
def MatchesEach : List Value → List Datum → Prop
  | [], ds => ds = []
  | v :: vs, ds => ∃ d ds', ds = d :: ds' ∧ Matches v d ∧ MatchesEach vs ds'

end

end

section

variable {table : Option CellId} {link link' : Links}

theorem Agrees.mono {σ η : Scope} {ρ : Renaming} (h : Agrees table link σ ρ η)
    (hle : ∀ {a c}, link a c → link' a c) : Agrees table link' σ ρ η := by
  refine ⟨h.good, h.safe, ?_, h.table⟩
  intro x a hx
  obtain ⟨t, c, ht, hc, hl⟩ := h.names hx
  exact ⟨t, c, ht, hc, hle hl⟩

theorem CodeOf.mono {c : Closure} {params : Parameters} {leading : List Expr} {result : Expr} {η : Scope}
    (h : CodeOf table link c params leading result η) (hle : ∀ {a c}, link a c → link' a c) :
    CodeOf table link' c params leading result η := by
  cases h with
  | intro hp hl ht hleading hlast hscope => exact .intro hp hl ht hleading hlast (hscope.mono hle)

mutual

/-- Values match on when more cells are linked. -/
theorem Matches.mono (hle : ∀ {a c}, link a c → link' a c) :
    ∀ {v : Value} {d : Datum}, Matches table link v d → Matches table link' v d
  | .literal _, _, h => h
  | .symbol _, _, h => h
  | .list vs, d, h => by
    rw [Matches] at h ⊢
    obtain ⟨ds, rfl, h⟩ := h
    exact ⟨ds, rfl, MatchesEach.mono hle h⟩
  | .closure c, d, h => by
    rw [Matches] at h ⊢
    obtain ⟨params, leading, result, η, rfl, h⟩ := h
    exact ⟨params, leading, result, η, rfl, h.mono hle⟩

theorem MatchesEach.mono (hle : ∀ {a c}, link a c → link' a c) :
    ∀ {vs : List Value} {ds : List Datum}, MatchesEach table link vs ds → MatchesEach table link' vs ds
  | [], _, h => h
  | v :: vs, ds, h => by
    rw [MatchesEach] at h ⊢
    obtain ⟨d, ds, rfl, hd, hds⟩ := h
    exact ⟨d, ds, rfl, Matches.mono hle hd, MatchesEach.mono hle hds⟩

end

theorem MatchesEach.append {vs ws : List Value} {ds ds' : List Datum} (h : MatchesEach table link vs ds)
    (h' : MatchesEach table link ws ds') : MatchesEach table link (vs ++ ws) (ds ++ ds') := by
  induction vs generalizing ds with
  | nil =>
    rw [MatchesEach] at h
    rw [h]
    exact h'
  | cons v vs ih =>
    rw [MatchesEach] at h
    obtain ⟨d, ds, rfl, hd, hds⟩ := h
    rw [List.cons_append, List.cons_append, MatchesEach]
    exact ⟨d, ds ++ ds', rfl, hd, ih hds⟩

theorem MatchesEach.length_eq {vs : List Value} {ds : List Datum} (h : MatchesEach table link vs ds) :
    ds.length = vs.length := by
  induction vs generalizing ds with
  | nil => rw [h]; rfl
  | cons v vs ih =>
    rw [MatchesEach] at h
    obtain ⟨d, ds, rfl, -, hds⟩ := h
    rw [List.length_cons, List.length_cons, ih hds]

theorem Literal.isTruthy_inHost (l : Literal) : l.inHost.isTruthy = l.isTruthy := by
  cases l with
  | number n =>
    cases n with
    | finite negative rank =>
      by_cases h : rank.val = 0
      · simp [inHost, isTruthy, Number.isTruthy, Number.equals, Number.zero, Fin.ext_iff, h]
      · simp [inHost, isTruthy, Number.isTruthy, Number.equals, Number.zero, Fin.ext_iff, h]
    | infinite negative => rfl
    | nan => rfl
  | string text => rfl
  | boolean b => rfl

/-- A value passes a test where what it is in the host does. -/
theorem Matches.isTruthy_eq {v : Value} {d : Datum} (h : Matches table link v d) :
    d.isTruthy = v.isTruthy := by
  cases v with
  | literal l =>
    rw [Matches] at h
    rw [h]
    exact l.isTruthy_inHost
  | symbol name => rw [Matches] at h; rw [h]; rfl
  | list vs =>
    rw [Matches] at h
    obtain ⟨ds, rfl, -⟩ := h
    rfl
  | closure c =>
    rw [Matches] at h
    obtain ⟨params, leading, result, η, rfl, -⟩ := h
    rfl

end

/-! ## Worlds -/

/-- The two memories, and the cells that are linked. -/
structure World where
  link : Links
  memory : Memory
  heap : Heap

namespace World

/-- **Linked cells match, one to one**, and the table is in its place. A cell of the evaluator that is still
empty is linked as well, to a variable that has not been set. -/
structure Sound (table : Option CellId) (W : World) : Prop where
  left : ∀ {a b c}, W.link a c → W.link b c → a = b
  right : ∀ {a c d}, W.link a c → W.link a d → c = d
  inside : ∀ {a c}, W.link a c → a.index < W.memory.size ∧ c.index < W.heap.length
  holds : ∀ {a c v}, W.link a c → W.memory.store.content? a = some (some v) →
    ∃ d, W.heap[c.index]? = some d ∧ Matches table W.link v d
  table : ∀ {c}, table = some c → W.heap[c.index]? = some .table ∧ ∀ a, ¬W.link a c

/-- What comes later: links stay, and new ones are to variables from a given one on. -/
structure Later (base : Nat) (W W' : World) : Prop where
  link : ∀ {a c}, W.link a c → W'.link a c
  fresh : ∀ {a c}, W'.link a c → W.link a c ∨ base ≤ c.index
  length : W.heap.length ≤ W'.heap.length

theorem Later.refl (base : Nat) (W : World) : Later base W W := ⟨id, Or.inl, Nat.le_refl _⟩

theorem Later.trans {base : Nat} {W W₁ W₂ : World} (h : Later base W W₁) (h' : Later base W₁ W₂) :
    Later base W W₂ := by
  refine ⟨fun hl => h'.link (h.link hl), ?_, Nat.le_trans h.length h'.length⟩
  intro a c hl
  rcases h'.fresh hl with hl | hc
  · exact h.fresh hl
  · exact Or.inr hc

theorem Later.weaken {base base' : Nat} {W W' : World} (h : Later base W W') (hle : base' ≤ base) :
    Later base' W W' := by
  refine ⟨h.link, ?_, h.length⟩
  intro a c hl
  rcases h.fresh hl with hl | hc
  · exact Or.inl hl
  · exact Or.inr (Nat.le_trans hle hc)

/-- One evaluation after another. -/
theorem Later.andThen {W W₁ W₂ : World} (h : Later W.heap.length W W₁) (h' : Later W₁.heap.length W₁ W₂) :
    Later W.heap.length W W₂ :=
  h.trans (h'.weaken h.length)

variable {table : Option CellId} {W : World}

/-- New variables that are not linked yet. -/
theorem Sound.grow (h : W.Sound table) (ds : List Datum) :
    Sound table ⟨W.link, W.memory, W.heap ++ ds⟩ := by
  have hkeep : ∀ {i : Nat} {d : Datum}, W.heap[i]? = some d → (W.heap ++ ds)[i]? = some d := by
    intro i d hd
    rw [List.getElem?_append_left (List.getElem?_eq_some_iff.1 hd).1]
    exact hd
  refine ⟨h.left, h.right, ?_, ?_, ?_⟩
  · intro a c hl
    obtain ⟨ha, hc⟩ := h.inside hl
    exact ⟨ha, by rw [List.length_append]; exact Nat.lt_add_right _ hc⟩
  · intro a c v hl hv
    obtain ⟨d, hd, hm⟩ := h.holds hl hv
    exact ⟨d, hkeep hd, hm⟩
  · intro c hc
    exact ⟨hkeep (h.table hc).1, (h.table hc).2⟩

/-- The closures that have been made are not part of what matches. -/
theorem Sound.stamp (h : W.Sound table) (n : Nat) : Sound table ⟨W.link, ⟨W.memory.store, n⟩, W.heap⟩ :=
  ⟨h.left, h.right, h.inside, h.holds, h.table⟩

/-- Links, and one more from a new cell. -/
def linked (W : World) (c : CellId) : Links := fun a c' => W.link a c' ∨ a = ⟨W.memory.size⟩ ∧ c' = c

/-- The world with a new cell of the evaluator, linked to a variable that is there. -/
def connect (W : World) (content : Option Value) (c : CellId) : World :=
  ⟨W.linked c, { W.memory with store := W.memory.store.push content }, W.heap⟩

theorem later_connect {base : Nat} (W : World) (content : Option Value) {c : CellId} (hc : base ≤ c.index) :
    Later base W (W.connect content c) := by
  refine ⟨Or.inl, ?_, Nat.le_refl _⟩
  rintro a c' (hl | ⟨-, rfl⟩)
  · exact Or.inl hl
  · exact Or.inr hc

/-- **A new cell is linked to a variable** that was not linked, and that holds what the cell holds if it holds
anything. -/
theorem Sound.connect (h : W.Sound table) {content : Option Value} {c : CellId}
    (hc : c.index < W.heap.length) (hfree : ∀ a, ¬W.link a c) (htable : table ≠ some c)
    (hheld : ∀ v, content = some v → ∃ d, W.heap[c.index]? = some d ∧ Matches table W.link v d) :
    Sound table (W.connect content c) := by
  have hnew : ∀ {c'}, ¬W.link ⟨W.memory.size⟩ c' := fun hl => Nat.lt_irrefl _ (h.inside hl).1
  have hsize : (W.connect content c).memory.size = W.memory.size + 1 := Store.size_push _ _
  refine ⟨?_, ?_, ?_, ?_, ?_⟩
  · rintro a b c' (ha | ⟨rfl, rfl⟩) (hb | ⟨rfl, hc'⟩)
    · exact h.left ha hb
    · rw [hc'] at ha
      exact absurd ha (hfree a)
    · exact absurd hb (hfree b)
    · rfl
  · rintro a c' d' (hl | ⟨rfl, rfl⟩) (hl' | ⟨ha, rfl⟩)
    · exact h.right hl hl'
    · rw [ha] at hl
      exact absurd hl hnew
    · exact absurd hl' hnew
    · rfl
  · rintro a c' (hl | ⟨rfl, rfl⟩)
    · rw [hsize]
      exact ⟨Nat.lt_succ_of_lt (h.inside hl).1, (h.inside hl).2⟩
    · rw [hsize]
      exact ⟨Nat.lt_succ_self _, hc⟩
  · rintro a c' v (hl | ⟨rfl, rfl⟩) hv
    · have hne : a.index ≠ W.memory.store.size := Nat.ne_of_lt (h.inside hl).1
      replace hv : (W.memory.store.push content).content? a = some (some v) := hv
      rw [Store.content?_push, if_neg hne] at hv
      obtain ⟨d, hd, hm⟩ := h.holds hl hv
      exact ⟨d, hd, hm.mono Or.inl⟩
    · replace hv : (W.memory.store.push content).content? ⟨W.memory.store.size⟩ = some (some v) := hv
      rw [Store.content?_push, if_pos rfl] at hv
      obtain ⟨d, hd, hm⟩ := hheld v (Option.some.inj hv)
      exact ⟨d, hd, hm.mono Or.inl⟩
  · intro c' hc'
    refine ⟨(h.table hc').1, ?_⟩
    rintro a (hl | ⟨-, rfl⟩)
    · exact (h.table hc').2 a hl
    · exact htable hc'

theorem later_write (base : Nat) (W : World) (m : Memory) (i : Nat) (d : Datum) :
    Later base W ⟨W.link, m, W.heap.set i d⟩ :=
  ⟨id, Or.inl, by rw [List.length_set]⟩

/-- **A value is written to a cell, and what it is in the host to the variable linked to it.** -/
theorem Sound.write (h : W.Sound table) {a c : CellId} {v : Value} {d : Datum} {store : Store}
    (hl : W.link a c) (hm : Matches table W.link v d) (hs : W.memory.store.write a v = .ok store) :
    Sound table ⟨W.link, { W.memory with store }, W.heap.set c.index d⟩ := by
  have hsize : Memory.size { W.memory with store } = W.memory.size := Store.size_write hs
  have hother : ∀ {c' : CellId}, c' ≠ c → (W.heap.set c.index d)[c'.index]? = W.heap[c'.index]? := by
    intro c' hne
    rw [List.getElem?_set_ne]
    intro hi
    exact hne (by cases c; cases c'; simp_all)
  refine ⟨h.left, h.right, ?_, ?_, ?_⟩
  · intro b c' hl'
    rw [hsize, List.length_set]
    exact h.inside hl'
  · intro b c' w hl' hw
    replace hw : store.content? b = some (some w) := hw
    rw [Store.content?_write hs] at hw
    split at hw
    · rename_i hi
      have hb : b = a := by cases a; cases b; simp_all
      rw [hb] at hl'
      cases h.right hl hl'
      cases hw
      exact ⟨d, List.getElem?_set_self (h.inside hl).2, hm⟩
    · rename_i hi
      obtain ⟨d', hd', hm'⟩ := h.holds hl' hw
      refine ⟨d', ?_, hm'⟩
      rw [hother, hd']
      rintro rfl
      exact hi (congrArg CellId.index (h.left hl' hl))
  · intro c' hc'
    refine ⟨?_, (h.table hc').2⟩
    rw [hother]
    · exact (h.table hc').1
    · rintro rfl
      exact (h.table hc').2 a hl

end World

/-! ## Variables of a function -/

/-- **Variables that are there and not linked yet**, each with a cell of its own from a given one on. -/
structure Unlinked (table : Option CellId) (base : Nat) (W : World) (η : Scope) (ts : List String) : Prop where
  cell : ∀ t ∈ ts, ∃ c, η.find? t = some c ∧ base ≤ c.index ∧ c.index < W.heap.length ∧
    (∀ a, ¬W.link a c) ∧ table ≠ some c
  distinct : ts.Pairwise fun t t' => η.find? t ≠ η.find? t'

namespace Unlinked

variable {table : Option CellId} {base : Nat} {W W' : World} {η : Scope} {t : String} {ts : List String}

/-- Variables stay unlinked while others come and are linked. -/
theorem later (h : Unlinked table base W η ts) (hW : W.Later W.heap.length W') : Unlinked table base W' η ts := by
  refine ⟨?_, h.distinct⟩
  intro t ht
  obtain ⟨c, hc, hbase, hlt, hfree, htable⟩ := h.cell t ht
  refine ⟨c, hc, hbase, Nat.lt_of_lt_of_le hlt hW.length, ?_, htable⟩
  intro a hl
  rcases hW.fresh hl with hl | hge
  · exact hfree a hl
  · omega

/-- When the first one is linked, the others are still unlinked. -/
theorem connect {content : Option Value} {c : CellId} (h : Unlinked table base W η (t :: ts))
    (hc : η.find? t = some c) : Unlinked table base (W.connect content c) η ts := by
  obtain ⟨hne, hdistinct⟩ := List.pairwise_cons.1 h.distinct
  refine ⟨?_, hdistinct⟩
  intro t' ht'
  obtain ⟨c', hc', hbase, hlt, hfree, htable⟩ := h.cell t' (List.mem_cons_of_mem _ ht')
  refine ⟨c', hc', hbase, hlt, ?_, htable⟩
  rintro a (hl | ⟨-, rfl⟩)
  · exact hfree a hl
  · exact hne t' ht' (hc.trans hc'.symm)

end Unlinked

/-- The scope and the heap behind the entry to a function with given variables. -/
structure Entered (vars : List (String × Datum)) (η : Scope) (M : Heap) (inner : Scope) (M' : Heap) : Prop where
  heap : ∃ ds, M' = M ++ ds
  outer : ∀ t, t ∉ vars.map Prod.fst → inner.find? t = η.find? t
  own : ∀ {t d}, (t, d) ∈ vars → ∃ c, inner.find? t = some c ∧ M.length ≤ c.index ∧ M'[c.index]? = some d
  distinct : (vars.map Prod.fst).Pairwise fun t t' => inner.find? t ≠ inner.find? t'

/-- **On entry every variable gets a cell of its own.** -/
theorem entered_allocate {vars : List (String × Datum)} (hn : (vars.map Prod.fst).Nodup) (η : Scope) (M : Heap) :
    Entered vars η M (allocate vars η M).1 (allocate vars η M).2 := by
  induction vars generalizing η M with
  | nil => exact ⟨⟨[], (List.append_nil M).symm⟩, fun _ _ => rfl, fun h => absurd h List.not_mem_nil, .nil⟩
  | cons var vars ih =>
    obtain ⟨t, d⟩ := var
    rw [List.map_cons, List.nodup_cons] at hn
    obtain ⟨hnew, hn⟩ := hn
    obtain ⟨⟨ds, hheap⟩, houter, hown, hdistinct⟩ := ih hn (η.bind t ⟨M.length⟩) (M ++ [d])
    have ht : (allocate vars (η.bind t ⟨M.length⟩) (M ++ [d])).1.find? t = some ⟨M.length⟩ := by
      rw [houter t hnew, Scope.find?_bind, if_pos rfl]
    refine ⟨⟨d :: ds, ?_⟩, ?_, ?_, ?_⟩
    · rw [allocate, hheap]
      simp
    · intro t' ht'
      rw [List.map_cons, List.mem_cons, not_or] at ht'
      rw [allocate, houter t' ht'.2, Scope.find?_bind, if_neg (Ne.symm ht'.1)]
    · intro t' d' hmem
      rw [allocate]
      rcases List.mem_cons.1 hmem with heq | hmem
      · cases heq
        refine ⟨⟨M.length⟩, ht, Nat.le_refl _, ?_⟩
        rw [hheap]
        simp
      · obtain ⟨c, hc, hle, hd⟩ := hown hmem
        rw [List.length_append] at hle
        exact ⟨c, hc, by omega, hd⟩
    · rw [List.map_cons, List.pairwise_cons, allocate]
      refine ⟨?_, hdistinct⟩
      intro t' ht'
      obtain ⟨⟨_, d'⟩, hmem, rfl⟩ := List.mem_map.1 ht'
      obtain ⟨c, hc, hle, -⟩ := hown hmem
      -- the cells of the others come later
      rw [ht, hc]
      intro heq
      cases heq
      rw [List.length_append, List.length_singleton] at hle
      exact Nat.lt_irrefl _ hle

/-- All variables of a function are unlinked on entry. -/
theorem Entered.unlinked {table : Option CellId} {vars : List (String × Datum)} {W : World} {η inner : Scope}
    {M' : Heap} (h : Entered vars η W.heap inner M') (hW : W.Sound table) :
    Unlinked table W.heap.length ⟨W.link, W.memory, M'⟩ inner (vars.map Prod.fst) := by
  refine ⟨?_, h.distinct⟩
  intro t ht
  obtain ⟨⟨_, d⟩, hmem, rfl⟩ := List.mem_map.1 ht
  obtain ⟨c, hc, hle, hd⟩ := h.own hmem
  refine ⟨c, hc, hle, (List.getElem?_eq_some_iff.1 hd).1, ?_, ?_⟩
  · intro a hl
    exact absurd (hW.inside hl).2 (Nat.not_lt.2 hle)
  · intro htable
    exact absurd (List.getElem?_eq_some_iff.1 (hW.table htable).1).1 (Nat.not_lt.2 hle)

namespace Agrees

variable {table : Option CellId} {link link' : Links} {σ η : Scope} {ρ ρ₁ : Renaming}

/-- **A name is bound** to a cell on one side and to the variable linked to it on the other. -/
theorem bind (h : Agrees table link σ ρ η) {x t : String} {site : Form} {a c : CellId}
    (hp : ρ.put x site = .ok (t, ρ₁)) (hc : η.find? t = some c) (hle : ∀ {a c}, link a c → link' a c)
    (hl : link' a c) : Agrees table link' (σ.bind x a) ρ₁ η := by
  obtain ⟨rfl, hfree, -⟩ := Renaming.put_spec hp
  refine ⟨h.good.bind hfree, h.safe, ?_, ?_⟩
  · intro y b hy
    rw [Scope.find?_bind] at hy
    rw [Renaming.target?_bind]
    split at hy
    · rename_i hxy
      cases hy
      exact ⟨t, c, if_pos hxy, hc, hl⟩
    · rename_i hxy
      obtain ⟨t', c', ht', hc', hl'⟩ := h.names hy
      exact ⟨t', c', by rw [if_neg hxy, ht'], hc', hle hl'⟩
  · intro c' hc'
    obtain ⟨htaken, hfind⟩ := h.table hc'
    exact ⟨(Renaming.isTaken_bind _ _ _ _).2 (Or.inr htaken), hfind⟩

/-- **What is visible stays visible on entry to a function**: the variables of the function are new. -/
theorem enter (h : Agrees table link σ ρ η) {vars : List (String × Datum)} {inner : Scope} {M M' : Heap}
    (he : Entered vars η M inner M') (hfree : ∀ t ∈ vars.map Prod.fst, ρ.isTaken t = false)
    (hsafe : ∀ t ∈ vars.map Prod.fst, isSafe t = true) : Agrees table link σ ρ inner := by
  have hkeep : ∀ {t}, ρ.isTaken t = true → inner.find? t = η.find? t := by
    intro t ht
    refine he.outer t fun hmem => ?_
    rw [hfree t hmem] at ht
    cases ht
  refine ⟨h.good, ?_, ?_, ?_⟩
  · intro t c hc
    by_cases hmem : t ∈ vars.map Prod.fst
    · exact hsafe t hmem
    · rw [he.outer t hmem] at hc
      exact h.safe t c hc
  · intro x a hx
    obtain ⟨t, c, ht, hc, hl⟩ := h.names hx
    exact ⟨t, c, ht, by rw [hkeep (h.good.taken ht), hc], hl⟩
  · intro c hc
    obtain ⟨htaken, hfind⟩ := h.table hc
    exact ⟨htaken, by rw [hkeep htaken, hfind]⟩

end Agrees

/-- **On entry to a function nothing is linked that was not**, and its variables are there, each in a new cell. -/
theorem World.Sound.enter {table : Option CellId} {W : World} {σ η : Scope} {ρ ρ' : Renaming}
    {names : List String} {vars : List (String × Datum)} (hW : W.Sound table) (hA : Agrees table W.link σ ρ η)
    (hputs : Renaming.Puts ρ names (vars.map Prod.fst) ρ') :
    ∃ inner M, allocate vars η W.heap = (inner, M) ∧ Entered vars η W.heap inner M ∧
      W.Later W.heap.length ⟨W.link, W.memory, M⟩ ∧ Sound table ⟨W.link, W.memory, M⟩ ∧
      Agrees table W.link σ ρ inner ∧
      Unlinked table W.heap.length ⟨W.link, W.memory, M⟩ inner (vars.map Prod.fst) := by
  have hentered := entered_allocate hputs.nodup η W.heap
  cases hentry : allocate vars η W.heap with
  | mk inner M =>
    rw [hentry] at hentered
    obtain ⟨grown, rfl⟩ := hentered.heap
    exact ⟨inner, _, rfl, hentered, ⟨id, Or.inl, by simp⟩, hW.grow grown,
      hA.enter hentered hputs.not_taken hputs.isSafe, hentered.unlinked hW⟩

/-- Distinct variables are all there on entry. -/
theorem frame_eq_append {bound : List (String × Datum)} {declared : List String}
    (h : (bound.map Prod.fst ++ declared).Nodup) :
    frame bound declared = bound ++ declared.map fun t => (t, .undefined) := by
  have hall : declared.filter (fun t => t ∉ bound.map Prod.fst) = declared := by
    rw [List.filter_eq_self]
    intro t ht
    simpa using fun hmem => (List.nodup_append.1 h).2.2 t hmem t ht rfl
  rw [frame, hall]

end HostLisp
