import HostLisp.Proofs.Worlds

/-!
# The host follows evaluation

Whatever the evaluator does with a form, the host does with its code. Both start in a sound world whose scopes
agree, and they end in a sound one that comes later. Only evaluation that succeeds is followed: host code does not
check what the evaluator checks.

A declaration is followed as a statement, since it links a variable of the function around it, and everything else
as an expression, which leaves scopes as they are.

* `Simulates`, `SimulatesVar`: what is followed, for expressions and for declarations.
* `simulates_statements`: statements in order.
* `simulates_call`: **a call**, from the entry on (`simulates_entry`) to what is returned (`simulates_tail`).
* `layer_simulates`: one level of evaluation, by what the code was made from.
* `perform_simulates`: **any number of levels.**
-/

namespace HostLisp

open Host Codegen

/-! ## Evaluation that succeeds -/

namespace Eval

variable {α β : Type} {m m' : Memory}

theorem outcome_bind_eq_ok {x : Eval α} {f : α → Eval β} {b : β} :
    (x >>= f).outcome m = (.ok b, m') ↔
      ∃ a m₁, x.outcome m = (.ok a, m₁) ∧ (f a).outcome m₁ = (.ok b, m') := by
  rw [Evaluator.Realm.Runs.outcome_bind]
  rcases x.outcome m with ⟨e | a, m₁⟩ <;> simp

theorem alloc_eq_ok {content : Option Value} {cell : CellId} (h : (alloc content).outcome m = (.ok cell, m')) :
    cell = ⟨m.size⟩ ∧ m' = { m with store := m.store.push content } := by
  rcases Nat.lt_or_ge m.size Store.capacity with hroom | hfull
  · rw [outcome_alloc_ok hroom] at h
    cases h
    exact ⟨rfl, rfl⟩
  · rw [outcome_alloc_error hfull] at h
    cases h

theorem write_eq_ok {cell : CellId} {v : Value} {u : Unit} (h : (write cell v).outcome m = (.ok u, m')) :
    ∃ store, m.store.write cell v = .ok store ∧ m' = { m with store } := by
  cases hw : m.store.write cell v with
  | error e =>
    rw [outcome_write_error hw] at h
    cases h
  | ok store =>
    rw [outcome_write_ok hw] at h
    cases h
    exact ⟨store, rfl, rfl⟩

theorem read_eq_ok {cell : CellId} {content : Option Value} (h : (read cell).outcome m = (.ok content, m')) :
    m.store.content? cell = some content ∧ m' = m := by
  rw [outcome_read] at h
  cases hc : m.store.content? cell with
  | none =>
    rw [Store.read_of_foreign hc] at h
    cases h
  | some content' =>
    rw [Store.read_of_content? hc] at h
    cases h
    exact ⟨rfl, rfl⟩

end Eval

namespace Evaluator

variable {below : Performer} {σ σ' : Scope} {m m' : Memory}

/-- A name that has a value is bound to a cell that holds it. -/
theorem lookup_eq_ok {site : Form} {name : String} {v : Value}
    (h : (lookup site name σ).outcome m = (.ok v, m')) :
    ∃ a, σ.find? name = some a ∧ m.store.content? a = some (some v) ∧ m' = m := by
  unfold lookup at h
  split at h
  · cases h
  · rename_i a ha
    obtain ⟨content, m₁, hread, h⟩ := Eval.outcome_bind_eq_ok.1 h
    obtain ⟨hcontent, rfl⟩ := Eval.read_eq_ok hread
    cases content with
    | none => cases h
    | some w =>
      cases h
      exact ⟨a, ha, hcontent, rfl⟩

/-- The body of a function is its first forms in order, then the last one. -/
theorem evalBody_eq (fs : List Form) (last : Form) (σ : Scope) :
    evalBody below fs last σ =
      evalEach below fs σ >>= fun p => below (.form last) p.2 >>= fun q => pure q.1 := by
  induction fs generalizing σ with
  | nil => rfl
  | cons f fs ih =>
    simp only [evalBody, evalEach, ih, bind_assoc, pure_bind]

theorem rebuildItem_of_plain {item : Form} (h : ∀ args, item.special? ≠ some (.unquoteSplicing, args))
    (σ : Scope) : rebuildItem below item σ = below (.template item) σ >>= fun p => pure ([p.1], p.2) := by
  unfold rebuildItem
  split
  · exact absurd ‹_› (h _)
  · rfl

theorem rebuild_of_plain {items : List Form} (h : (Form.list items).PlainTemplate) (σ : Scope) :
    rebuild below (.list items) σ = rebuildEach below items σ >>= fun p => pure (.list p.1, p.2) := by
  unfold rebuild
  split
  · exact absurd ‹_› (h _).1
  · exact absurd ‹_› (h _).2
  · rfl

/-- The forms of a program are evaluated in order. -/
theorem evalEach_of_runAll {limit : Nat} {forms : List Form} {v v' : Option Value}
    (h : (runAll limit v forms σ).outcome m = (.ok (v', σ'), m')) :
    ∃ vs, (evalEach (perform limit limit) forms σ).outcome m = (.ok (vs, σ'), m') := by
  induction forms generalizing v σ m with
  | nil =>
    cases h
    exact ⟨[], rfl⟩
  | cons f fs ih =>
    obtain ⟨_, m₁, hn, h⟩ := Eval.outcome_bind_eq_ok.1 h
    obtain ⟨⟨w, σ₁⟩, m₂, hf, h⟩ := Eval.outcome_bind_eq_ok.1 h
    obtain ⟨vs, hvs⟩ := ih h
    have hm : m₁ = m := congrArg Prod.snd hn.symm
    rw [hm] at hf
    refine ⟨w :: vs, Eval.outcome_bind_eq_ok.2 ⟨_, _, hf, ?_⟩⟩
    exact Eval.outcome_bind_eq_ok.2 ⟨_, _, hvs, rfl⟩

end Evaluator

/-! ## What is simulated -/

variable {table : Option CellId}

/-- **The host evaluates code to what evaluation gave**, and the worlds before and behind it. -/
structure Reaches (table : Option CellId) (η : Scope) (W : World) (e : Expr) (W' : World) (v : Value) : Prop where
  later : W.Later W.heap.length W'
  sound : W'.Sound table
  evaluates : ∃ d, Evaluates η e W.heap d W'.heap ∧ Matches table W'.link v d

/-- The same for code that stands side by side. -/
structure ReachesEach (table : Option CellId) (η : Scope) (W : World) (es : List Expr) (W' : World)
    (vs : List Value) : Prop where
  later : W.Later W.heap.length W'
  sound : W'.Sound table
  evaluates : ∃ ds, EvaluatesEach η es W.heap ds W'.heap ∧ MatchesEach table W'.link vs ds

/-- **The host executes statements as evaluation did**, and further variables are left for later. -/
structure Advances (table : Option CellId) (base : Nat) (η : Scope) (W : World) (es : List Expr) (W' : World)
    (σ : Scope) (ρ : Renaming) (more : List String) : Prop where
  later : W.Later base W'
  sound : W'.Sound table
  agrees : Agrees table W'.link σ ρ η
  rest : Unlinked table base W' η more
  executes : Executes η es W.heap W'.heap

/-- What is evaluated inside a statement, the host evaluates too. -/
def Simulates (table : Option CellId) (below : Performer) : Prop :=
  ∀ job ρ e ρ', job.Fits table → Compiles job ρ e ρ' →
    ∀ W σ η, W.Sound table → Agrees table W.link σ ρ η →
      ∀ v σ' m, (below job σ).outcome W.memory = (.ok (v, σ'), m) →
        σ' = σ ∧ ∃ W', W'.memory = m ∧ Reaches table η W e W' v

/-- What a declaration does, the host does too. The value is in the variable in the end. -/
def SimulatesVar (table : Option CellId) (below : Performer) : Prop :=
  ∀ f x init t ρ ρ₁ e ρ₂, f.FitsStatement table → f.Reads (.var x init) →
    ρ.put x (.symbol x) = .ok (t, ρ₁) → Compiles (.form init) ρ₁ e ρ₂ →
    ∀ base W σ η more, W.Sound table → Agrees table W.link σ ρ η → Unlinked table base W η (t :: more) →
      ∀ v σ' m, (below (.form f) σ).outcome W.memory = (.ok (v, σ'), m) →
        ∃ W', W'.memory = m ∧ Advances table base η W [.declare t e] W' σ' ρ₂ more ∧
          ∃ d, Evaluates η (.identifier t) W'.heap d W'.heap ∧ Matches table W'.link v d

theorem Reaches.of_evaluates {η : Scope} {W : World} {e : Expr} {d : Datum} {v : Value} (hW : W.Sound table)
    (he : Evaluates η e W.heap d W.heap) (hv : Matches table W.link v d) : Reaches table η W e W v :=
  ⟨.refl _ W, hW, d, he, hv⟩

/-! ## Lists of forms -/

section

variable {below : Performer} {σ η : Scope} {ρ ρ' : Renaming} {W : World}

/-- Forms inside a statement, from left to right. -/
theorem simulates_each (hS : Simulates table below) {fs : List Form} {es : List Expr} {vs : List Value}
    {σ' : Scope} {m : Memory} (hfs : ∀ f ∈ fs, (Job.form f).Fits table) (hc : EmitsEach Compiles fs ρ es ρ')
    (hW : W.Sound table) (hA : Agrees table W.link σ ρ η)
    (h : (Evaluator.evalEach below fs σ).outcome W.memory = (.ok (vs, σ'), m)) :
    σ' = σ ∧ ∃ W', W'.memory = m ∧ ReachesEach table η W es W' vs := by
  induction hc generalizing W vs with
  | nil ρ =>
    cases h
    exact ⟨rfl, W, rfl, .refl _ W, hW, [], .nil _ _, rfl⟩
  | cons hf _ ih =>
    obtain ⟨hfit, hfits⟩ := List.forall_mem_cons.1 hfs
    obtain ⟨⟨v, σ₁⟩, m₁, hv, h⟩ := Eval.outcome_bind_eq_ok.1 h
    obtain ⟨⟨vs', σ₂⟩, m₂, hvs, h⟩ := Eval.outcome_bind_eq_ok.1 h
    cases h
    obtain ⟨rfl, W₁, rfl, hlater, hsound, d, he, hd⟩ := hS _ _ _ _ hfit hf W σ η hW hA _ _ _ hv
    -- no declaration stands here, so the others are compiled under the same names
    cases hfit.names_eq hf
    obtain ⟨rfl, W₂, rfl, hlater', hsound', ds, hes, hds⟩ := ih hfits hsound (hA.mono hlater.link) hvs
    refine ⟨rfl, W₂, rfl, hlater.andThen hlater', hsound', d :: ds, .cons he hes, ?_⟩
    rw [MatchesEach]
    exact ⟨d, ds, rfl, hd.mono hlater'.link, hds⟩

/-- A statement: a declaration, or something else that is evaluated. -/
theorem simulates_statement (hS : Simulates table below) (hV : SimulatesVar table below) {f : Form} {e : Expr}
    {v : Value} {σ' : Scope} {m : Memory} {base : Nat} {more : List String} (hf : f.FitsStatement table)
    (hc : Compiles (.form f) ρ e ρ') (hbase : base ≤ W.heap.length) (hW : W.Sound table)
    (hA : Agrees table W.link σ ρ η) (hU : Unlinked table base W η (e.declared ++ more))
    (h : (below (.form f) σ).outcome W.memory = (.ok (v, σ'), m)) :
    ∃ W', W'.memory = m ∧ Advances table base η W [e] W' σ' ρ' more := by
  cases hvar : f.isSpecial .var with
  | true =>
    obtain ⟨x, init, t, ρ₁, e', hr, hp, hi, rfl⟩ := hc.of_var hvar
    have hnone := (hf.init hr).declared_eq_nil hi
    rw [Expr.declared, hnone] at hU
    obtain ⟨W', hm, hadv, -⟩ := hV f x init t ρ ρ₁ e' ρ' hf hr hp hi base W σ η more hW hA hU v σ' m h
    exact ⟨W', hm, hadv⟩
  | false =>
    have hfit := hf.fits hvar
    obtain ⟨rfl, W', hm, hlater, hsound, d, he, -⟩ := hS _ _ _ _ hfit hc W σ η hW hA v σ' m h
    cases hfit.names_eq hc
    rw [hfit.declared_eq_nil hc] at hU
    exact ⟨W', hm, hlater.weaken hbase, hsound, hA.mono hlater.link, hU.later hlater, .expression he (.nil _ _)⟩

/-- **Statements in order.** -/
theorem simulates_statements (hS : Simulates table below) (hV : SimulatesVar table below) {fs : List Form}
    {es : List Expr} {vs : List Value} {σ' : Scope} {m : Memory} {base : Nat} {more : List String}
    (hfs : ∀ f ∈ fs, f.FitsStatement table) (hc : EmitsEach Compiles fs ρ es ρ')
    (hbase : base ≤ W.heap.length) (hW : W.Sound table) (hA : Agrees table W.link σ ρ η)
    (hU : Unlinked table base W η (Expr.declaredEach es ++ more))
    (h : (Evaluator.evalEach below fs σ).outcome W.memory = (.ok (vs, σ'), m)) :
    ∃ W', W'.memory = m ∧ Advances table base η W es W' σ' ρ' more := by
  induction hc generalizing W σ vs with
  | nil ρ =>
    cases h
    exact ⟨W, rfl, .refl _ W, hW, hA, hU, .nil _ _⟩
  | cons hf _ ih =>
    obtain ⟨hfit, hfits⟩ := List.forall_mem_cons.1 hfs
    obtain ⟨⟨v, σ₁⟩, m₁, hv, h⟩ := Eval.outcome_bind_eq_ok.1 h
    obtain ⟨⟨vs', σ₂⟩, m₂, hvs, h⟩ := Eval.outcome_bind_eq_ok.1 h
    cases h
    rw [Expr.declaredEach, List.append_assoc] at hU
    obtain ⟨W₁, rfl, hadv⟩ := simulates_statement hS hV hfit hf hbase hW hA hU hv
    obtain ⟨W₂, hm, hadv'⟩ :=
      ih hfits (Nat.le_trans hbase hadv.later.length) hadv.sound hadv.agrees hadv.rest hvs
    exact ⟨W₂, hm, hadv.later.trans hadv'.later, hadv'.sound, hadv'.agrees, hadv'.rest,
      hadv.executes.append hadv'.executes⟩

/-- The end of a function body. -/
theorem simulates_tail (hS : Simulates table below) (hV : SimulatesVar table below) {tail : Form}
    {last : List Expr} {result : Expr} {v : Value} {σ' : Scope} {m : Memory} {base : Nat}
    (htail : if tail.isSpecial .var then tail.FitsStatement table else (Job.form tail).Fits table)
    (hc : EmitsTail Compiles tail ρ last result ρ') (hbase : base ≤ W.heap.length) (hW : W.Sound table)
    (hA : Agrees table W.link σ ρ η)
    (hU : Unlinked table base W η (Expr.declaredEach last ++ result.declared))
    (h : (below (.form tail) σ).outcome W.memory = (.ok (v, σ'), m)) :
    ∃ W' M d, W'.memory = m ∧ W.Later base W' ∧ W'.Sound table ∧ Executes η last W.heap M ∧
      Evaluates η result M d W'.heap ∧ Matches table W'.link v d := by
  cases hc with
  | declaration hs hd hp hi =>
    rw [if_pos (Form.isSpecial_eq_true hs)] at htail
    have hr := Form.reads_var hs hd
    simp only [Expr.declaredEach, Expr.declared, List.append_nil, (htail.init hr).declared_eq_nil hi] at hU
    obtain ⟨W', hm, hadv, d, hd, hv⟩ := hV _ _ _ _ _ _ _ _ htail hr hp hi base W σ η [] hW hA hU v σ' m h
    exact ⟨W', W'.heap, d, hm, hadv.later, hadv.sound, hadv.executes, hd, hv⟩
  | other hs hi =>
    rw [if_neg (by simp [Form.isSpecial_eq_false hs])] at htail
    obtain ⟨-, W', hm, hlater, hsound, d, he, hv⟩ := hS _ _ _ _ htail hi W σ η hW hA v σ' m h
    exact ⟨W', W.heap, d, hm, hlater.weaken hbase, hsound, .nil _ _, he, hv⟩

/-! ## Calls -/

/-- New cells for parameters, linked to the variables that hold the arguments. -/
theorem simulates_bindEach {names targets : List String} {vs : List Value} {ds : List Datum} {base : Nat}
    {more : List String} {σ' : Scope} {m : Memory} (hp : Renaming.Puts ρ names targets ρ')
    (hlen : vs.length = names.length) (hds : MatchesEach table W.link vs ds)
    (hheld : ∀ {t d}, (t, d) ∈ targets.zip ds → ∃ c, η.find? t = some c ∧ W.heap[c.index]? = some d)
    (hW : W.Sound table) (hA : Agrees table W.link σ ρ η) (hU : Unlinked table base W η (targets ++ more))
    (h : (Evaluator.bindEach (names.zip vs) σ).outcome W.memory = (.ok σ', m)) :
    ∃ W', W'.memory = m ∧ W'.heap = W.heap ∧ W.Later base W' ∧ W'.Sound table ∧
      Agrees table W'.link σ' ρ' η ∧ Unlinked table base W' η more := by
  induction hp generalizing W σ vs ds with
  | nil ρ =>
    cases h
    exact ⟨W, rfl, rfl, .refl _ W, hW, hA, hU⟩
  | @cons _ _ _ name t names targets _ hput _ ih =>
    cases vs with
    | nil => cases hlen
    | cons v vs =>
      rw [MatchesEach] at hds
      obtain ⟨d, ds, rfl, hd, hds⟩ := hds
      obtain ⟨cell, m₁, halloc, h⟩ := Eval.outcome_bind_eq_ok.1 h
      obtain ⟨rfl, rfl⟩ := Eval.alloc_eq_ok halloc
      obtain ⟨c, hc, hbase, hlt, hfree, htable⟩ := hU.cell t List.mem_cons_self
      -- the host has set the variable on entry, so it may be linked to a cell that is full
      have hcontent : ∀ w, some v = some w → ∃ d, W.heap[c.index]? = some d ∧ Matches table W.link w d := by
        intro w hw
        cases hw
        obtain ⟨c', hc', hd'⟩ := hheld (t := t) (d := d) (by simp)
        rw [hc] at hc'
        cases hc'
        exact ⟨d, hd', hd⟩
      have hle : ∀ {a c'}, W.link a c' → (W.connect (some v) c).link a c' := Or.inl
      obtain ⟨W', hm, hheap, hlater, hsound, hagrees, hrest⟩ := ih (W := W.connect (some v) c)
        (by simpa using hlen) (hds.mono hle) (fun hmem => hheld (List.mem_cons_of_mem _ hmem))
        (hW.connect hlt hfree htable hcontent) (hA.bind hput hc hle (Or.inr ⟨rfl, rfl⟩)) (hU.connect hc) h
      exact ⟨W', hm, hheap, (W.later_connect (some v) hbase).trans hlater, hsound, hagrees, hrest⟩

/-- What parameters are bound to: the arguments, or all of them together. -/
def Parameters.pass {α : Type} (together : List α → α) (args : List α) : Parameters → List α
  | .fixed _ => args
  | .rest _ => [together args]

/-- A call that succeeds binds the parameters and runs the body. -/
theorem Evaluator.call_eq_ok {site : Form} {c : Closure} {args : List Value} {v : Value} {m m' : Memory}
    (h : (call below site c args).outcome m = (.ok v, m')) :
    (c.params.pass .list args).length = c.params.names.length ∧ ∃ σ m₁,
      (bindEach (c.params.names.zip (c.params.pass .list args)) c.scope).outcome m = (.ok σ, m₁) ∧
      (evalBody below c.body.leading c.body.last σ).outcome m₁ = (.ok v, m') := by
  cases hparams : c.params with
  | fixed names =>
    simp only [call, hparams] at h
    split at h
    · rename_i hlen
      exact ⟨hlen.symm, Eval.outcome_bind_eq_ok.1 h⟩
    · cases h
  | rest name =>
    simp only [call, hparams] at h
    exact ⟨rfl, Eval.outcome_bind_eq_ok.1 h⟩

/-- Parameters that have an argument each hold it on entry. -/
theorem Host.arguments_eq_zip {targets : Parameters} {ds : List Datum}
    (h : (targets.pass .array ds).length = targets.names.length) :
    arguments targets ds = targets.names.zip (targets.pass .array ds) := by
  cases targets with
  | fixed names =>
    replace h : ds.length = names.length := h
    have hzip : (names ++ []).zip (ds ++ List.replicate names.length Datum.undefined) = names.zip ds ++ [] :=
      List.zip_append h.symm
    rw [List.append_nil, List.append_nil] at hzip
    exact hzip
  | rest name => rfl

theorem putParameters_pass {params targets : Parameters} (hp : putParameters params ρ = .ok (targets, ρ'))
    {link : Links} {args : List Value} {ds : List Datum} (h : MatchesEach table link args ds) :
    MatchesEach table link (params.pass .list args) (targets.pass .array ds) := by
  cases params with
  | fixed names =>
    obtain ⟨⟨ts, ρ₁⟩, -, h'⟩ := bind_eq_ok_iff.1 hp
    cases h'
    exact h
  | rest name =>
    obtain ⟨⟨t, ρ₁⟩, -, h'⟩ := bind_eq_ok_iff.1 hp
    cases h'
    have hall : Matches table link (.list args) (.array ds) := by
      rw [Matches]
      exact ⟨ds, rfl, h⟩
    rw [Parameters.pass, MatchesEach]
    exact ⟨.array ds, [], rfl, hall, rfl⟩

theorem Host.Renaming.Puts.length_eq {names targets : List String} (h : Renaming.Puts ρ names targets ρ') :
    targets.length = names.length := by
  induction h with
  | nil => rfl
  | cons _ _ ih => rw [List.length_cons, List.length_cons, ih]

/-- On entry to a function its parameters are linked, and what its body declares is there. -/
theorem simulates_entry {c : Closure} {params : Parameters} {args : List Value} {ds : List Datum}
    {names declared : List String} {ρ₁ ρ₃ : Renaming} {m : Memory}
    (hp : putParameters c.params ρ = .ok (params, ρ₁))
    (hputs : Renaming.Puts ρ names (params.names ++ declared) ρ₃) (hds : MatchesEach table W.link args ds)
    (hW : W.Sound table) (hA : Agrees table W.link c.scope ρ η)
    (hlen : (c.params.pass .list args).length = c.params.names.length)
    (h : (Evaluator.bindEach (c.params.names.zip (c.params.pass .list args)) c.scope).outcome W.memory =
      (.ok σ, m)) :
    ∃ W' inner, W'.memory = m ∧ allocate (frame (arguments params ds) declared) η W.heap = (inner, W'.heap) ∧
      W.Later W.heap.length W' ∧ W'.Sound table ∧ Agrees table W'.link σ ρ₁ inner ∧
      Unlinked table W.heap.length W' inner declared := by
  have hpass := putParameters_pass hp hds
  have hcount : (params.pass .array ds).length = params.names.length := by
    rw [hpass.length_eq, hlen, (putParameters_puts hp).length_eq]
  have hargs := arguments_eq_zip hcount
  have hkeys : (arguments params ds).map Prod.fst = params.names := by
    rw [hargs, List.map_fst_zip (Nat.le_of_eq hcount.symm)]
  -- targets are distinct, so no declaration in the body falls on a parameter
  have hframe := frame_eq_append (by rw [hkeys]; exact hputs.nodup)
  have hvars : (frame (arguments params ds) declared).map Prod.fst = params.names ++ declared := by
    rw [hframe]
    simp [hkeys, Function.comp_def]
  rw [← hvars] at hputs
  obtain ⟨inner, M, hentry, hentered, hlater, hsound, hinner, hU⟩ := hW.enter hA hputs
  rw [hvars] at hU
  have hheld : ∀ {t d}, (t, d) ∈ params.names.zip (params.pass .array ds) →
      ∃ c, inner.find? t = some c ∧ M[c.index]? = some d := by
    intro t d hmem
    rw [← hargs] at hmem
    obtain ⟨c, hc, -, hd⟩ := hentered.own (by rw [hframe]; exact List.mem_append_left _ hmem)
    exact ⟨c, hc, hd⟩
  obtain ⟨W', hm, hheap, hlater', hsound', hagrees, hrest⟩ := simulates_bindEach
    (W := ⟨W.link, W.memory, M⟩) (putParameters_puts hp) hlen hpass hheld hsound hinner hU h
  exact ⟨W', inner, hm, by rw [hheap, hentry], hlater.trans hlater', hsound', hagrees, hrest⟩

/-- **A call**: the host enters the function and executes its body as evaluation does. -/
theorem simulates_call (hS : Simulates table below) (hV : SimulatesVar table below) {site : Form} {c : Closure}
    {args : List Value} {ds : List Datum} {params : Parameters} {leading : List Expr} {result : Expr}
    {v : Value} {m : Memory} (hcode : CodeOf table W.link c params leading result η)
    (hds : MatchesEach table W.link args ds) (hW : W.Sound table)
    (h : (Evaluator.call below site c args).outcome W.memory = (.ok v, m)) :
    ∃ W' inner M M' d, W'.memory = m ∧ W.Later W.heap.length W' ∧ W'.Sound table ∧
      allocate (frame (arguments params ds) (Expr.declaredEach leading ++ result.declared)) η W.heap =
        (inner, M) ∧
      Executes inner leading M M' ∧ Evaluates inner result M' d W'.heap ∧ Matches table W'.link v d := by
  obtain ⟨hlen, σ, m₁, hbind, hbody⟩ := Evaluator.call_eq_ok h
  rw [Evaluator.evalBody_eq] at hbody
  obtain ⟨⟨vs, σ₁⟩, m₂, hfirst, hbody⟩ := Eval.outcome_bind_eq_ok.1 hbody
  obtain ⟨⟨w, σ₂⟩, m₃, hlast, hbody⟩ := Eval.outcome_bind_eq_ok.1 hbody
  cases hbody
  cases hcode with
  | intro hp hl ht hleading htail hscope =>
    have hputs := puts_of_fn hp (hl.mono fun _ _ _ _ hc => hc.puts) (ht.mono fun _ _ _ _ hc => hc.puts)
    obtain ⟨W₁, inner, rfl, hentry, hlater₁, hsound₁, hagrees₁, hU₁⟩ :=
      simulates_entry hp hputs hds hW hscope hlen hbind
    rw [Expr.declaredEach_append, List.append_assoc] at hU₁
    obtain ⟨W₂, rfl, hadv⟩ :=
      simulates_statements hS hV hleading hl hlater₁.length hsound₁ hagrees₁ hU₁ hfirst
    have hbase := Nat.le_trans hlater₁.length hadv.later.length
    obtain ⟨W₃, M', d, hm, hlater₃, hsound₃, hexecutes, hevaluates, hv⟩ :=
      simulates_tail hS hV htail ht hbase hadv.sound hadv.agrees hadv.rest hlast
    exact ⟨W₃, inner, W₁.heap, M', d, hm, (hlater₁.trans hadv.later).trans hlater₃, hsound₃, hentry,
      hadv.executes.append hexecutes, hevaluates, hv⟩

/-! ## Quoted data and templates -/

mutual

/-- Quoted data is what it says. Its symbols come from the table. -/
theorem evaluates_quoted (hW : W.Sound table) (hA : Agrees table W.link σ ρ η) :
    ∀ f : Form, (table = none → SymbolTable.scan .quoted f = false) →
      ∃ d, Evaluates η (quoted f) W.heap d W.heap ∧ Matches table W.link (.ofForm f) d
  | .literal l, _ => ⟨_, .literal η l W.heap, by rw [Value.ofForm, Matches]⟩
  | .symbol name, hq => by
    cases htable : table with
    | none => exact absurd (hq htable) (by simp [SymbolTable.scan])
    | some c =>
      refine ⟨_, .intern name (hA.table htable).2 (hW.table htable).1, ?_⟩
      rw [Value.ofForm, Matches]
  | .list items, hq => by
    obtain ⟨ds, hds, hm⟩ :=
      evaluatesEach_quotedEach hW hA items fun htable => SymbolTable.scanAny_quoted (hq htable)
    refine ⟨_, .array hds, ?_⟩
    rw [Value.ofForm, Matches]
    exact ⟨ds, rfl, hm⟩

theorem evaluatesEach_quotedEach (hW : W.Sound table) (hA : Agrees table W.link σ ρ η) :
    ∀ fs : List Form, (table = none → SymbolTable.scanAny .quoted fs = false) →
      ∃ ds, EvaluatesEach η (quotedEach fs) W.heap ds W.heap ∧ MatchesEach table W.link (Value.ofForms fs) ds
  | [], _ => ⟨[], .nil _ _, rfl⟩
  | f :: fs, hq => by
    obtain ⟨d, hd, hm⟩ := evaluates_quoted hW hA f fun htable =>
      SymbolTable.scan_eq_false (hq htable) f List.mem_cons_self
    obtain ⟨ds, hds, hms⟩ := evaluatesEach_quotedEach hW hA fs fun htable => by
      have h := hq htable
      rw [SymbolTable.scanAny, Bool.or_eq_false_iff] at h
      exact h.2
    refine ⟨d :: ds, .cons hd hds, ?_⟩
    rw [Value.ofForms, MatchesEach]
    exact ⟨d, ds, rfl, hm, hms⟩

end

/-- One part of a template list, in front of others. -/
theorem simulates_part (hS : Simulates table below) {item : Form} {part : Part} {vs : List Value}
    {σ' : Scope} {m : Memory} (hfit : (Job.template item).Fits table) (hc : EmitsPart Compiles item ρ part ρ')
    (hW : W.Sound table) (hA : Agrees table W.link σ ρ η)
    (h : (Evaluator.rebuildItem below item σ).outcome W.memory = (.ok (vs, σ'), m)) :
    σ' = σ ∧ ρ' = ρ ∧ ∃ W' ds, W'.memory = m ∧ W.Later W.heap.length W' ∧ W'.Sound table ∧
      MatchesEach table W'.link vs ds ∧ ∀ {parts ds' M}, EvaluatesParts η parts W'.heap ds' M →
        EvaluatesParts η (part :: parts) W.heap (ds ++ ds') M := by
  cases hc with
  | splice hs hq hi =>
    simp only [Evaluator.rebuildItem, hs] at h
    obtain ⟨inner, m₀, hinner, h⟩ := Eval.outcome_bind_eq_ok.1 h
    rw [hq] at hinner
    cases hinner
    obtain ⟨⟨v, σ₁⟩, m₁, hv, h⟩ := Eval.outcome_bind_eq_ok.1 h
    have hsplice := hfit.unquoted (Or.inr rfl) (Special.quoted_eq_ok hq ▸ hs)
    obtain ⟨rfl, W', rfl, hlater, hsound, d, he, hd⟩ := hS _ _ _ _ hsplice hi W _ η hW hA _ _ _ hv
    -- a value that is no list is refused
    cases v with
    | literal | symbol | closure => cases h
    | list items =>
      cases h
      rw [Matches] at hd
      obtain ⟨ds, rfl, hd⟩ := hd
      exact ⟨rfl, hsplice.names_eq hi, W', ds, rfl, hlater, hsound, hd, fun hparts => .splice he hparts⟩
  | item hs hi =>
    rw [Evaluator.rebuildItem_of_plain hs] at h
    obtain ⟨⟨v, σ₁⟩, m₁, hv, h⟩ := Eval.outcome_bind_eq_ok.1 h
    cases h
    obtain ⟨rfl, W', rfl, hlater, hsound, d, he, hd⟩ := hS _ _ _ _ hfit hi W _ η hW hA _ _ _ hv
    refine ⟨rfl, hfit.names_eq hi, W', [d], rfl, hlater, hsound, ?_, fun hparts => .item he hparts⟩
    rw [MatchesEach]
    exact ⟨d, [], rfl, hd, rfl⟩

/-- The parts of a template list, from left to right. -/
theorem simulates_parts (hS : Simulates table below) {items : List Form} {parts : List Part} {vs : List Value}
    {σ' : Scope} {m : Memory} (hitems : ∀ t ∈ items, (Job.template t).Fits table)
    (hc : Threads (EmitsPart Compiles) items ρ parts ρ') (hW : W.Sound table)
    (hA : Agrees table W.link σ ρ η)
    (h : (Evaluator.rebuildEach below items σ).outcome W.memory = (.ok (vs, σ'), m)) :
    σ' = σ ∧ ∃ W' ds, W'.memory = m ∧ W.Later W.heap.length W' ∧ W'.Sound table ∧
      EvaluatesParts η parts W.heap ds W'.heap ∧ MatchesEach table W'.link vs ds := by
  induction hc generalizing W vs with
  | nil ρ =>
    cases h
    exact ⟨rfl, W, [], rfl, .refl _ W, hW, .nil _ _, rfl⟩
  | cons hpart _ ih =>
    obtain ⟨hfit, hfits⟩ := List.forall_mem_cons.1 hitems
    obtain ⟨⟨ws, σ₁⟩, m₁, hws, h⟩ := Eval.outcome_bind_eq_ok.1 h
    obtain ⟨⟨vs', σ₂⟩, m₂, hvs, h⟩ := Eval.outcome_bind_eq_ok.1 h
    cases h
    obtain ⟨rfl, rfl, W₁, ds, rfl, hlater, hsound, hd, he⟩ := simulates_part hS hfit hpart hW hA hws
    obtain ⟨rfl, W₂, ds', hm, hlater', hsound', hes, hds⟩ := ih hfits hsound (hA.mono hlater.link) hvs
    exact ⟨rfl, W₂, ds ++ ds', hm, hlater.andThen hlater', hsound', he hes, (hd.mono hlater'.link).append hds⟩

/-! ## Levels -/

/-- **A declaration**: the new cell is linked to the variable before the first value is evaluated, so a function
in that value finds both. -/
theorem layer_simulatesVar (hS : Simulates table below) : SimulatesVar table (Evaluator.layer below) := by
  intro f x init t ρ ρ₁ e ρ₂ hf hr hp hi base W σ η more hW hA hU v σ' m h
  rw [Evaluator.layer, Evaluator.evalForm_of_reads hr] at h
  obtain ⟨cell, m₁, halloc, h⟩ := Eval.outcome_bind_eq_ok.1 h
  obtain ⟨rfl, rfl⟩ := Eval.alloc_eq_ok halloc
  obtain ⟨⟨w, σ₁⟩, m₂, hinit, h⟩ := Eval.outcome_bind_eq_ok.1 h
  obtain ⟨u, m₃, hwrite, h⟩ := Eval.outcome_bind_eq_ok.1 h
  cases h
  obtain ⟨store, hstore, rfl⟩ := Eval.write_eq_ok hwrite
  obtain ⟨c, hc, hbase, hlt, hfree, htable⟩ := hU.cell t List.mem_cons_self
  have hW₁ : (W.connect none c).Sound table := hW.connect hlt hfree htable fun _ hnone => by cases hnone
  have hlink : (W.connect none c).link ⟨W.memory.size⟩ c := Or.inr ⟨rfl, rfl⟩
  have hA₁ : Agrees table (W.connect none c).link (σ.bind x ⟨W.memory.size⟩) ρ₁ η :=
    hA.bind hp hc Or.inl hlink
  have hfit := hf.init hr
  obtain ⟨rfl, W₂, rfl, hlater, hsound, d, he, hd⟩ := hS _ _ _ _ hfit hi _ _ η hW₁ hA₁ _ _ _ hinit
  cases hfit.names_eq hi
  -- links stay, so the value goes to the same pair of cells
  have hlink₂ := hlater.link hlink
  have hbase₁ : base ≤ (W.connect none c).heap.length := by
    change base ≤ W.heap.length
    omega
  refine ⟨⟨W₂.link, { W₂.memory with store }, W₂.heap.set c.index d⟩, rfl, ⟨?_, ?_, ?_, ?_, ?_⟩, d, ?_, hd⟩
  · exact ((W.later_connect none hbase).trans (hlater.weaken hbase₁)).trans (W₂.later_write base _ _ d)
  · exact hsound.write hlink₂ hd hstore
  · exact hA₁.mono hlater.link
  · exact ((hU.connect hc).later hlater).later (W₂.later_write _ _ _ d)
  · exact .declare he hc (hsound.inside hlink₂).2 (.nil _ _)
  · exact .identifier hc (List.getElem?_set_self (hsound.inside hlink₂).2)

/-- **One level of evaluation.** -/
theorem layer_simulates (hS : Simulates table below) (hV : SimulatesVar table below) :
    Simulates table (Evaluator.layer below) := by
  intro job ρ e ρ' hfit hc W σ η hW hA v σ' m h
  cases hc.emits with
  | literal hs =>
    simp only [Evaluator.layer, Evaluator.evalForm, hs] at h
    cases h
    exact ⟨rfl, W, rfl, .of_evaluates hW (.literal _ _ _) (by rw [Matches])⟩
  | name hs ht =>
    simp only [Evaluator.layer, Evaluator.evalForm, hs] at h
    obtain ⟨w, m₁, hlookup, h⟩ := Eval.outcome_bind_eq_ok.1 h
    cases h
    obtain ⟨a, ha, hcontent, rfl⟩ := Evaluator.lookup_eq_ok hlookup
    obtain ⟨t, c, ht', hc, hl⟩ := hA.names ha
    rw [ht] at ht'
    cases ht'
    obtain ⟨d, hd, hm⟩ := hW.holds hl hcontent
    exact ⟨rfl, W, rfl, .of_evaluates hW (.identifier hc hd) hm⟩
  | var hr hp hi => exact absurd hr hfit.not_var
  | fn hr hp hl ht =>
    rw [Evaluator.layer, Evaluator.evalForm_of_reads hr] at h
    cases h
    obtain ⟨hleading, hlast⟩ := hfit.body hr
    -- nothing runs yet: the closure keeps its scope, and the function one that agrees with it
    refine ⟨rfl, ⟨W.link, _, W.heap⟩, rfl, ⟨id, Or.inl, Nat.le_refl _⟩, hW.stamp _, _, .function _ _ _ _ _, ?_⟩
    rw [Matches]
    exact ⟨_, _, _, _, rfl, .intro hp hl ht hleading hlast hA⟩
  | assignName hr ht hv =>
    rw [Evaluator.layer, Evaluator.evalForm_of_reads hr, Evaluator.evalSpecial] at h
    split at h
    · cases h
    · rename_i a ha
      obtain ⟨⟨w, σ₁⟩, m₁, hw, h⟩ := Eval.outcome_bind_eq_ok.1 h
      obtain ⟨u, m₂, hwrite, h⟩ := Eval.outcome_bind_eq_ok.1 h
      cases h
      obtain ⟨store, hstore, rfl⟩ := Eval.write_eq_ok hwrite
      obtain ⟨t, c, ht', hc, hl⟩ := hA.names ha
      rw [ht] at ht'
      cases ht'
      obtain ⟨rfl, W₁, rfl, hlater, hsound, d, he, hd⟩ := hS _ _ _ _ (hfit.value hr) hv W _ η hW hA _ _ _ hw
      have hl₁ := hlater.link hl
      exact ⟨rfl, ⟨W₁.link, { W₁.memory with store }, W₁.heap.set c.index d⟩, rfl,
        hlater.trans (W₁.later_write _ _ _ d), hsound.write hl₁ hd hstore, d,
        .assign he hc (hsound.inside hl₁).2, hd⟩
  -- the evaluator has no objects, so it fails here, and in the cases of properties below
  | assignProperty hr ha hv =>
    rw [Evaluator.layer, Evaluator.evalForm_of_reads hr] at h
    cases h
  | @conditional _ t c a et ec ea _ _ _ _ hr ht hc ha =>
    rw [Evaluator.layer, Evaluator.evalForm_of_reads hr] at h
    obtain ⟨htest, hthen, helse⟩ := hfit.branches hr
    obtain ⟨⟨w, σ₁⟩, m₁, hw, h⟩ := Eval.outcome_bind_eq_ok.1 h
    obtain ⟨rfl, W₁, rfl, hlater, hsound, d, he, hd⟩ := hS _ _ _ _ htest ht W _ η hW hA _ _ _ hw
    cases htest.names_eq ht
    cases hthen.names_eq hc
    -- both sides take the same branch
    have hbranch : (Job.form (if w.isTruthy then c else a)).Fits table ∧
        ∃ ρ₃, Compiles (.form (if w.isTruthy then c else a)) ρ (if d.isTruthy then ec else ea) ρ₃ := by
      rw [hd.isTruthy_eq]
      cases w.isTruthy with
      | true => exact ⟨hthen, _, hc⟩
      | false => exact ⟨helse, _, ha⟩
    obtain ⟨hb, ρ₃, hbc⟩ := hbranch
    obtain ⟨rfl, W₂, hm, hlater', hsound', d', he', hd'⟩ :=
      hS _ _ _ _ hb hbc W₁ _ η hsound (hA.mono hlater.link) _ _ _ h
    exact ⟨rfl, W₂, hm, hlater.andThen hlater', hsound', d', .conditional he he', hd'⟩
  | quote hr =>
    rw [Evaluator.layer, Evaluator.evalForm_of_reads hr] at h
    cases h
    obtain ⟨d, he, hd⟩ := evaluates_quoted hW hA _ (hfit.datum hr)
    exact ⟨rfl, W, rfl, .of_evaluates hW he hd⟩
  | quasiquote hr ht =>
    rw [Evaluator.layer, Evaluator.evalForm_of_reads hr] at h
    exact hS _ _ _ _ (hfit.template hr) ht W σ η hW hA v σ' m h
  | list hr hi =>
    rw [Evaluator.layer, Evaluator.evalForm_of_reads hr] at h
    obtain ⟨⟨vs, σ₁⟩, m₁, hvs, h⟩ := Eval.outcome_bind_eq_ok.1 h
    cases h
    obtain ⟨rfl, W', hm, hlater, hsound, ds, hes, hds⟩ := simulates_each hS (hfit.items hr) hi hW hA hvs
    refine ⟨rfl, W', hm, hlater, hsound, _, .array hes, ?_⟩
    rw [Matches]
    exact ⟨ds, rfl, hds⟩
  | member hr ht hk =>
    rw [Evaluator.layer, Evaluator.evalForm_of_reads hr] at h
    cases h
  | object hr he =>
    rw [Evaluator.layer, Evaluator.evalForm_of_reads hr] at h
    cases h
  | access hs ht =>
    simp only [Evaluator.layer, Evaluator.evalForm, hs] at h
    cases h
  | accessCall hs ht ha =>
    simp only [Evaluator.layer, Evaluator.evalForm, hs] at h
    cases h
  | application hs hh ha =>
    simp only [Evaluator.layer, Evaluator.evalForm, hs] at h
    obtain ⟨hhead, hargs⟩ := hfit.application hs
    obtain ⟨⟨callee, σ₁⟩, m₁, hcallee, h⟩ := Eval.outcome_bind_eq_ok.1 h
    obtain ⟨⟨vs, σ₂⟩, m₂, hvs, h⟩ := Eval.outcome_bind_eq_ok.1 h
    obtain ⟨rfl, W₁, rfl, hlater₁, hsound₁, d, he, hd⟩ := hS _ _ _ _ hhead hh W _ η hW hA _ _ _ hcallee
    cases hhead.names_eq hh
    obtain ⟨rfl, W₂, rfl, hlater₂, hsound₂, ds, hes, hds⟩ :=
      simulates_each hS hargs ha hsound₁ (hA.mono hlater₁.link) hvs
    cases callee with
    | literal | symbol | list => cases h
    | closure c =>
      obtain ⟨w, m₃, hcall, h⟩ := Eval.outcome_bind_eq_ok.1 h
      cases h
      rw [Matches] at hd
      obtain ⟨params, leading, result, scope, rfl, hcode⟩ := hd
      obtain ⟨W₃, inner, M, M', d, hm, hlater₃, hsound₃, hentry, hexecutes, hevaluates, hd⟩ :=
        simulates_call hS hV (hcode.mono hlater₂.link) hds hsound₂ hcall
      exact ⟨rfl, W₃, hm, (hlater₁.andThen hlater₂).andThen hlater₃, hsound₃, d,
        .call he hes hentry hexecutes hevaluates, hd⟩
  | unquote hs hq hi =>
    simp only [Evaluator.layer, Evaluator.rebuild, hs] at h
    obtain ⟨inner, m₀, hinner, h⟩ := Eval.outcome_bind_eq_ok.1 h
    rw [hq] at hinner
    cases hinner
    have hinner := hfit.unquoted (Or.inl rfl) (Special.quoted_eq_ok hq ▸ hs)
    exact hS _ _ _ _ hinner hi W σ η hW hA v σ' m h
  | templateList hs hp =>
    rw [Evaluator.layer, Evaluator.rebuild_of_plain hs] at h
    obtain ⟨⟨vs, σ₁⟩, m₁, hvs, h⟩ := Eval.outcome_bind_eq_ok.1 h
    cases h
    obtain ⟨rfl, W', ds, hm, hlater, hsound, hparts, hds⟩ := simulates_parts hS (hfit.parts hs) hp hW hA hvs
    refine ⟨rfl, W', hm, hlater, hsound, _, evaluates_joined hA.safe hparts, ?_⟩
    rw [Matches]
    exact ⟨ds, rfl, hds⟩
  | @templateAtom t _ ht =>
    cases t with
    | list items => exact absurd rfl (ht items)
    | literal l =>
      cases h
      obtain ⟨d, he, hd⟩ := evaluates_quoted hW hA (.literal l) fun _ => rfl
      exact ⟨rfl, W, rfl, .of_evaluates hW he hd⟩
    | symbol name =>
      cases h
      obtain ⟨d, he, hd⟩ := evaluates_quoted hW hA (.symbol name) fun htable => hfit.quiet htable
      exact ⟨rfl, W, rfl, .of_evaluates hW he hd⟩

/-- **The host follows evaluation at every number of levels.** -/
theorem perform_simulates (table : Option CellId) (limit levels : Nat) :
    Simulates table (Evaluator.perform limit levels) ∧ SimulatesVar table (Evaluator.perform limit levels) := by
  induction levels with
  | zero =>
    constructor
    · intro job ρ e ρ' _ _ W σ η _ _ v σ' m h
      cases h
    · intro f x init t ρ ρ₁ e ρ₂ _ _ _ _ base W σ η more _ _ _ v σ' m h
      cases h
  | succ levels ih => exact ⟨layer_simulates ih.1 ih.2, layer_simulatesVar ih.1⟩

end

end HostLisp
