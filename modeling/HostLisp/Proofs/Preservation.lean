import HostLisp.Proofs.Simulation

/-!
# Compiled programs mean what they did

A program that evaluates and compiles has host code that runs to its end, and where evaluation has bound a name to
a value without functions, the variable of that name holds the same.

* `Datum.ofValue`: what a value is in the host.
* `World.exists_start`: evaluation and host before the first statement.
* `compile_preserves_meaning`: **the host code of a program does what the program does.**
-/

namespace HostLisp

open Host Codegen

namespace Host.Datum

mutual

/-- What a value is in the host. A function is not one datum but any that runs its code. -/
def ofValue : Value → Datum
  | .literal l => .literal l.inHost
  | .symbol name => .symbol name
  | .list vs => .array (ofValues vs)
  | .closure _ => .undefined

/-- What values are in the host. -/
def ofValues : List Value → List Datum
  | [] => []
  | v :: vs => ofValue v :: ofValues vs

end

end Host.Datum

section

variable {table : Option CellId} {link : Links}

mutual

/-- A value without functions matches one datum only. -/
theorem Matches.eq_ofValue : ∀ {v : Value} {d : Datum}, Matches table link v d → v.closures = [] →
    d = .ofValue v
  | .literal _, _, h, _ => h
  | .symbol _, _, h, _ => h
  | .list vs, d, h, hv => by
    rw [Matches] at h
    obtain ⟨ds, rfl, h⟩ := h
    rw [Datum.ofValue, MatchesEach.eq_ofValues h hv]
  | .closure c, _, _, hv => by cases hv

theorem MatchesEach.eq_ofValues : ∀ {vs : List Value} {ds : List Datum}, MatchesEach table link vs ds →
    Value.closuresEach vs = [] → ds = Datum.ofValues vs
  | [], _, h, _ => h
  | v :: vs, ds, h, hvs => by
    rw [MatchesEach] at h
    obtain ⟨d, ds, rfl, hd, hds⟩ := h
    rw [Value.closuresEach, List.append_eq_nil_iff] at hvs
    rw [Datum.ofValues, Matches.eq_ofValue hd hvs.1, MatchesEach.eq_ofValues hds hvs.2]

end

end

/-! ## Before the first statement -/

open Compiler

/-- The renaming before the first statement binds nothing, and the name of the table is taken if it is there. -/
theorem Compiler.Draft.names_of_begin {config : Config} {forms : List Form} {d : Draft}
    (h : Draft.begin config .empty forms = .ok d) :
    d.names.Good ∧ (wantsTable config forms = true → d.names.isTaken tableName = true) := by
  have hnone : ∀ n, d.names.target? n = none := by
    intro n
    rw [Draft.target?_begin h]
    simp [Renaming.target?, Renaming.empty]
  constructor
  · constructor
    · intro n t ht
      rw [hnone] at ht
      cases ht
    · intro n n' t ht
      rw [hnone] at ht
      cases ht
  · intro htable
    obtain ⟨-, hblank⟩ := Draft.begin_eq_ok_iff.1 h
    rw [htable] at hblank
    replace hblank : Draft.addTable ⟨.empty, ⟨false, []⟩⟩ = .ok d := hblank
    unfold Draft.addTable Renaming.reserve? at hblank
    split at hblank
    · rename_i ρ hρ
      cases hblank
      split at hρ
      · cases hρ
      · cases hρ
        simp [Renaming.isTaken]
    · cases hblank

/-- The world before anything is declared, with the table if it is wanted. Nothing is linked. -/
theorem World.exists_blank {wants : Bool} {declared : List String} {ρ : Renaming} (hρ : ρ.Good)
    (htaken : wants = true → ρ.isTaken tableName = true) (hnodup : declared.Nodup)
    (hfree : ∀ t ∈ declared, ρ.isTaken t = false) (m : Memory) :
    ∃ (W : World) (η : Scope) (table : Option CellId), W.memory = m ∧ (table = none → wants = false) ∧
      allocate (frame (if wants then [(tableName, .table)] else []) declared) .empty [] =
        allocate (declared.map fun t => (t, .undefined)) η W.heap ∧
      W.Sound table ∧ Agrees table W.link .empty ρ η := by
  cases wants with
  | false =>
    refine ⟨⟨fun _ _ => False, m, []⟩, .empty, none, rfl, fun _ => rfl, ?_, ?_, hρ, nofun, nofun, nofun⟩
    · have hframe : frame [] declared = declared.map fun t => (t, .undefined) := frame_eq_append hnodup
      rw [if_neg Bool.false_ne_true, hframe]
    · exact ⟨False.elim, False.elim, False.elim, False.elim, nofun⟩
  | true =>
    have hnew : tableName ∉ declared := by
      intro hmem
      have hno := hfree _ hmem
      rw [htaken rfl] at hno
      cases hno
    refine ⟨⟨fun _ _ => False, m, [.table]⟩, Scope.empty.bind tableName ⟨0⟩, some ⟨0⟩, rfl, nofun, ?_, ?_, hρ, ?_,
      nofun, ?_⟩
    · rw [if_pos rfl, frame_eq_append (List.nodup_cons.2 ⟨hnew, hnodup⟩)]
      rfl
    · refine ⟨False.elim, False.elim, False.elim, False.elim, ?_⟩
      rintro c ⟨⟩
      exact ⟨rfl, fun _ => id⟩
    · intro t c hc
      rw [Scope.find?_bind] at hc
      split at hc
      · rename_i ht
        rw [← ht]
        decide
      · cases hc
    · rintro c ⟨⟩
      exact ⟨htaken rfl, rfl⟩

/-- **Evaluation and host before the first statement**: nothing is linked, the table is there if it is wanted, and
so are all variables that will be declared. -/
theorem World.exists_start {wants : Bool} {declared names : List String} {ρ ρ' : Renaming} (hρ : ρ.Good)
    (htaken : wants = true → ρ.isTaken tableName = true) (hputs : Renaming.Puts ρ names declared ρ')
    (m : Memory) :
    ∃ (W : World) (η : Scope) (table : Option CellId), W.memory = m ∧ (table = none → wants = false) ∧
      allocate (frame (if wants then [(tableName, .table)] else []) declared) .empty [] = (η, W.heap) ∧
      W.Sound table ∧ Agrees table W.link .empty ρ η ∧
      ∃ base ≤ W.heap.length, Unlinked table base W η declared := by
  obtain ⟨W, η, table, rfl, hnone, hblank, hsound, hagrees⟩ :=
    World.exists_blank hρ htaken hputs.nodup hputs.not_taken m
  have hvars : (declared.map fun t => (t, Datum.undefined)).map Prod.fst = declared := by
    simp [Function.comp_def]
  obtain ⟨inner, M, hentry, -, hlater, hsound', hagrees', hunlinked⟩ := hsound.enter hagrees (by rwa [hvars])
  rw [hvars] at hunlinked
  exact ⟨⟨W.link, W.memory, M⟩, inner, table, rfl, hnone, hblank.trans hentry, hsound', hagrees', W.heap.length,
    hlater.length, hunlinked⟩

/-! ## Programs -/

namespace Evaluator

variable {ev ev' : Evaluator} {σ : Scope}

theorem evaluate_eq_ok {forms : List Form} {v : Option Value} (h : ev.evaluate forms .empty = (.ok (v, σ), ev')) :
    (runAll ev.maxDepth none forms .empty).outcome ev.memory = (.ok (v, σ), ev'.memory) := by
  have hrun : (runAll ev.maxDepth none forms .empty).outcome ev.memory =
      ((ev.evaluate forms .empty).1, (ev.evaluate forms .empty).2.memory) := rfl
  rw [hrun, h]

theorem get?_eq_some {x : String} {v : Value} (h : ev.get? σ x = some v) :
    ∃ a, σ.find? x = some a ∧ ev.memory.store.content? a = some (some v) := by
  unfold get? at h
  obtain ⟨a, ha, h⟩ := Option.bind_eq_some_iff.1 h
  obtain ⟨content, hcontent, rfl⟩ := Option.bind_eq_some_iff.1 h
  exact ⟨a, ha, hcontent⟩

end Evaluator

/-- **The host code of a program does what the program does.** A program whose declarations are statements, and
whose assignments do not stand in front of operators, compiles to the text of host code in which they do neither.
When the program evaluates, the code runs to its end, in one way only. Each name that is then bound to a value
without functions is renamed to a variable that holds the same value. -/
theorem compile_preserves_meaning {config : Config} {forms : List Form} {text : String}
    (hc : compile config .empty forms = .ok text)
    (hforms : ∀ f ∈ forms, f.wellPlaced .faithful .statement = true) :
    ∃ d d', Draft.begin config .empty forms = .ok d ∧ forms.foldlM (Draft.push config) d = .ok d' ∧
      text = d'.program.render config.indent ∧
      (∀ e ∈ d'.program.statements, e.wellPlaced .faithful .statement = true) ∧
      ∀ (ev ev' : Evaluator) (v : Option Value) (σ : Scope), ev.evaluate forms .empty = (.ok (v, σ), ev') →
        ∃ η M, d'.program.Runs η M ∧ (∀ η' M', d'.program.Runs η' M' → η' = η ∧ M' = M) ∧
          ∀ x value, ev'.get? σ x = some value → value.closures = [] →
            ∃ t c, d'.names.target? x = some t ∧ η.find? t = some c ∧ M[c.index]? = some (.ofValue value) := by
  obtain ⟨d, d', es, hbegin, hpush, -, htext, hprogram, hes⟩ := emitsEach_of_compile hc
  have hplaced := hes.wellPlaced (compile_wellPlaced _ _) hforms
  refine ⟨d, d', hbegin, hpush, htext, ?_, ?_⟩
  · rw [hprogram]
    exact Expr.wellPlacedEach_iff.1 hplaced
  intro ev ev' v σ hev
  obtain ⟨hgood, htaken⟩ := Draft.names_of_begin hbegin
  have hputs := puts_of_emitsEach (hes.mono fun _ _ _ _ h => compile_puts h)
  obtain ⟨W, η, table, hmemory, hnone, hstart, hsound, hagrees, base, hbase, hunlinked⟩ :=
    World.exists_start hgood htaken hputs ev.memory
  have hfit : ∀ f ∈ forms, f.FitsStatement table := by
    intro f hf
    refine ⟨hforms f hf, fun htable => ?_⟩
    have hneeded := hnone htable
    rw [wantsTable, Bool.or_eq_false_iff] at hneeded
    exact SymbolTable.scan_eq_false hneeded.2 f hf
  obtain ⟨vs, hvs⟩ := Evaluator.evalEach_of_runAll (Evaluator.evaluate_eq_ok hev)
  obtain ⟨hS, hV⟩ := perform_simulates table ev.maxDepth ev.maxDepth
  rw [← hmemory] at hvs
  rw [← List.append_nil (Expr.declaredEach es)] at hunlinked
  obtain ⟨W', hm, hadv⟩ := simulates_statements hS hV hfit
    (hes.mono fun _ _ _ _ h => ⟨_, _, h⟩) hbase hsound hagrees hunlinked hvs
  have hruns : d'.program.Runs η W'.heap := by
    rw [hprogram]
    exact ⟨W.heap, hstart, hadv.executes⟩
  refine ⟨η, W'.heap, hruns, fun η' M' h' => hruns.unique h', ?_⟩
  intro x value hx hclosures
  obtain ⟨a, ha, hcontent⟩ := Evaluator.get?_eq_some hx
  obtain ⟨t, c, ht, hc, hl⟩ := hadv.agrees.names ha
  rw [← hm] at hcontent
  obtain ⟨datum, hdatum, hmatches⟩ := hadv.sound.holds hl hcontent
  exact ⟨t, c, ht, hc, by rw [hdatum, hmatches.eq_ofValue hclosures]⟩

/-- A function that makes another one and then changes the variable they share, from `x` to a list with `x` in
it. What the inner function gives in the end is bound to `y`. -/
def changedVariable : List Form :=
  [.list [.symbol "var", .symbol "make", .list [.symbol "fn", .list [.symbol "x"],
      .list [.symbol "var", .symbol "get", .list [.symbol "fn", .list [], .symbol "x"]],
      .list [.symbol "set!", .symbol "x", .list [.symbol "quasiquote", .list [.symbol "a",
        .list [.symbol "unquote", .symbol "x"],
        .list [.symbol "unquote-splicing", .list [.symbol "list", .literal (.boolean true)]]]]],
      .symbol "get"]],
    .list [.symbol "var", .symbol "y", .list [.list [.symbol "make", .literal (.boolean false)]]]]

theorem evaluate_changedVariable : ∃ v σ ev' value,
    (Evaluator.fresh 128).evaluate changedVariable .empty = (.ok (v, σ), ev') ∧ ev'.get? σ "y" = some value ∧
      value.equals (.list [.symbol "a", .literal (.boolean false), .literal (.boolean true)]) = true ∧
      value.closures = [] := by
  generalize hp : (Evaluator.fresh 128).evaluate changedVariable .empty = p
  have hy : (p.1.toOption.any fun r => (p.2.get? r.2 "y").any fun value =>
      value.equals (.list [.symbol "a", .literal (.boolean false), .literal (.boolean true)]) &&
        value.closures.isEmpty) = true := by
    rw [← hp]
    decide +kernel
  obtain ⟨result, ev'⟩ := p
  obtain ⟨⟨v, σ⟩, hr, hy⟩ := (Option.any_eq_true _ _).1 hy
  obtain ⟨value, hget, hy⟩ := (Option.any_eq_true _ _).1 hy
  obtain ⟨hequals, hclosures⟩ := Bool.and_eq_true_iff.1 hy
  cases result with
  | error e => cases hr
  | ok r =>
    cases hr
    exact ⟨v, σ, ev', value, rfl, hget, hequals, List.isEmpty_iff.1 hclosures⟩

/-- A function changed a variable that another one had captured, and the host gives the changed value too. -/
theorem compile_preserves_meaning_changedVariable :
    ∃ (text : String) (d d' : Draft) (η : Scope) (M : Heap) (value : Value),
      compile .default .empty changedVariable = .ok text ∧ Draft.begin .default .empty changedVariable = .ok d ∧
      changedVariable.foldlM (Draft.push .default) d = .ok d' ∧ d'.program.Runs η M ∧
      value.equals (.list [.symbol "a", .literal (.boolean false), .literal (.boolean true)]) = true ∧
      ∃ t c, d'.names.target? "y" = some t ∧ η.find? t = some c ∧ M[c.index]? = some (.ofValue value) := by
  obtain ⟨text, hc⟩ := exists_eq_ok_of_isOk (x := compile .default .empty changedVariable) (by decide +kernel)
  obtain ⟨v, σ, ev', value, hev, hget, hequals, hclosures⟩ := evaluate_changedVariable
  obtain ⟨d, d', hbegin, hpush, -, -, hruns⟩ := compile_preserves_meaning hc (by decide +kernel)
  obtain ⟨η, M, hrun, -, hnames⟩ := hruns _ _ _ _ hev
  exact ⟨text, d, d', η, M, value, hc, hbegin, hpush, hrun, hequals, hnames "y" value hget hclosures⟩

end HostLisp
