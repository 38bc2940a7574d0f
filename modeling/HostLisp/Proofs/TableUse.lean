import HostLisp.Proofs.FreshTargets
import HostLisp.Proofs.QuotedSymbols

/-!
# The symbol table and the code behind it

The name of the symbol table is reserved before the first form in which the scan finds a quoted symbol. From then
on no code binds it again, so whatever looks up a symbol stands behind the table, and nothing hides the table from
it.

* `Draft.Covers`: what all drafts keep to. `Draft.Covers.push`: a statement more.
* `symbols_stand_behind_table`: **the scan misses nothing, and the table stands in front of what looks up a
  symbol**, also in programs with imports.
* `table_stands_for_symbol`: **a table stands in front for a reason**, which is a symbol that is looked up or a
  function or an object that is written like a quotation. The second does happen
  (`exists_table_without_symbol`).
-/

namespace HostLisp.Compiler

open Host Codegen

variable {config : Config} {d d' : Draft} {f : Form} {forms : List Form} {ρ : Renaming}

theorem needed_eq_quotes (f : Form) : SymbolTable.needed [f] = (Job.form f).quotes := by
  rw [SymbolTable.needed, SymbolTable.scanAny, SymbolTable.scanAny, Bool.or_false]
  rfl

/-! ## Drafts -/

/-- Code that looks up a symbol stands behind the table, and the name of the table is taken. -/
structure Draft.Covers (d : Draft) : Prop where
  behind : ∀ e ∈ d.program.statements, e.interned ≠ [] → d.program.table = true
  reserved : d.program.table = true → d.names.isTaken tableName = true

theorem Draft.addTable_spec (h : d.addTable = .ok d') : d'.program = { d.program with table := true } ∧
    d'.names.isTaken tableName = true := by
  unfold Draft.addTable Renaming.reserve? at h
  split_ifs at h
  cases h
  exact ⟨rfl, by simp [Renaming.isTaken]⟩

theorem Draft.Covers.addTable (h : d.addTable = .ok d') : d'.Covers := by
  obtain ⟨hprogram, htaken⟩ := Draft.addTable_spec h
  exact ⟨fun _ _ _ => by rw [hprogram], fun _ => htaken⟩

/-- A draft is covered before any statement. -/
theorem Draft.Covers.begin (h : Draft.begin config ρ forms = .ok d) : d.Covers := by
  obtain ⟨-, hblank⟩ := Draft.begin_eq_ok_iff.1 h
  unfold Draft.blank at hblank
  split at hblank
  · exact .addTable hblank
  · cases hblank
    exact ⟨List.forall_mem_nil _, fun htable => absurd htable (by simp)⟩

/-- **One statement more.** It stands behind the table if it looks up a symbol, and it does not bind the name of
a table that is there. -/
theorem Draft.Covers.push (hd : d.Covers) (h : d.push config f = .ok d') : d'.Covers ∧
    ∃ e, d'.program.statements = d.program.statements ++ [e] ∧
      (d'.program.table = true → tableName ∉ e.binders) := by
  obtain ⟨_, hnesting, -⟩ := bind_eq_ok_iff.1 h
  rw [Draft.push_eq_bind hnesting] at h
  obtain ⟨ready, hready, h⟩ := bind_eq_ok_iff.1 h
  obtain ⟨⟨e, ρ'⟩, hc, h⟩ := bind_eq_ok_iff.1 h
  cases h
  -- the draft behind which the statement is compiled
  have hcovers : ready.Covers ∧ ready.program.statements = d.program.statements ∧
      (ready.program.table = true ∨ SymbolTable.needed [f] = false) := by
    split_ifs at hready with hlate
    · obtain ⟨hprogram, -⟩ := Draft.addTable_spec hready
      exact ⟨.addTable hready, by rw [hprogram], .inl (by rw [hprogram])⟩
    · cases hready
      refine ⟨hd, rfl, ?_⟩
      rw [Bool.not_eq_true, Bool.and_eq_false_iff, Bool.not_eq_false'] at hlate
      exact hlate
  obtain ⟨hready, hstatements, htable⟩ := hcovers
  have hputs := compile_puts hc
  refine ⟨⟨?_, fun h => (hputs.isTaken_iff _).2 (.inl (hready.reserved h))⟩, e, by rw [hstatements], ?_⟩
  · simp only [List.forall_mem_append, List.forall_mem_singleton]
    refine ⟨hready.behind, fun hinterned => htable.resolve_right fun hquiet => hinterned ?_⟩
    rw [needed_eq_quotes] at hquiet
    exact compile_interned_eq_nil hquiet hc
  · intro h hbinds
    have hfree := compile_bindsFresh hc tableName hbinds
    rw [hready.reserved h] at hfree
    cases hfree

/-- **All statements of a program.** -/
theorem Draft.Covers.pushes (hd : d.Covers) (h : forms.foldlM (Draft.push config) d = .ok d') : d'.Covers := by
  induction forms generalizing d with
  | nil =>
    cases h
    exact hd
  | cons f fs ih =>
    rw [List.foldlM_cons] at h
    obtain ⟨d₁, hpush, h⟩ := bind_eq_ok_iff.1 h
    exact ih (hd.push hpush).1 h

/-! ## Programs -/

/-- A run of the compiler over forms, from one draft to another. Its text starts with the table if any statement
looks up a symbol, and no statement that is compiled behind the table binds the name of the table. -/
structure TableStands (config : Config) (start : Draft) (forms : List Form) (last : Draft) : Prop where
  pushed : forms.foldlM (Draft.push config) start = .ok last
  inFront : ∀ e ∈ last.program.statements, e.interned ≠ [] →
    ∃ rest, last.program.render config.indent = tableDefinition ++ rest
  visible : ∀ before f after d d', forms = before ++ f :: after →
    before.foldlM (Draft.push config) start = .ok d → d.push config f = .ok d' → d'.program.table = true →
      ∃ e, d'.program.statements = d.program.statements ++ [e] ∧ tableName ∉ e.binders

theorem exists_render_eq_append {p : Program} (h : p.table = true) (indent : String) :
    ∃ rest, p.render indent = tableDefinition ++ rest := by
  have hrender : p.render indent =
      "\n".intercalate (tableDefinition :: p.statements.map fun e => e.render indent ++ ";") := by
    rw [Program.render, h]
    rfl
  rw [hrender]
  cases p.statements.map fun e => e.render indent ++ ";" with
  | nil => exact ⟨"", by rw [String.intercalate_singleton, String.append_empty]⟩
  | cons text texts =>
    rw [String.intercalate_cons_cons, String.append_assoc]
    exact ⟨_, rfl⟩

theorem Draft.Covers.tableStands {last : Draft} (hd : d.Covers)
    (h : forms.foldlM (Draft.push config) d = .ok last) : TableStands config d forms last where
  pushed := h
  inFront e he hinterned := exists_render_eq_append ((hd.pushes h).behind e he hinterned) _
  visible before f after d₁ d₂ _ hbefore hpush htable := by
    obtain ⟨-, e, he, hbinds⟩ := (hd.pushes hbefore).push hpush
    exact ⟨e, he, hbinds htable⟩

theorem succeeds_of_foldlM_perform {library : Library} {events : List Event}
    (h : events.foldlM (Event.perform config library) d = .ok d') : ∀ event ∈ events, event.Succeeds library := by
  induction events generalizing d with
  | nil => exact List.forall_mem_nil _
  | cons event events ih =>
    rw [List.foldlM_cons] at h
    obtain ⟨d₁, hevent, h⟩ := bind_eq_ok_iff.1 h
    refine List.forall_mem_cons.2 ⟨?_, ih h⟩
    cases event with
    | request name =>
      rw [Event.perform] at hevent
      cases hresolve : library.resolve name with
      | error e => rw [hresolve] at hevent; cases hevent
      | ok forms => exact ⟨forms, hresolve⟩
    | emit form => trivial
    | refuse form e => cases hevent

/-- **The symbol table stands in front of all code that looks up a symbol.** The scan misses nothing: a form in
which it finds nothing compiles to code without symbols, and on the way to wherever compiling it ends no data with
a symbol in them are quoted. So in a program with or without imports, the text starts with the table if any
statement looks up a symbol, and no statement that is compiled behind the table binds its name. -/
theorem symbols_stand_behind_table :
    (∀ f, SymbolTable.needed [f] = false → ∀ limit levels ρ,
      (∀ e ρ', Codegen.compile limit levels (.form f) ρ = .ok (e, ρ') → e.interned = []) ∧
      ∀ n job s, OnTheWay limit levels (.form f) ρ n job s → ∀ datum ∈ job.data, datum.symbols = []) ∧
    (∀ config ρ forms text, compile config ρ forms = .ok text →
      ∃ start last, Draft.begin config ρ forms = .ok start ∧ text = last.program.render config.indent ∧
        TableStands config start forms last) ∧
    ∀ config library ρ forms text, (compileWithImports config library ρ forms).1 = .ok text →
      ∃ start last, Draft.begin config ρ forms = .ok start ∧ text = last.program.render config.indent ∧
        TableStands config start (flat library forms) last := by
  refine ⟨?_, ?_, ?_⟩
  · intro f hf limit levels ρ
    rw [needed_eq_quotes] at hf
    refine ⟨fun e ρ' h => compile_interned_eq_nil hf h, fun n job s hway => ?_⟩
    have hquiet := OnTheWay.invariant (P := fun job => job.quotes = false)
      (fun _ h => Job.quotes_inner_eq_false h) hway hf
    exact Job.symbols_data_eq_nil hquiet
  · intro config ρ forms text h
    obtain ⟨start, last, hbegin, hpush, htext⟩ := compile_eq_ok_iff.1 h
    exact ⟨start, last, hbegin, htext.symm, (Draft.Covers.begin hbegin).tableStands hpush⟩
  · intro config library ρ forms text h
    obtain ⟨start, last, hbegin, hperform, htext⟩ := compileWithImports_eq_ok_iff.1 h
    rw [foldlM_perform (succeeds_of_foldlM_perform hperform)] at hperform
    exact ⟨start, last, hbegin, htext.symm, (Draft.Covers.begin hbegin).tableStands hperform⟩

/-- ``(fn (x) `(#t ,x))`` -/
def pairFunction : Form :=
  .list [.symbol "fn", .list [.symbol "x"], .list [.symbol "quasiquote",
    .list [.literal (.boolean true), .list [.symbol "unquote", .symbol "x"]]]]

/-- `(var symbol #t)` and `(var s 'x)` -/
def shadowedTable : List Form :=
  [.list [.symbol "var", .symbol "symbol", .literal (.boolean true)],
    .list [.symbol "var", .symbol "s", .list [.symbol "quote", .symbol "x"]]]

/-- A function with a template looks up nothing, and a variable with the name of the table does not hide it. -/
theorem symbols_stand_behind_table_shadowedTable :
    (SymbolTable.needed [pairFunction] = false ∧
      ∃ e ρ, Codegen.compile 8 8 (.form pairFunction) .empty = .ok (e, ρ) ∧ e.interned = []) ∧
    ∃ text start last rest, compile .default .empty shadowedTable = .ok text ∧
      Draft.begin .default .empty shadowedTable = .ok start ∧
      TableStands .default start shadowedTable last ∧ text = tableDefinition ++ rest := by
  obtain ⟨hquiet, hprogram, -⟩ := symbols_stand_behind_table
  constructor
  · have hneeded : SymbolTable.needed [pairFunction] = false := by decide +kernel
    obtain ⟨⟨e, ρ⟩, hc⟩ : ∃ r, Codegen.compile 8 8 (.form pairFunction) .empty = .ok r :=
      exists_eq_ok_of_isOk (by decide +kernel)
    exact ⟨hneeded, e, ρ, hc, (hquiet _ hneeded 8 8 .empty).1 e ρ hc⟩
  · obtain ⟨text, htext⟩ : ∃ text, compile .default .empty shadowedTable = .ok text :=
      exists_eq_ok_of_isOk (by decide +kernel)
    obtain ⟨start, last, hbegin, hrender, hstands⟩ := hprogram _ _ _ _ htext
    -- the second statement looks up a symbol
    have hlast : compileProgram .default .empty shadowedTable = .ok last.program :=
      bind_eq_ok_iff.2 ⟨start, hbegin, bind_eq_ok_iff.2 ⟨last, hstands.pushed, rfl⟩⟩
    have htest : (compileProgram .default .empty shadowedTable).toOption.any (fun p =>
        p.statements.any fun e => e.interned ≠ []) = true := by decide +kernel
    rw [hlast] at htest
    obtain ⟨e, he, hinterned⟩ := List.any_eq_true.1 htest
    obtain ⟨rest, hrest⟩ := hstands.inFront e he (of_decide_eq_true hinterned)
    exact ⟨text, start, last, rest, htext, hbegin, hstands, hrender.trans hrest⟩

/-- The statements of a program, form by form, behind the table if any of the forms wants it. -/
theorem emitsEach_of_compileProgram {p : Program} (h : compileProgram config ρ forms = .ok p) :
    ∃ es, p = ⟨wantsTable config forms, es⟩ ∧ ∃ s s',
      Codegen.EmitsEach (.of (Codegen.compile config.maxDepth config.maxDepth)) forms s es s' := by
  have hc : compile config ρ forms = .ok (p.render config.indent) := by rw [compile, h]; rfl
  obtain ⟨_, _, es, -, -, hcompiled, -, hprogram, hes⟩ := emitsEach_of_compile hc
  rw [h] at hcompiled
  cases hcompiled
  exact ⟨es, hprogram, _, _, hes⟩

/-- **The table stands in front for a reason.** If it does without being asked for, a statement looks up a symbol,
or the program contains a function whose parameter list or an object one of whose entries is written like a
quotation. -/
theorem table_stands_for_symbol {p : Program} (hauto : config.policy = .auto)
    (h : compileProgram config ρ forms = .ok p) (htable : p.table = true) :
    (∃ e ∈ p.statements, e.interned ≠ []) ∨
      ∃ f ∈ forms, ∃ g s, (Job.form f).Contains (.form g) ∧ g.Reads s ∧ s.looksQuoted = true := by
  obtain ⟨es, hp, _, _, hes⟩ := emitsEach_of_compileProgram h
  rw [hp, wantsTable, hauto] at htable
  -- the form in which the scan has found something, and its statement
  obtain ⟨f, hf, hneeded⟩ := SymbolTable.needed_eq_true_iff.1 (by simpa using htable)
  obtain ⟨e, he, s, s', hc⟩ := exists_mem_of_forall₂ hes.forall₂ hf
  rw [needed_eq_quotes] at hneeded
  rcases compile_quotes_cases hc hneeded with hinterned | ⟨g, special, hcontains, hg, hlooks⟩
  · exact .inl ⟨e, by rwa [hp], hinterned⟩
  · exact .inr ⟨f, hf, g, special, hcontains, hg, hlooks⟩

theorem table_stands_for_symbol_shadowedTable : ∃ p, compileProgram .default .empty shadowedTable = .ok p ∧
    p.table = true ∧ ((∃ e ∈ p.statements, e.interned ≠ []) ∨
      ∃ f ∈ shadowedTable, ∃ g s, (Job.form f).Contains (.form g) ∧ g.Reads s ∧ s.looksQuoted = true) := by
  have h : (compileProgram .default .empty shadowedTable).toOption.any (fun p => p.table) = true := by
    decide +kernel
  obtain ⟨p, hp, htable⟩ := exists_compileProgram h
  exact ⟨p, hp, htable, table_stands_for_symbol rfl hp htable⟩

/-- `(var x #t)` and `(obj (quote x))` -/
def quotedField : List Form :=
  [.list [.symbol "var", .symbol "x", .literal (.boolean true)],
    .list [.symbol "obj", .list [.symbol "quote", .symbol "x"]]]

/-- **A table can stand in front for nothing**: a field under the key `quote` is taken for a quotation. -/
theorem exists_table_without_symbol : ∃ p, compileProgram .default .empty quotedField = .ok p ∧
    p.render "\t" = tableDefinition ++ "\nvar x = true;\n(\x7bquote: x\x7d);" ∧
    ∀ e ∈ p.statements, e.interned = [] := by
  have h : (compileProgram .default .empty quotedField).toOption.any (fun p =>
      p.render "\t" = tableDefinition ++ "\nvar x = true;\n(\x7bquote: x\x7d);" &&
        p.statements.all fun e => e.interned = []) = true := by
    decide +kernel
  obtain ⟨p, hp, htest⟩ := exists_compileProgram h
  simp only [Bool.and_eq_true, decide_eq_true_eq, List.all_eq_true] at htest
  exact ⟨p, hp, htest⟩

end HostLisp.Compiler
