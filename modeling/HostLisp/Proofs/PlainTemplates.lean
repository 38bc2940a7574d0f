import HostLisp.Proofs.CompilationDepth
import HostLisp.Proofs.QuotedSymbols
import HostLisp.Proofs.Simulation

/-!
# Templates without unquotations

A template in which nothing is unquoted is data. Evaluation rebuilds it item by item, and compilation puts it together
from runs of items; quotation takes it over whole. Both ways come to the same, whatever keywords stand in the data,
except that a template spends a level on each list in it.

* `Form.isUnquoteFree`: no list in a form is headed by an unquotation.
* `Evaluator.perform_template`, `Codegen.compile_template`: such a template as a value and as code, unless it goes too
  deep.
* `SymbolTable.scan_template_eq`: it needs the symbol table as the data do.
* `quasiquote_eq_quote`: **quasiquotation without unquotations is quotation**, in evaluation and in compilation.
-/

namespace HostLisp

open Host

/-! ## Forms without unquotations -/

namespace Form

mutual

/-- Whether no list in a form is headed by `unquote` or `unquote-splicing`, at any depth. -/
def isUnquoteFree : Form → Bool
  | .list items =>
    !(Form.list items).isSpecial .unquote && !(Form.list items).isSpecial .unquoteSplicing &&
      isUnquoteFreeEach items
  | _ => true

/-- Whether no form of a list has an unquotation in it. -/
def isUnquoteFreeEach : List Form → Bool
  | [] => true
  | f :: fs => isUnquoteFree f && isUnquoteFreeEach fs

end

theorem isUnquoteFreeEach_iff {fs : List Form} : isUnquoteFreeEach fs = true ↔ ∀ f ∈ fs, f.isUnquoteFree = true := by
  induction fs with
  | nil => simp [isUnquoteFreeEach]
  | cons f fs ih => rw [isUnquoteFreeEach, Bool.and_eq_true, ih, List.forall_mem_cons]

/-- A form without unquotations is neither unquoted nor spliced. -/
theorem plainTemplate_of_isUnquoteFree {t : Form} (h : t.isUnquoteFree = true) : t.PlainTemplate := by
  intro args
  cases t with
  | literal | symbol => exact ⟨nofun, nofun⟩
  | list items =>
    simp only [isUnquoteFree, Bool.and_eq_true, Bool.not_eq_true'] at h
    obtain ⟨⟨hunquote, hsplice⟩, -⟩ := h
    constructor
    · intro hs
      rw [isSpecial_eq_true hs] at hunquote
      cases hunquote
    · intro hs
      rw [isSpecial_eq_true hs] at hsplice
      cases hsplice

theorem isUnquoteFree_of_mem {items : List Form} (h : (Form.list items).isUnquoteFree = true) :
    ∀ f ∈ items, f.isUnquoteFree = true := by
  rw [isUnquoteFree, Bool.and_eq_true] at h
  exact isUnquoteFreeEach_iff.1 h.2

theorem depth_wrap (k : Keyword) (t : Form) : (wrap k t).depth = t.depth + 1 := by
  simp [wrap, depth, depthEach]

/-- Quotation and quasiquotation nest equally deep. -/
theorem checkNesting_wrap (k k' : Keyword) (t : Form) (bound : Nat) :
    (wrap k t).checkNesting bound = (wrap k' t).checkNesting bound := by
  rw [checkNesting_eq, checkNesting_eq, depth_wrap, depth_wrap]

theorem reads_quote (t : Form) : (wrap .quote t).Reads (.quote t) := ⟨.quote, [t], rfl, rfl⟩

theorem reads_quasiquote (t : Form) : (wrap .quasiquote t).Reads (.quasiquote t) := ⟨.quasiquote, [t], rfl, rfl⟩

end Form

/-! ## Evaluation -/

/-- The error of a template that nests at least as deep as there are levels for it. -/
def TooDeepFor (limit levels depth : Nat) (e : Error) : Prop :=
  levels ≤ depth ∧ e.cause = .limitExceeded (.depth limit)

/-- A computation gives a result and leaves memory alone, unless there are too few levels: then it fails at once. -/
def Eval.Gives {α : Type} (x : Eval α) (limit levels depth : Nat) (a : α) : Prop :=
  (∃ e, TooDeepFor limit levels depth e ∧ x = throw e) ∨ x = pure a

namespace Eval.Gives

variable {α β : Type} {limit levels levels' depth depth' : Nat}

theorem bind {x : Eval α} {a : α} {f : α → Eval β} {b : β} (hx : x.Gives limit levels depth a)
    (hf : (f a).Gives limit levels depth b) : (x >>= f).Gives limit levels depth b := by
  rcases hx with ⟨e, he, rfl⟩ | rfl
  · exact Or.inl ⟨e, he, rfl⟩
  · exact hf

theorem mono {x : Eval α} {a : α} (hx : x.Gives limit levels depth a) (h : levels ≤ depth → levels' ≤ depth') :
    x.Gives limit levels' depth' a := by
  rcases hx with ⟨e, he, rfl⟩ | rfl
  · exact Or.inl ⟨e, ⟨h he.1, he.2⟩, rfl⟩
  · exact Or.inr rfl

end Eval.Gives

namespace Evaluator

/-- Items that are rebuilt as data one by one make up the data. -/
theorem rebuildEach_plain {below : Performer} {limit levels : Nat} {items : List Form}
    (hplain : ∀ t ∈ items, t.PlainTemplate)
    (hbelow : ∀ t ∈ items, ∀ σ, (below (.template t) σ).Gives limit levels t.depth (.ofForm t, σ)) (σ : Scope) :
    (rebuildEach below items σ).Gives limit levels (Form.depthEach items) (Value.ofForms items, σ) := by
  induction items with
  | nil => exact Or.inr rfl
  | cons t items ih =>
    obtain ⟨ht, hplain⟩ := List.forall_mem_cons.1 hplain
    obtain ⟨hfirst, hbelow⟩ := List.forall_mem_cons.1 hbelow
    have hmax : Form.depthEach (t :: items) = max t.depth (Form.depthEach items) := Form.depthEach.eq_2 t items
    have hitem : (rebuildItem below t σ).Gives limit levels (Form.depthEach (t :: items)) ([.ofForm t], σ) := by
      rw [rebuildItem_of_plain fun args => (ht args).2]
      exact ((hfirst σ).mono (by omega)).bind (Or.inr rfl)
    have hrest := (ih hplain hbelow).mono (show levels ≤ _ → levels ≤ Form.depthEach (t :: items) by omega)
    exact hitem.bind (hrest.bind (Or.inr rfl))

/-- **A template without unquotations is rebuilt as data**, unless it goes too deep. -/
theorem perform_template (limit levels : Nat) {t : Form} (ht : t.isUnquoteFree = true) (σ : Scope) :
    (perform limit levels (.template t) σ).Gives limit levels t.depth (.ofForm t, σ) := by
  induction levels generalizing t σ with
  | zero => exact Or.inl ⟨_, ⟨Nat.zero_le _, rfl⟩, rfl⟩
  | succ levels ih =>
    cases t with
    | literal | symbol => exact Or.inr rfl
    | list items =>
      have hitems := Form.isUnquoteFree_of_mem ht
      have heach := rebuildEach_plain (fun f hf => Form.plainTemplate_of_isUnquoteFree (hitems f hf))
        (fun f hf σ => ih (hitems f hf) σ) σ
      rw [perform, layer, rebuild_of_plain (Form.plainTemplate_of_isUnquoteFree ht), Form.depth]
      exact (heach.mono Nat.succ_le_succ).bind (Or.inr rfl)

/-- **Quasiquotation is evaluated as quotation**, with any number of levels left that is enough for the template. -/
theorem perform_quasiquote (limit levels : Nat) {t : Form} (ht : t.isUnquoteFree = true) (σ : Scope) :
    (∃ e, TooDeepFor limit levels (t.depth + 1) e ∧
        perform limit levels (.form (.wrap .quasiquote t)) σ = throw e) ∨
      perform limit levels (.form (.wrap .quasiquote t)) σ = perform limit levels (.form (.wrap .quote t)) σ := by
  cases levels with
  | zero => exact Or.inl ⟨_, ⟨Nat.zero_le _, rfl⟩, rfl⟩
  | succ levels =>
    rw [perform, layer, layer, evalForm_of_reads (Form.reads_quasiquote t), evalForm_of_reads (Form.reads_quote t)]
    exact (perform_template limit levels ht σ).mono Nat.succ_le_succ

/-- **A program that quasiquotes is evaluated as one that quotes.** -/
theorem evaluate_quasiquote (ev : Evaluator) {t : Form} (ht : t.isUnquoteFree = true) (σ : Scope) :
    (∃ e, TooDeepFor ev.maxDepth ev.maxDepth (t.depth + 1) e ∧
        ev.evaluate [.wrap .quasiquote t] σ = (.error e, ev)) ∨
      ev.evaluate [.wrap .quasiquote t] σ = ev.evaluate [.wrap .quote t] σ := by
  have hsingle : ∀ f : Form, runAll ev.maxDepth none [f] σ =
      Eval.ofExcept (f.checkNesting Form.nestingLimit) >>= fun _ =>
        perform ev.maxDepth ev.maxDepth (.form f) σ >>= fun p => pure (some p.1, p.2) := fun _ => rfl
  unfold evaluate
  rw [hsingle, hsingle, Form.checkNesting_wrap .quasiquote .quote]
  rcases perform_quasiquote ev.maxDepth ev.maxDepth ht σ with ⟨e, he, h⟩ | h
  · rw [h]
    -- a form that nests too deep is refused before it runs, under either keyword
    cases (Form.wrap .quote t).checkNesting Form.nestingLimit with
    | error e' => exact Or.inr rfl
    | ok => exact Or.inl ⟨e, he, rfl⟩
  · rw [h]
    exact Or.inr rfl

end Evaluator

/-! ## Compilation -/

namespace Codegen

theorem piecesFrom_items (run es : List Expr) : piecesFrom run (es.map .item) = flush (run ++ es) [] := by
  induction es generalizing run with
  | nil => rw [List.map_nil, piecesFrom, List.append_nil]
  | cons e es ih => rw [List.map_cons, piecesFrom, ih, List.append_assoc, List.singleton_append]

/-- Items without a splice among them are one array. -/
theorem joined_items (es : List Expr) : joined (es.map .item) = .array es := by
  unfold joined
  rw [piecesFrom_items, List.nil_append, flush]
  cases es with
  | nil => rfl
  | cons e es => rfl

section

open Comparison

variable {C : Comparison} {below : Emitter}

/-- Items that compile to quoted data one by one are the parts of the data. -/
theorem compileParts_plain {items : List Form} (hplain : ∀ t ∈ items, t.PlainTemplate)
    (hbelow : ∀ t ∈ items, ∀ ρ, C.Meets (below (.template t) ρ) (.ok (quoted t, ρ))) (ρ : Renaming) :
    C.Meets (compileParts below items ρ) (.ok ((quotedEach items).map .item, ρ)) := by
  induction items with
  | nil => exact .ok _
  | cons t items ih =>
    obtain ⟨ht, hplain⟩ := List.forall_mem_cons.1 hplain
    obtain ⟨hfirst, hbelow⟩ := List.forall_mem_cons.1 hbelow
    have hitem : C.Meets (compilePart below t ρ) (.ok (.item (quoted t), ρ)) := by
      unfold compilePart
      split
      · exact absurd ‹_› (ht _).2
      · exact (hfirst ρ).bind_ok (.ok _)
    exact hitem.bind_ok ((ih hplain hbelow).bind_ok (.ok _))

/-- **A template without unquotations compiles to quoted data**, unless it goes too deep. -/
theorem compile_template (limit levels : Nat) {t : Form} (ht : t.isUnquoteFree = true) (ρ : Renaming) :
    (upToDepth limit).Meets (compile limit levels (.template t) ρ) (.ok (quoted t, ρ)) := by
  induction levels generalizing t ρ with
  | zero => exact .quits rfl
  | succ levels ih =>
    cases t with
    | literal | symbol => exact .ok _
    | list items =>
      have hitems := Form.isUnquoteFree_of_mem ht
      have hplain := Form.plainTemplate_of_isUnquoteFree ht
      have hparts := compileParts_plain (fun f hf => Form.plainTemplate_of_isUnquoteFree (hitems f hf))
        (fun f hf ρ => ih (hitems f hf) ρ) ρ
      rw [compile, layer, compileTemplate, quoted, ← joined_items]
      split
      · exact absurd ‹_› (hplain _).1
      · exact absurd ‹_› (hplain _).2
      · exact hparts.bind_ok (.ok _)

/-- **Quasiquotation compiles as quotation**, unless it goes too deep. -/
theorem compile_quasiquote (limit levels : Nat) {t : Form} (ht : t.isUnquoteFree = true) (ρ : Renaming) :
    (upToDepth limit).Meets (compile limit levels (.form (.wrap .quasiquote t)) ρ)
      (compile limit levels (.form (.wrap .quote t)) ρ) := by
  cases levels with
  | zero => exact .quits rfl
  | succ levels =>
    rw [compile, layer, layer, compileForm_of_reads (Form.reads_quasiquote t),
      compileForm_of_reads (Form.reads_quote t)]
    exact compile_template limit levels ht ρ

end

end Codegen

/-! ## The symbol table -/

namespace SymbolTable

mutual

/-- **A template without unquotations is scanned as data.** -/
theorem scan_template_eq : ∀ {t : Form}, t.isUnquoteFree = true → scan .template t = scan .quoted t
  | .literal _, _ => rfl
  | .symbol _, _ => rfl
  | .list [], _ => rfl
  | .list (.symbol name :: args), h => by
    have hplain := Form.plainTemplate_of_isUnquoteFree h args
    simp only [Form.special?] at hplain
    rw [scan_template_headed]
    split
    · rename_i hk
      simp [hk] at hplain
    · rename_i hk
      simp [hk] at hplain
    · simp [scan]
  | .list (.literal l :: fs), h => by
    rw [scan_unheaded (by simp), scan_unheaded (by simp)]
    exact scanAny_template_eq (Form.isUnquoteFreeEach_iff.2 (Form.isUnquoteFree_of_mem h))
  | .list (.list items :: fs), h => by
    rw [scan_unheaded (by simp), scan_unheaded (by simp)]
    exact scanAny_template_eq (Form.isUnquoteFreeEach_iff.2 (Form.isUnquoteFree_of_mem h))

theorem scanAny_template_eq : ∀ {fs : List Form}, Form.isUnquoteFreeEach fs = true →
    scanAny .template fs = scanAny .quoted fs
  | [], _ => rfl
  | f :: fs, h => by
    rw [Form.isUnquoteFreeEach, Bool.and_eq_true] at h
    rw [scanAny, scanAny, scan_template_eq h.1, scanAny_template_eq h.2]

end

theorem needed_quasiquote {t : Form} (ht : t.isUnquoteFree = true) :
    needed [.wrap .quasiquote t] = needed [.wrap .quote t] := by
  have hscan : ∀ k : Keyword, needed [.wrap k t] = scan .code (.wrap k t) := fun k => by simp [needed, scanAny]
  rw [hscan, hscan]
  exact scan_template_eq ht

end SymbolTable

/-! ## Programs -/

namespace Compiler

open Codegen

/-- **A program that quasiquotes compiles as one that quotes**, with the table in front if that one has it. -/
theorem compile_quasiquote (config : Config) (ρ : Renaming) {t : Form} (ht : t.isUnquoteFree = true) :
    (Comparison.upToDepth config.maxDepth).Meets (compile config ρ [.wrap .quasiquote t])
      (compile config ρ [.wrap .quote t]) := by
  have hnesting := Form.checkNesting_wrap .quasiquote .quote t Form.nestingLimit
  have hneeded := SymbolTable.needed_quasiquote ht
  have hbegin : Draft.begin config ρ [.wrap .quasiquote t] = Draft.begin config ρ [.wrap .quote t] := by
    simp only [Draft.begin, List.forM, hnesting, hneeded]
  have hpush (d : Draft) : (Comparison.upToDepth config.maxDepth).Meets (d.push config (.wrap .quasiquote t))
      (d.push config (.wrap .quote t)) := by
    unfold Draft.push
    rw [hnesting, hneeded]
    refine .bind (checkNesting_meets _ _) fun _ _ => ?_
    dsimp only
    split_ifs
    · exact .bind (addTable_meets d) fun d' _ => .bind (Codegen.compile_quasiquote _ _ ht _) fun p _ => .ok _
    · exact .bind (.ok d) fun d' _ => .bind (Codegen.compile_quasiquote _ _ ht _) fun p _ => .ok _
  refine Comparison.Meets.map ?_ _
  unfold compileProgram
  rw [hbegin]
  refine .bind (begin_meets ρ _) fun d _ => ?_
  rw [List.foldlM_cons, List.foldlM_cons]
  exact .bind (.bind (hpush d) fun d' _ => .ok d') fun d' _ => .ok _

end Compiler

namespace Codegen

/-- Quasiquotation goes too deep only if the template nests too deep for its levels. -/
theorem tooDeepFor_of_compile {limit levels : Nat} {t : Form} {ρ : Renaming} {e : Error}
    (he : compile limit levels (.form (.wrap .quasiquote t)) ρ = .error e)
    (hcause : e.cause = .limitExceeded (.depth limit)) : TooDeepFor limit levels (t.depth + 1) e := by
  refine ⟨?_, hcause⟩
  by_contra hlt
  have hsite : (Job.form (.wrap .quasiquote t)).site.depth < levels := by
    rw [Job.site, Form.depth_wrap]
    omega
  rcases (compile_withinDepth hsite ρ).of_error he with hshallow | hquits
  · exact hshallow ⟨limit, hcause⟩
  · exact hquits

end Codegen

namespace Compiler

open Codegen

theorem tooDeepFor_of_compile {config : Config} {t : Form} {ρ : Renaming} {e : Error}
    (he : compile config ρ [.wrap .quasiquote t] = .error e)
    (hcause : e.cause = .limitExceeded (.depth config.maxDepth)) :
    TooDeepFor config.maxDepth config.maxDepth (t.depth + 1) e := by
  refine ⟨?_, hcause⟩
  by_contra hlt
  have hform : ∀ f ∈ [Form.wrap .quasiquote t], ∀ s, Comparison.withinDepth.Meets
      (Codegen.compile config.maxDepth config.maxDepth (.form f) s)
      (Codegen.compile config.maxDepth config.maxDepth (.form f) s) := by
    rw [List.forall_mem_singleton]
    refine fun s => compile_withinDepth ?_ s
    rw [Job.site, Form.depth_wrap]
    omega
  rcases (compile_meets config ρ hform).of_error he with hshallow | hquits
  · exact hshallow ⟨config.maxDepth, hcause⟩
  · exact hquits

end Compiler

/-- **Quasiquotation without unquotations is quotation.** Wherever a template has no unquotation in it, to quasiquote it
is to quote it, unless there are too few levels for its lists: evaluation gives the same value, scope and memory, and
compilation the same code and renaming. So do programs made of the one form. -/
theorem quasiquote_eq_quote {t : Form} (ht : t.isUnquoteFree = true) :
    (∀ (limit levels : Nat) (σ : Scope),
      (∃ e, TooDeepFor limit levels (t.depth + 1) e ∧
          Evaluator.perform limit levels (.form (.wrap .quasiquote t)) σ = throw e) ∨
        Evaluator.perform limit levels (.form (.wrap .quasiquote t)) σ =
          Evaluator.perform limit levels (.form (.wrap .quote t)) σ) ∧
    (∀ (ev : Evaluator) (σ : Scope),
      (∃ e, TooDeepFor ev.maxDepth ev.maxDepth (t.depth + 1) e ∧
          ev.evaluate [.wrap .quasiquote t] σ = (.error e, ev)) ∨
        ev.evaluate [.wrap .quasiquote t] σ = ev.evaluate [.wrap .quote t] σ) ∧
    (∀ (limit levels : Nat) (ρ : Renaming),
      (∃ e, TooDeepFor limit levels (t.depth + 1) e ∧
          Codegen.compile limit levels (.form (.wrap .quasiquote t)) ρ = .error e) ∨
        Codegen.compile limit levels (.form (.wrap .quasiquote t)) ρ =
          Codegen.compile limit levels (.form (.wrap .quote t)) ρ) ∧
    ∀ (config : Compiler.Config) (ρ : Renaming),
      (∃ e, TooDeepFor config.maxDepth config.maxDepth (t.depth + 1) e ∧
          Compiler.compile config ρ [.wrap .quasiquote t] = .error e) ∨
        Compiler.compile config ρ [.wrap .quasiquote t] = Compiler.compile config ρ [.wrap .quote t] := by
  refine ⟨fun limit levels σ => Evaluator.perform_quasiquote limit levels ht σ,
    fun ev σ => ev.evaluate_quasiquote ht σ, fun limit levels ρ => ?_, fun config ρ => ?_⟩
  · rcases (Codegen.compile_quasiquote limit levels ht ρ).quits_or_eq with ⟨e, he, hcause⟩ | heq
    · exact Or.inl ⟨e, Codegen.tooDeepFor_of_compile he hcause, he⟩
    · exact Or.inr heq
  · rcases (Compiler.compile_quasiquote config ρ ht).quits_or_eq with ⟨e, he, hcause⟩ | heq
    · exact Or.inl ⟨e, Compiler.tooDeepFor_of_compile he hcause, he⟩
    · exact Or.inr heq

/-- `(if 'b () (quasiquote (var)))` -/
def keywordData : Form :=
  .list [.symbol "if", .wrap .quote (.symbol "b"), .list [], .wrap .quasiquote (.list [.symbol "var"])]

/-- Data full of keywords, also of broken special forms: four levels are too few for the template, and with five it is
as good as quoted. -/
theorem quasiquote_eq_quote_keywordData : keywordData.isUnquoteFree = true ∧
    ((Evaluator.fresh 4).evaluate [.wrap .quasiquote keywordData] .empty).1.isOk = false ∧
    (Evaluator.fresh 5).evaluate [.wrap .quasiquote keywordData] .empty =
      (Evaluator.fresh 5).evaluate [.wrap .quote keywordData] .empty ∧
    Compiler.compile (Compiler.Config.default.withDepth 5) .empty [.wrap .quasiquote keywordData] =
      Compiler.compile (Compiler.Config.default.withDepth 5) .empty [.wrap .quote keywordData] := by
  have hfree : keywordData.isUnquoteFree = true := by decide +kernel
  have hdepth : keywordData.depth = 3 := by decide +kernel
  obtain ⟨-, hevaluate, -, hcompile⟩ := quasiquote_eq_quote hfree
  refine ⟨hfree, by decide +kernel, ?_, ?_⟩
  · rcases hevaluate (Evaluator.fresh 5) .empty with ⟨e, ⟨hle, -⟩, -⟩ | heq
    · rw [hdepth] at hle
      exact absurd hle (by decide)
    · exact heq
  · rcases hcompile (Compiler.Config.default.withDepth 5) .empty with ⟨e, ⟨hle, -⟩, -⟩ | heq
    · rw [hdepth] at hle
      exact absurd hle (by decide)
    · exact heq

end HostLisp
