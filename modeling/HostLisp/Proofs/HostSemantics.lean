import HostLisp.Proofs.DeclaredTargets
import HostLisp.Proofs.Numerals
import HostLisp.Scope

/-!
# What host code does

A big-step semantics of host code. Variables are cells of a heap, and a scope says which cell an identifier
stands for. A declaration holds for the whole function it stands in: on entry to a function there are new cells
for its parameters and for everything that its body declares, and a function that is made there keeps them.

Objects and their properties are left out, and an assignment is to a variable. Arrays are never changed, so an
array is what it holds. The table is looked up like any variable, and gives one symbol for each name.

* `Evaluates`, `Executes`: **the rules**, for expressions and for statements.
* `Evaluates.unique`, `Program.Runs.unique`: code has one result at most.
* `evaluates_joined`: a template list evaluates to the items of its parts in order. A splice is left out where
  its text is that of the empty array, and such code is the empty array (`eq_array_nil_of_isEmptyArray`).
-/

namespace HostLisp

/-- The literal that the host reads in the text of a literal. Both zeros are written alike. -/
def Literal.inHost : Literal → Literal
  | .number n => .number (if n.equals .zero then .zero else n)
  | l => l

theorem Number.print_ne_empty (n : Number) : n.print ≠ "" := by
  intro h
  cases n with
  | nan => exact absurd h (by decide)
  | infinite negative => cases negative <;> exact absurd h (by decide)
  | finite negative rank =>
    have hfinite : (Number.finite negative rank).isFinite = true := rfl
    obtain ⟨m, hread, -⟩ := Number.exists_read?_print hfinite
    rw [h] at hread
    cases hread

namespace Host

/-- What host code evaluates to. -/
inductive Datum where
  | undefined
  | literal (l : Literal)
  | symbol (name : String)
  | array (items : List Datum)
  /-- a function, with the variables around it -/
  | function (params : Parameters) (leading : List Expr) (result : Expr) (scope : Scope)
  /-- the symbol table -/
  | table

namespace Datum

/-- Whether a datum passes a test. -/
def isTruthy : Datum → Bool
  | .undefined => false
  | .literal l => l.isTruthy
  | _ => true

/-- What a datum adds to an array that it is joined to. -/
def spread : Datum → List Datum
  | .array items => items
  | d => [d]

end Datum

/-- The cells of all variables. -/
abbrev Heap := List Datum

/-- What the parameters of a function hold on entry. Parameters without an argument hold nothing. -/
def arguments : Parameters → List Datum → List (String × Datum)
  | .fixed targets, ds => targets.zip (ds ++ List.replicate targets.length .undefined)
  | .rest target, ds => [(target, .array ds)]

/-- Variables that hold something from the start, and further declared ones that do not. -/
def frame (bound : List (String × Datum)) (declared : List String) : List (String × Datum) :=
  bound ++ (declared.filter fun t => t ∉ bound.map Prod.fst).map fun t => (t, .undefined)

/-- New cells for variables. -/
def allocate : List (String × Datum) → Scope → Heap → Scope × Heap
  | [], η, M => (η, M)
  | (t, d) :: rest, η, M => allocate rest (η.bind t ⟨M.length⟩) (M ++ [d])

mutual

/-- **What an expression evaluates to**, with the heap before it and behind it. -/
inductive Evaluates : Scope → Expr → Heap → Datum → Heap → Prop
  | literal (η : Scope) (l : Literal) (M : Heap) : Evaluates η (.literal l) M (.literal l.inHost) M
  | identifier {η : Scope} {t : String} {c : CellId} {M : Heap} {d : Datum} (hc : η.find? t = some c)
      (hd : M[c.index]? = some d) : Evaluates η (.identifier t) M d M
  | intern {η : Scope} {c : CellId} {M : Heap} (name : String) (hc : η.find? tableName = some c)
      (hd : M[c.index]? = some .table) : Evaluates η (.intern name) M (.symbol name) M
  | array {η : Scope} {items : List Expr} {ds : List Datum} {M M₁ : Heap}
      (h : EvaluatesEach η items M ds M₁) : Evaluates η (.array items) M (.array ds) M₁
  | concat {η : Scope} {pieces : List Expr} {items ds : List Datum} {M M₁ : Heap}
      (h : EvaluatesEach η pieces M (.array items :: ds) M₁) :
      Evaluates η (.concat pieces) M (.array (items ++ ds.flatMap Datum.spread)) M₁
  | conditional {η : Scope} {test consequent alternative : Expr} {d d' : Datum} {M M₁ M₂ : Heap}
      (ht : Evaluates η test M d M₁)
      (hb : Evaluates η (if d.isTruthy then consequent else alternative) M₁ d' M₂) :
      Evaluates η (.conditional test consequent alternative) M d' M₂
  | function (η : Scope) (params : Parameters) (leading : List Expr) (result : Expr) (M : Heap) :
      Evaluates η (.function params leading result) M (.function params leading result η) M
  | call {η scope inner : Scope} {callee result : Expr} {args leading : List Expr} {params : Parameters}
      {ds : List Datum} {d : Datum} {M M₁ M₂ M₃ M₄ M₅ : Heap}
      (hc : Evaluates η callee M (.function params leading result scope) M₁)
      (ha : EvaluatesEach η args M₁ ds M₂)
      (he : allocate (frame (arguments params ds) (Expr.declaredEach leading ++ result.declared)) scope M₂ =
        (inner, M₃))
      (hs : Executes inner leading M₃ M₄) (hr : Evaluates inner result M₄ d M₅) :
      Evaluates η (.call callee args) M d M₅
  | assign {η : Scope} {t : String} {c : CellId} {e : Expr} {d : Datum} {M M₁ : Heap}
      (hv : Evaluates η e M d M₁) (hc : η.find? t = some c) (hlt : c.index < M₁.length) :
      Evaluates η (.assign (.identifier t) e) M d (M₁.set c.index d)

/-- Expressions evaluated from left to right. -/
inductive EvaluatesEach : Scope → List Expr → Heap → List Datum → Heap → Prop
  | nil (η : Scope) (M : Heap) : EvaluatesEach η [] M [] M
  | cons {η : Scope} {e : Expr} {es : List Expr} {d : Datum} {ds : List Datum} {M M₁ M₂ : Heap}
      (h : Evaluates η e M d M₁) (hs : EvaluatesEach η es M₁ ds M₂) :
      EvaluatesEach η (e :: es) M (d :: ds) M₂

/-- **What statements do to the heap.** -/
inductive Executes : Scope → List Expr → Heap → Heap → Prop
  | nil (η : Scope) (M : Heap) : Executes η [] M M
  | expression {η : Scope} {e : Expr} {es : List Expr} {d : Datum} {M M₁ M₂ : Heap}
      (h : Evaluates η e M d M₁) (hs : Executes η es M₁ M₂) : Executes η (e :: es) M M₂
  | declare {η : Scope} {t : String} {c : CellId} {e : Expr} {es : List Expr} {d : Datum}
      {M M₁ M₂ : Heap} (h : Evaluates η e M d M₁) (hc : η.find? t = some c) (hlt : c.index < M₁.length)
      (hs : Executes η es (M₁.set c.index d) M₂) : Executes η (.declare t e :: es) M M₂

end

/-- **A run of a program**: its variables, and the heap in the end. -/
def Program.Runs (p : Program) (η : Scope) (M : Heap) : Prop :=
  ∃ M₀, allocate (frame (if p.table then [(tableName, .table)] else []) (Expr.declaredEach p.statements))
      .empty [] = (η, M₀) ∧ Executes η p.statements M₀ M

/-! ## Code has one result at most -/

/-- **An expression has one result at most.** -/
theorem Evaluates.unique {η : Scope} {e : Expr} {M M₁ M₂ : Heap} {d d' : Datum} (h : Evaluates η e M d M₁)
    (h' : Evaluates η e M d' M₂) : d = d' ∧ M₁ = M₂ := by
  refine @Evaluates.rec
    (fun η e M d M₁ _ => ∀ d' M₂, Evaluates η e M d' M₂ → d = d' ∧ M₁ = M₂)
    (fun η es M ds M₁ _ => ∀ ds' M₂, EvaluatesEach η es M ds' M₂ → ds = ds' ∧ M₁ = M₂)
    (fun η es M M₁ _ => ∀ M₂, Executes η es M M₂ → M₁ = M₂)
    ?literal ?identifier ?intern ?array ?concat ?conditional ?function ?call ?assign ?nil ?cons ?done
    ?expression ?declare η e M d M₁ h d' M₂ h'
  case literal =>
    intro η l M d' M₂ h'
    cases h'
    exact ⟨rfl, rfl⟩
  case identifier =>
    intro η t c M d hc hd d' M₂ h'
    cases h' with
    | identifier hc' hd' =>
      rw [hc] at hc'; cases hc'
      rw [hd] at hd'; cases hd'
      exact ⟨rfl, rfl⟩
  case intern =>
    intro η c M name hc hd d' M₂ h'
    cases h'
    exact ⟨rfl, rfl⟩
  case array =>
    intro η items ds M M₁ _ ih d' M₂ h'
    cases h' with
    | array h' =>
      obtain ⟨rfl, rfl⟩ := ih _ _ h'
      exact ⟨rfl, rfl⟩
  case concat =>
    intro η pieces items ds M M₁ _ ih d' M₂ h'
    cases h' with
    | concat h' =>
      obtain ⟨hds, rfl⟩ := ih _ _ h'
      cases hds
      exact ⟨rfl, rfl⟩
  case conditional =>
    intro η test consequent alternative d₁ d M M₁ M₂ _ _ iht ihb d' M₂' h'
    cases h' with
    | conditional ht' hb' =>
      obtain ⟨rfl, rfl⟩ := iht _ _ ht'
      exact ihb _ _ hb'
  case function =>
    intro η params leading result M d' M₂ h'
    cases h'
    exact ⟨rfl, rfl⟩
  case call =>
    intro η scope inner callee result args leading params ds d M M₁ M₂ M₃ M₄ M₅ _ _ he _ _ ihc iha ihs ihr
      d' M₅' h'
    cases h' with
    | call hc' ha' he' hs' hr' =>
      obtain ⟨hf, rfl⟩ := ihc _ _ hc'
      cases hf
      obtain ⟨rfl, rfl⟩ := iha _ _ ha'
      rw [he] at he'; cases he'
      cases ihs _ hs'
      exact ihr _ _ hr'
  case assign =>
    intro η t c e d M M₁ _ hc hlt ih d' M₂ h'
    cases h' with
    | assign hv' hc' hlt' =>
      obtain ⟨rfl, rfl⟩ := ih _ _ hv'
      rw [hc] at hc'; cases hc'
      exact ⟨rfl, rfl⟩
  case nil =>
    intro η M ds' M₂ h'
    cases h'
    exact ⟨rfl, rfl⟩
  case cons =>
    intro η e es d ds M M₁ M₂ _ _ ih ihs ds' M₂' h'
    cases h' with
    | cons h' hs' =>
      obtain ⟨rfl, rfl⟩ := ih _ _ h'
      obtain ⟨rfl, rfl⟩ := ihs _ _ hs'
      exact ⟨rfl, rfl⟩
  case done =>
    intro η M M₂ h'
    cases h'
    rfl
  case expression =>
    intro η e es d M M₁ M₂ h _ ih ihs M₂' h'
    cases h' with
    | expression h' hs' =>
      obtain ⟨-, rfl⟩ := ih _ _ h'
      exact ihs _ hs'
    -- a declaration is no expression
    | declare h' hc' hlt' hs' => cases h
  case declare =>
    intro η t c e es d M M₁ M₂ _ hc hlt _ ih ihs M₂' h'
    cases h' with
    | expression h' hs' => cases h'
    | declare h' hc' hlt' hs' =>
      obtain ⟨rfl, rfl⟩ := ih _ _ h'
      rw [hc] at hc'; cases hc'
      exact ihs _ hs'

theorem Executes.unique {η : Scope} {es : List Expr} {M M₁ M₂ : Heap} (h : Executes η es M M₁)
    (h' : Executes η es M M₂) : M₁ = M₂ := by
  induction es generalizing M with
  | nil =>
    cases h
    cases h'
    rfl
  | cons e es ih =>
    cases h with
    | expression h hs =>
      cases h' with
      | expression h' hs' =>
        obtain ⟨-, rfl⟩ := h.unique h'
        exact ih hs hs'
      | declare h' hc' hlt' hs' => cases h
    | declare h hc hlt hs =>
      cases h' with
      | expression h' hs' => cases h'
      | declare h' hc' hlt' hs' =>
        obtain ⟨rfl, rfl⟩ := h.unique h'
        rw [hc] at hc'; cases hc'
        exact ih hs hs'

/-- **A program has one run at most.** -/
theorem Program.Runs.unique {p : Program} {η η' : Scope} {M M' : Heap} (h : p.Runs η M) (h' : p.Runs η' M') :
    η' = η ∧ M' = M := by
  obtain ⟨M₀, h₀, h⟩ := h
  obtain ⟨M₀', h₀', h'⟩ := h'
  rw [h₀] at h₀'
  cases h₀'
  exact ⟨rfl, h'.unique h⟩

theorem Executes.append {η : Scope} {es fs : List Expr} {M M₁ M₂ : Heap} (h : Executes η es M M₁)
    (h' : Executes η fs M₁ M₂) : Executes η (es ++ fs) M M₂ := by
  induction es generalizing M with
  | nil =>
    cases h
    exact h'
  | cons e es ih =>
    cases h with
    | expression h hs => exact .expression h (ih hs)
    | declare h hc hlt hs => exact .declare h hc hlt (ih hs)

/-! ## Code that is written as the empty array -/

/-- All variables have usable identifiers. -/
def SafeScope (η : Scope) : Prop := ∀ t c, η.find? t = some c → isSafe t = true

theorem literalText_ne_empty (l : Literal) : literalText l ≠ "" := by
  cases l with
  | number n => exact Number.print_ne_empty n
  | string text =>
    intro h
    have hlist := congrArg String.toList h
    simp [literalText, Text.quote] at hlist
  | boolean b => cases b <;> decide

/-- A character of a text that another text does not have. -/
theorem ne_of_mem_toList {text other : String} (c : Char) (h : c ∈ text.toList) (hn : c ∉ other.toList) :
    text ≠ other := by
  rintro rfl
  exact hn h

variable {η : Scope} {M M₁ M₂ : Heap}

theorem render_ne_empty {e : Expr} {d : Datum} (hη : SafeScope η) (h : Evaluates η e M d M₁) :
    e.render "" ≠ "" := by
  cases h with
  | literal η l M => exact literalText_ne_empty l
  | identifier hc hd =>
    rintro rfl
    exact absurd (hη _ _ hc) (by decide)
  | intern name hc hd => exact ne_of_mem_toList '(' (by simp [Expr.render]) (by decide)
  | array h => exact ne_of_mem_toList '[' (by simp [Expr.render]) (by decide)
  | concat h => exact ne_of_mem_toList '(' (by simp [Expr.render]) (by decide)
  | conditional ht hb => exact ne_of_mem_toList '(' (by simp [Expr.render]) (by decide)
  | function η params leading result M =>
    exact ne_of_mem_toList '(' (by simp [Expr.render, functionText]) (by decide)
  | call hc ha he hs hr => exact ne_of_mem_toList '(' (by simp [Expr.render]) (by decide)
  | assign hv hc hlt => exact ne_of_mem_toList '=' (by simp [Expr.render]) (by decide)

/-- **Code that is written as the empty array, and gives an array, is the empty array.** -/
theorem eq_array_nil_of_isEmptyArray {e : Expr} {items : List Datum} (hη : SafeScope η)
    (h : Evaluates η e M (.array items) M₁) (he : e.isEmptyArray = true) : items = [] ∧ M₁ = M := by
  have htext : e.render "" = "[]" := of_decide_eq_true he
  cases h with
  | identifier hc hd =>
    rw [Expr.render] at htext
    rw [htext] at hc
    exact absurd (hη _ _ hc) (by decide)
  | array h =>
    cases h with
    | nil => exact ⟨rfl, rfl⟩
    | @cons _ e es d ds _ M' _ h hs =>
      cases es with
      | nil =>
        -- the brackets would have the text of the item between them
        rw [Expr.render, Expr.renderEach, Expr.renderEach, commas, String.intercalate_singleton] at htext
        have hlist := congrArg String.toList htext
        simp only [String.toList_append] at hlist
        have hitem : (e.render "").toList = [] := by simpa using hlist
        exact absurd (String.toList_eq_nil_iff.1 hitem) (render_ne_empty hη h)
      | cons e' es =>
        refine absurd htext (ne_of_mem_toList ',' ?_ (by decide))
        simp [Expr.render, Expr.renderEach, commas, String.intercalate_cons_cons]
  | concat h => exact absurd htext (ne_of_mem_toList '(' (by simp [Expr.render]) (by decide))
  | conditional ht hb => exact absurd htext (ne_of_mem_toList '(' (by simp [Expr.render]) (by decide))
  | call hc ha he hs hr => exact absurd htext (ne_of_mem_toList '(' (by simp [Expr.render]) (by decide))
  | assign hv hc hlt => exact absurd htext (ne_of_mem_toList '=' (by simp [Expr.render]) (by decide))

/-! ## Template lists -/

open Codegen

/-- What the parts of a template list add to it, from left to right. -/
inductive EvaluatesParts : Scope → List Part → Heap → List Datum → Heap → Prop
  | nil (η : Scope) (M : Heap) : EvaluatesParts η [] M [] M
  | item {η : Scope} {e : Expr} {parts : List Part} {d : Datum} {ds : List Datum} {M M₁ M₂ : Heap}
      (h : Evaluates η e M d M₁) (hs : EvaluatesParts η parts M₁ ds M₂) :
      EvaluatesParts η (.item e :: parts) M (d :: ds) M₂
  | splice {η : Scope} {e : Expr} {parts : List Part} {items ds : List Datum} {M M₁ M₂ : Heap}
      (h : Evaluates η e M (.array items) M₁) (hs : EvaluatesParts η parts M₁ ds M₂) :
      EvaluatesParts η (.splice e :: parts) M (items ++ ds) M₂

theorem EvaluatesEach.append {es fs : List Expr} {ds ds' : List Datum} (h : EvaluatesEach η es M ds M₁)
    (h' : EvaluatesEach η fs M₁ ds' M₂) : EvaluatesEach η (es ++ fs) M (ds ++ ds') M₂ := by
  induction es generalizing M ds with
  | nil =>
    cases h
    exact h'
  | cons e es ih =>
    cases h with
    | cons h hs => exact .cons h (ih hs)

/-- Code that gives arrays, and the items of all of them. -/
def Collects (η : Scope) (es : List Expr) (M : Heap) (ds : List Datum) (M₁ : Heap) : Prop :=
  ∃ rows : List (List Datum), EvaluatesEach η es M (rows.map .array) M₁ ∧ rows.flatten = ds

theorem Collects.cons {e : Expr} {es : List Expr} {items ds : List Datum}
    (h : Evaluates η e M (.array items) M₁) (hs : Collects η es M₁ ds M₂) :
    Collects η (e :: es) M (items ++ ds) M₂ := by
  obtain ⟨rows, hrows, rfl⟩ := hs
  exact ⟨items :: rows, .cons h hrows, rfl⟩

theorem collects_flush {run pieces : List Expr} {ds ds' : List Datum} (hrun : EvaluatesEach η run M ds M₁)
    (h : Collects η pieces M₁ ds' M₂) : Collects η (flush run pieces) M (ds ++ ds') M₂ := by
  cases run with
  | nil =>
    cases hrun
    exact h
  | cons e es => exact .cons (.array hrun) h

theorem collects_piecesFrom {run : List Expr} {parts : List Part} {ds ds' : List Datum} (hη : SafeScope η)
    (hrun : EvaluatesEach η run M ds M₁) (h : EvaluatesParts η parts M₁ ds' M₂) :
    Collects η (piecesFrom run parts) M (ds ++ ds') M₂ := by
  induction h generalizing run M ds with
  | nil M₁ => exact collects_flush hrun ⟨[], .nil _ _, rfl⟩
  | item h _ ih =>
    rw [List.append_cons]
    exact ih (hrun.append (.cons h (.nil _ _)))
  | splice h _ ih =>
    rw [piecesFrom]
    split
    -- a splice that is left out adds nothing and changes nothing
    · rename_i he
      obtain ⟨rfl, rfl⟩ := eq_array_nil_of_isEmptyArray hη h he
      exact ih hrun
    · exact collects_flush hrun (.cons h (ih (.nil _ _)))

/-- **A template list evaluates to the items of its parts in order.** -/
theorem evaluates_joined {parts : List Part} {ds : List Datum} (hη : SafeScope η)
    (h : EvaluatesParts η parts M ds M₁) : Evaluates η (joined parts) M (.array ds) M₁ := by
  obtain ⟨rows, hrows, hds⟩ := collects_piecesFrom hη (.nil η M) h
  rw [List.nil_append] at hds
  subst hds
  unfold joined
  split
  · rename_i hpieces
    rw [hpieces] at hrows
    cases rows with
    | nil => cases hrows; exact .array (.nil η M)
    | cons items rows => cases hrows
  · rename_i piece hpieces
    rw [hpieces] at hrows
    match rows, hrows with
    | [items], .cons h (.nil _ _) =>
      rw [List.flatten_cons, List.flatten_nil, List.append_nil]
      exact h
  · rename_i hnil _
    cases rows with
    | nil =>
      cases hpieces : piecesFrom [] parts with
      | nil => exact absurd hpieces hnil
      | cons e es => rw [hpieces] at hrows; cases hrows
    | cons items rows =>
      have hspread : (rows.map Datum.array).flatMap Datum.spread = rows.flatten := by
        rw [List.flatMap_map]
        simp [Datum.spread, List.flatMap_id']
      rw [List.flatten_cons, ← hspread]
      exact .concat hrows

end Host

end HostLisp
