import HostLisp.Proofs.Simulation
import HostLisp.Proofs.Subexpressions

/-!
# The code of template lists

The items of a template list are put together in two ways. Evaluation goes from item to item and appends what each
of them adds. Compilation collects items that stand side by side in arrays, leaves out splices that are written as
the empty array, and joins what it has with `concat`. Read as lists, its code gives what evaluation builds, whatever
the values of the items are.

* `Expr.render_eq_of_flat`: a text without parentheses does not depend on the indentation, so that what counts as
  the empty array does not either.
* `Piece`: an array of items side by side, or a splice. `Assembles`: **what the pieces of a template list are.**
* `exists_assembled`: the pieces that compilation makes are such.
* `Supplies`: an evaluation in which items have given values. `rebuildEach_of_supplies`: the list it builds.
* `templateList_denotes`: **the code of a template list denotes the list that evaluation builds.**
-/

namespace HostLisp

open Host

/-! ## The empty array -/

namespace Host.Expr

/-- An expression that is no function is written alike if its components are. -/
theorem render_congr {i j : String} {e : Expr} (hfn : ∀ params leading result, e ≠ .function params leading result)
    (h : ∀ c ∈ e.components, c.render j = c.render i) : e.render j = e.render i := by
  cases e with
  | literal | identifier | intern => rfl
  | function params leading result => exact absurd rfl (hfn params leading result)
  | array items | concat items =>
    have heach : items.map (render j) = items.map (render i) := List.map_congr_left h
    simp only [render, renderEach_eq, heach]
  | object fields =>
    have heach : renderFields j fields = renderFields i fields := by
      rw [renderFields_eq, renderFields_eq]
      exact List.map_congr_left fun f hf => by rw [h f.2 (List.mem_map_of_mem hf)]
    simp only [render, heach]
  | call callee args =>
    obtain ⟨hcallee, hargs⟩ := List.forall_mem_cons.1 h
    have heach : args.map (render j) = args.map (render i) := List.map_congr_left hargs
    simp only [render, renderEach_eq, hcallee, heach]
  | conditional | index | member | assign | declare =>
    simp only [components, List.forall_mem_cons] at h
    simp only [render, h]

/-- **A text without parentheses does not depend on the indentation.** -/
theorem render_eq_of_flat {i : String} (e : Expr) (h : '(' ∉ (e.render i).toList) (j : String) :
    e.render j = e.render i := by
  induction e using induction_on_components with
  | h e ih =>
    refine render_congr ?_ fun c hc => ih c hc fun hmem => ?_
    · rintro params leading result rfl
      have hopen : '(' ∈ "(function (".toList := by decide
      exact h (by simp only [render, functionText, String.toList_append, List.mem_append, hopen, true_or])
    · exact h (mem_render_of_mem_components (by decide) hc hmem)

/-- What is written as the empty array is so at every indentation. -/
theorem isEmptyArray_iff (indent : String) (e : Expr) : e.isEmptyArray = true ↔ e.render indent = "[]" := by
  have hflat {i : String} (h : e.render i = "[]") (j : String) : e.render j = "[]" := by
    rw [render_eq_of_flat e (by rw [h]; decide) j, h]
  rw [isEmptyArray, decide_eq_true_eq]
  exact ⟨fun h => hflat h indent, fun h => hflat h ""⟩

end Host.Expr

namespace Codegen

/-! ## Pieces -/

/-- A piece of the code of a template list: items side by side, which share an array, or a splice. -/
inductive Piece where
  | run (items : List Expr)
  | splice (e : Expr)

/-- The expression of a piece. -/
def Piece.code : Piece → Expr
  | .run items => .array items
  | .splice e => e

/-- The text of a piece: an array literal, or the code of a splice as it is. -/
def Piece.text (indent : String) : Piece → String
  | .run items => "[" ++ commas (items.map (Expr.render indent)) ++ "]"
  | .splice e => e.render indent

/-- The parts of a template list that are in a piece. -/
def Piece.parts : Piece → List Part
  | .run items => items.map .item
  | .splice e => [.splice e]

/-- Whether a piece is an array of items. -/
def Piece.isRun : Piece → Bool
  | .run _ => true
  | .splice _ => false

/-- Whether a part of a template list is left out: a splice that is written as the empty array. -/
def Part.isDropped (indent : String) : Part → Bool
  | .item _ => false
  | .splice e => e.render indent = "[]"

/-- The text of pieces in a row: the empty array for none, one as it is, and several with `concat`. -/
def concatText : List String → String
  | [] => "[]"
  | [text] => text
  | text :: texts => "(" ++ text ++ ")" ++ String.join (texts.map fun t => ".concat(" ++ t ++ ")")

/-- **The pieces of a template list.** Arrays have items, and no two of them are neighbours, so that each is as long
as can be. All parts of the list are in the pieces in their order, but for the splices that are left out. -/
structure Assembles (indent : String) (parts : List Part) (pieces : List Piece) : Prop where
  runs : ∀ items, Piece.run items ∈ pieces → items ≠ []
  apart : pieces.IsChain fun p q => ¬(p.isRun = true ∧ q.isRun = true)
  parts_eq : pieces.flatMap Piece.parts = parts.filter fun p => !p.isDropped indent

namespace Assembles

variable {indent : String} {parts : List Part} {pieces : List Piece}

theorem nil : Assembles indent [] [] :=
  ⟨by simp, .nil, rfl⟩

theorem splice {e : Expr} (h : Assembles indent parts pieces) (he : e.render indent ≠ "[]") :
    Assembles indent (.splice e :: parts) (.splice e :: pieces) where
  runs items hmem := h.runs items (by simpa using hmem)
  apart := List.isChain_cons.2 ⟨fun q _ hboth => Bool.noConfusion hboth.1, h.apart⟩
  parts_eq := by
    rw [List.filter_cons_of_pos (by simpa [Part.isDropped] using he), ← h.parts_eq]
    rfl

/-- An array goes in front of pieces that do not start with one. -/
theorem run {items : List Expr} (hne : items ≠ []) (h : Assembles indent parts pieces)
    (hhead : ∀ p ∈ pieces.head?, p.isRun = false) :
    Assembles indent (items.map .item ++ parts) (.run items :: pieces) where
  runs items' hmem := by
    rcases List.mem_cons.1 hmem with heq | hmem
    · cases heq
      exact hne
    · exact h.runs items' hmem
  apart := by
    refine List.isChain_cons.2 ⟨fun q hq hboth => ?_, h.apart⟩
    rw [hhead q hq] at hboth
    exact Bool.noConfusion hboth.2
  parts_eq := by
    have hkept : (items.map Part.item).filter (fun p => !p.isDropped indent) = items.map .item :=
      List.filter_eq_self.2 (by simp [Part.isDropped])
    rw [List.flatMap_cons, h.parts_eq, List.filter_append, hkept]
    rfl

theorem flush (items : List Expr) (h : Assembles indent parts pieces) (hhead : ∀ p ∈ pieces.head?, p.isRun = false) :
    ∃ pieces', Assembles indent (items.map .item ++ parts) pieces' ∧
      Codegen.flush items (pieces.map Piece.code) = pieces'.map Piece.code := by
  by_cases hne : items = []
  · subst hne
    exact ⟨pieces, h, rfl⟩
  · refine ⟨_, h.run hne hhead, ?_⟩
    rw [Codegen.flush, if_neg (by simpa using hne)]
    rfl

end Assembles

/-- **The pieces that compilation makes of parts**, with items that wait for an array in front of them. -/
theorem exists_assembled (indent : String) (items : List Expr) (parts : List Part) : ∃ pieces,
    Assembles indent (items.map .item ++ parts) pieces ∧ piecesFrom items parts = pieces.map Piece.code := by
  induction parts generalizing items with
  | nil => exact Assembles.nil.flush items (by simp)
  | cons part parts ih =>
    cases part with
    | item e =>
      obtain ⟨pieces, hpieces, heq⟩ := ih (items ++ [e])
      rw [List.map_append, List.append_assoc] at hpieces
      exact ⟨pieces, hpieces, heq⟩
    | splice e =>
      rw [piecesFrom]
      split
      · -- items on both sides of a splice that is left out share an array
        rename_i hempty
        obtain ⟨pieces, hpieces, heq⟩ := ih items
        refine ⟨pieces, ⟨hpieces.runs, hpieces.apart, ?_⟩, heq⟩
        have hdropped : (Part.splice e).isDropped indent = true := by
          simpa [Part.isDropped] using (Expr.isEmptyArray_iff indent e).1 hempty
        rw [hpieces.parts_eq, List.filter_append, List.filter_append, List.filter_cons, hdropped]
        rfl
      · rename_i hempty
        obtain ⟨pieces, hpieces, heq⟩ := ih []
        have hkept : e.render indent ≠ "[]" := fun h => hempty ((Expr.isEmptyArray_iff indent e).2 h)
        rw [heq]
        exact (hpieces.splice hkept).flush items (by simp [Piece.isRun])

/-! ## Texts -/

theorem Piece.render_code (indent : String) (p : Piece) : p.code.render indent = p.text indent := by
  cases p with
  | run items => simp only [Piece.code, Piece.text, Expr.render, Expr.renderEach_eq]
  | splice e => rfl

/-- Texts between the parentheses of calls of `concat`. -/
theorem intercalate_concat (text : String) (texts : List String) :
    ").concat(".intercalate (text :: texts) ++ ")" =
      text ++ ")" ++ String.join (texts.map fun t => ".concat(" ++ t ++ ")") := by
  induction texts generalizing text with
  | nil => simp
  | cons next texts ih =>
    have hsep : ").concat(" = ")" ++ ".concat(" := rfl
    rw [String.intercalate_cons_cons, String.append_assoc, ih, List.map_cons, String.join_cons, hsep]
    simp only [String.append_assoc]

/-- The text of a template list, by its pieces. -/
theorem render_joined {indent : String} {parts : List Part} {pieces : List Piece}
    (h : piecesFrom [] parts = pieces.map Piece.code) :
    (joined parts).render indent = concatText (pieces.map (Piece.text indent)) := by
  have htexts : (pieces.map Piece.code).map (Expr.render indent) = pieces.map (Piece.text indent) := by
    rw [List.map_map]
    exact List.map_congr_left fun p _ => p.render_code indent
  rw [joined, h, ← htexts]
  cases pieces.map Piece.code with
  | nil => rfl
  | cons e es =>
    cases es with
    | nil => rfl
    | cons e' es =>
      simp only [Expr.render, Expr.renderEach_eq, List.map_cons]
      rw [String.append_assoc, intercalate_concat]
      simp only [concatText, List.map_cons, String.append_assoc]

/-! ## Values -/

/-- Values for the codes of items, and lists for the codes of splices. The empty array is the empty list. -/
structure Assignment where
  item : String → Value
  splice : String → List Value
  empty : splice "[]" = []

namespace Assignment

variable (a : Assignment) (indent : String)

/-- What a part adds to a list. -/
def adds : Part → List Value
  | .item e => [a.item (e.render indent)]
  | .splice e => a.splice (e.render indent)

/-- A piece as a list: an array literal has the values of its items. -/
def read : Piece → List Value
  | .run items => items.map fun e => a.item (e.render indent)
  | .splice e => a.splice (e.render indent)

theorem read_eq (p : Piece) : a.read indent p = p.parts.flatMap (a.adds indent) := by
  cases p with
  | run items =>
    rw [read, Piece.parts, List.flatMap_map, List.map_eq_flatMap]
    rfl
  | splice e =>
    rw [read, Piece.parts, List.flatMap_singleton]
    rfl

theorem adds_of_isDropped {p : Part} (h : p.isDropped indent = true) : a.adds indent p = [] := by
  cases p with
  | item e => cases h
  | splice e =>
    have htext : e.render indent = "[]" := of_decide_eq_true h
    rw [adds, htext, a.empty]

theorem flatMap_filter_adds (parts : List Part) :
    (parts.filter fun p => !p.isDropped indent).flatMap (a.adds indent) = parts.flatMap (a.adds indent) := by
  induction parts with
  | nil => rfl
  | cons p parts ih =>
    rw [List.filter_cons, List.flatMap_cons, ← ih]
    cases hdropped : p.isDropped indent with
    | true =>
      rw [a.adds_of_isDropped indent hdropped]
      rfl
    | false => rfl

/-- **Pieces in a row add what the parts add in a row**: what is left out adds nothing. -/
theorem flatMap_read {parts : List Part} {pieces : List Piece} (h : Assembles indent parts pieces) :
    pieces.flatMap (a.read indent) = parts.flatMap (a.adds indent) := by
  calc pieces.flatMap (a.read indent)
      = pieces.flatMap (fun p => p.parts.flatMap (a.adds indent)) := List.flatMap_congr fun p _ => a.read_eq indent p
    _ = (pieces.flatMap Piece.parts).flatMap (a.adds indent) := List.flatMap_assoc.symm
    _ = parts.flatMap (a.adds indent) := by rw [h.parts_eq, flatMap_filter_adds]

end Assignment

/-- **An evaluation of the items of a template list in which they have the values that are assigned to their codes**,
one after the other, in the scopes and memories that the ones before leave behind. -/
inductive Supplies (below : Performer) (a : Assignment) (indent : String) :
    List Form → List Part → Scope → Memory → Scope → Memory → Prop
  | nil (σ : Scope) (m : Memory) : Supplies below a indent [] [] σ m σ m
  | item {f : Form} {fs : List Form} {e : Expr} {parts : List Part} {σ σ₁ σ₂ : Scope} {m m₁ m₂ : Memory}
      (hs : ∀ args, f.special? ≠ some (.unquoteSplicing, args))
      (h : (below (.template f) σ).outcome m = (.ok (a.item (e.render indent), σ₁), m₁))
      (hrest : Supplies below a indent fs parts σ₁ m₁ σ₂ m₂) :
      Supplies below a indent (f :: fs) (.item e :: parts) σ m σ₂ m₂
  | splice {f inner : Form} {args fs : List Form} {e : Expr} {parts : List Part} {σ σ₁ σ₂ : Scope}
      {m m₁ m₂ : Memory} (hs : f.special? = some (.unquoteSplicing, args))
      (hq : Special.quoted .unquoteSplicing f args = .ok inner)
      (h : (below (.form inner) σ).outcome m = (.ok (.list (a.splice (e.render indent)), σ₁), m₁))
      (hrest : Supplies below a indent fs parts σ₁ m₁ σ₂ m₂) :
      Supplies below a indent (f :: fs) (.splice e :: parts) σ m σ₂ m₂

variable {below : Performer} {a : Assignment} {indent : String}

/-- **Evaluation appends what the parts add.** -/
theorem rebuildEach_of_supplies {items : List Form} {parts : List Part} {σ σ' : Scope} {m m' : Memory}
    (h : Supplies below a indent items parts σ m σ' m') :
    (Evaluator.rebuildEach below items σ).outcome m = (.ok (parts.flatMap (a.adds indent), σ'), m') := by
  induction h with
  | nil σ m => rfl
  | @item f fs e parts σ σ₁ σ₂ m m₁ m₂ hs h _ ih =>
    have hitem : (Evaluator.rebuildItem below f σ).outcome m = (.ok (a.adds indent (.item e), σ₁), m₁) := by
      rw [Evaluator.rebuildItem_of_plain hs]
      exact Eval.outcome_bind_eq_ok.2 ⟨_, _, h, rfl⟩
    refine Eval.outcome_bind_eq_ok.2 ⟨_, _, hitem, ?_⟩
    exact Eval.outcome_bind_eq_ok.2 ⟨_, _, ih, rfl⟩
  | @splice f inner args fs e parts σ σ₁ σ₂ m m₁ m₂ hs hq h _ ih =>
    have hitem : (Evaluator.rebuildItem below f σ).outcome m = (.ok (a.adds indent (.splice e), σ₁), m₁) := by
      simp only [Evaluator.rebuildItem, hs, hq]
      refine Eval.outcome_bind_eq_ok.2 ⟨inner, m, rfl, ?_⟩
      exact Eval.outcome_bind_eq_ok.2 ⟨_, _, h, rfl⟩
    refine Eval.outcome_bind_eq_ok.2 ⟨_, _, hitem, ?_⟩
    exact Eval.outcome_bind_eq_ok.2 ⟨_, _, ih, rfl⟩

/-- **The code of a template list denotes the list that evaluation builds.** Each part of the list is compiled as it
stands, in order. The text is made of pieces: arrays of items that stand side by side, each as long as can be, and
splices; all parts are in them in order but for the splices that are written as the empty array. No piece gives the
empty array, one is written as it is, and several are joined with `concat`. Whatever values are assigned to the codes,
an evaluation in which the items have those values gives the list that the pieces give, read as lists and
appended. -/
theorem templateList_denotes {limit levels : Nat} {items : List Form} {e : Expr} {ρ ρ' : Renaming}
    (hlist : ∀ args, (Form.list items).special? ≠ some (.unquote, args))
    (h : compile limit levels (.template (.list items)) ρ = .ok (e, ρ')) (indent : String) :
    ∃ left parts pieces, levels = left + 1 ∧
      Threads (EmitsPart (.of (compile limit left))) items ρ parts ρ' ∧
      Assembles indent parts pieces ∧ e.render indent = concatText (pieces.map (Piece.text indent)) ∧
      ∀ (below : Performer) (a : Assignment) (σ σ' : Scope) (m m' : Memory),
        Supplies below a indent items parts σ m σ' m' →
          (Evaluator.rebuild below (.list items) σ).outcome m =
            (.ok (.list (pieces.flatMap (a.read indent)), σ'), m') := by
  cases levels with
  | zero => cases h
  | succ left =>
    have hemits := layer_eq_ok_iff.1 h
    cases hemits with
    | unquote hs hq hi => exact absurd hs (hlist _)
    | templateAtom hatom => exact absurd rfl (hatom items)
    | @templateList _ parts _ _ hs hp =>
      obtain ⟨pieces, hpieces, hcode⟩ := exists_assembled indent [] parts
      refine ⟨left, parts, pieces, rfl, hp, hpieces, render_joined hcode, fun below a σ σ' m m' hsupplies => ?_⟩
      rw [Evaluator.rebuild_of_plain hs, a.flatMap_read indent hpieces]
      exact Eval.outcome_bind_eq_ok.2 ⟨_, _, rebuildEach_of_supplies hsupplies, rfl⟩

/-- ``(#t ,@(list #f #f) #f ,@'() #t)`` -/
def splicedItems : List Form :=
  [.literal (.boolean true),
    .list [.symbol "unquote-splicing",
      .list [.symbol "list", .literal (.boolean false), .literal (.boolean false)]],
    .literal (.boolean false),
    .list [.symbol "unquote-splicing", .list [.symbol "quote", .list []]],
    .literal (.boolean true)]

/-- Its parts as they are compiled. -/
def splicedParts : List Part :=
  [.item (.literal (.boolean true)), .splice (.array [.literal (.boolean false), .literal (.boolean false)]),
    .item (.literal (.boolean false)), .splice (.array []), .item (.literal (.boolean true))]

/-- The values of their codes. -/
def splicedValues : Assignment where
  item text := .literal (.boolean (text = "true"))
  splice text := if text = "[]" then [] else [.literal (.boolean false), .literal (.boolean false)]
  empty := rfl

/-- A splice that is an array keeps apart from its neighbours, and the items around the empty one share an array. -/
theorem templateList_denotes_splicedItems :
    compile 3 3 (.template (.list splicedItems)) .empty = .ok (joined splicedParts, .empty) ∧
      (joined splicedParts).render "" = "([true]).concat([false, false]).concat([false, true])" ∧
      ∃ pieces, Assembles "" splicedParts pieces ∧
        (joined splicedParts).render "" = concatText (pieces.map (Piece.text "")) ∧
        Supplies (Evaluator.perform 3 2) splicedValues "" splicedItems splicedParts .empty .fresh .empty .fresh ∧
        (Evaluator.rebuild (Evaluator.perform 3 2) (.list splicedItems) .empty).outcome .fresh =
          (.ok (.list (pieces.flatMap (splicedValues.read "")), .empty), .fresh) := by
  have hparts : compileParts (compile 3 2) splicedItems .empty = .ok (splicedParts, .empty) := rfl
  have hcode : compile 3 3 (.template (.list splicedItems)) .empty = .ok (joined splicedParts, .empty) := rfl
  have hplain (l : Literal) : ∀ args, (Form.literal l).special? ≠ some (.unquoteSplicing, args) := by
    intro args hspecial
    cases hspecial
  have hsupplies :
      Supplies (Evaluator.perform 3 2) splicedValues "" splicedItems splicedParts .empty .fresh .empty .fresh :=
    .item (hplain _) rfl (.splice rfl rfl rfl (.item (hplain _) rfl (.splice rfl rfl rfl
      (.item (hplain _) rfl (.nil _ _)))))
  obtain ⟨left, parts, pieces, hleft, hthreads, hpieces, htext, hdenotes⟩ :=
    templateList_denotes (fun args => by simp [splicedItems, Form.special?]) hcode ""
  obtain rfl : 2 = left := Nat.succ.inj hleft
  obtain ⟨rfl, -⟩ : splicedParts = parts ∧ _ :=
    Prod.mk.inj (Except.ok.inj (hparts.symm.trans (compileParts_eq_ok_iff.2 hthreads)))
  exact ⟨hcode, by decide +kernel, pieces, hpieces, htext, hsupplies, hdenotes _ _ _ _ _ _ hsupplies⟩

end Codegen

end HostLisp
