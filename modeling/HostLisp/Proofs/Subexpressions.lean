import HostLisp.Proofs.DeclaredTargets

/-!
# What is inside an expression

All expressions inside an expression, at any depth and inside functions too. Facts about them go from the
components of an expression to the expression (`induction_on_components`).

* `Expr.subexpressions`: the expressions inside an expression.
* `Expr.interned`, `Expr.binders`: the symbols that an expression takes from the symbol table, and the targets
  that it binds.
* `mem_render_of_mem_subexpressions`: the text of an expression has what the texts inside it have.
* `collect_joined`: **a template list holds what its parts hold.** A splice is left out where its text is that of
  the empty array, and such a text has nothing to collect in it.
-/

namespace HostLisp

namespace Host.Expr

/-! ## Components -/

/-- The expressions that an expression is made of, from left to right. -/
def components : Expr → List Expr
  | .literal _ | .identifier _ | .intern _ => []
  | .array items => items
  | .concat pieces => pieces
  | .object fields => fields.map Prod.snd
  | .conditional test consequent alternative => [test, consequent, alternative]
  | .function _ leading result => leading ++ [result]
  | .call callee args => callee :: args
  | .index target key => [target, key]
  | .member target _ => [target]
  | .assign place value => [place, value]
  | .declare _ init => [init]

theorem sizeOf_lt_of_mem_components {e c : Expr} (hc : c ∈ e.components) : sizeOf c < sizeOf e := by
  cases e with
  | literal | identifier | intern => cases hc
  | array items | concat items =>
    have : sizeOf c < sizeOf items := List.sizeOf_lt_of_mem hc
    simp only [array.sizeOf_spec, concat.sizeOf_spec]
    omega
  | object fields =>
    obtain ⟨⟨key, e⟩, he, rfl⟩ := List.mem_map.1 hc
    have := List.sizeOf_lt_of_mem he
    simp only [object.sizeOf_spec, Prod.mk.sizeOf_spec] at this ⊢
    omega
  | function params leading result =>
    simp only [function.sizeOf_spec]
    rcases List.mem_append.1 hc with hc | hc
    · have := List.sizeOf_lt_of_mem hc
      omega
    · rw [List.mem_singleton.1 hc]
      omega
  | call callee args =>
    simp only [call.sizeOf_spec]
    rcases List.mem_cons.1 hc with rfl | hc
    · omega
    · have := List.sizeOf_lt_of_mem hc
      omega
  | conditional | index | member | assign | declare =>
    simp only [components, List.mem_cons, List.not_mem_nil, or_false] at hc
    simp only [conditional.sizeOf_spec, index.sizeOf_spec, member.sizeOf_spec, assign.sizeOf_spec,
      declare.sizeOf_spec]
    grind

/-- **Induction on expressions**, from the components of an expression to the expression. -/
theorem induction_on_components {P : Expr → Prop} (h : ∀ e, (∀ c ∈ e.components, P c) → P e) (e : Expr) : P e :=
  h e fun c hc =>
    have := sizeOf_lt_of_mem_components hc
    induction_on_components h c
termination_by sizeOf e

/-! ## Subexpressions -/

mutual

/-- The expressions inside an expression, itself in front. -/
def subexpressions : Expr → List Expr
  | .literal l => [.literal l]
  | .identifier target => [.identifier target]
  | .intern name => [.intern name]
  | .array items => .array items :: subexpressionsEach items
  | .concat pieces => .concat pieces :: subexpressionsEach pieces
  | .object fields => .object fields :: subexpressionsFields fields
  | .conditional test consequent alternative =>
    .conditional test consequent alternative ::
      (subexpressions test ++ (subexpressions consequent ++ subexpressions alternative))
  | .function params leading result =>
    .function params leading result :: (subexpressionsEach leading ++ subexpressions result)
  | .call callee args => .call callee args :: (subexpressions callee ++ subexpressionsEach args)
  | .index target key => .index target key :: (subexpressions target ++ subexpressions key)
  | .member target key => .member target key :: subexpressions target
  | .assign place value => .assign place value :: (subexpressions place ++ subexpressions value)
  | .declare target init => .declare target init :: subexpressions init

/-- The expressions inside some expressions. -/
def subexpressionsEach : List Expr → List Expr
  | [] => []
  | e :: es => subexpressions e ++ subexpressionsEach es

/-- The expressions inside the fields of an object. -/
def subexpressionsFields : List (String × Expr) → List Expr
  | [] => []
  | (_, e) :: fields => subexpressions e ++ subexpressionsFields fields

end

theorem subexpressionsEach_eq (es : List Expr) : subexpressionsEach es = es.flatMap subexpressions := by
  induction es with
  | nil => rfl
  | cons e es ih => rw [subexpressionsEach, ih, List.flatMap_cons]

theorem subexpressionsFields_eq (fields : List (String × Expr)) :
    subexpressionsFields fields = (fields.map Prod.snd).flatMap subexpressions := by
  induction fields with
  | nil => rfl
  | cons f fields ih => rw [subexpressionsFields, ih, List.map_cons, List.flatMap_cons]

/-- **An expression is above those inside its components.** -/
theorem subexpressions_eq (e : Expr) : e.subexpressions = e :: e.components.flatMap subexpressions := by
  cases e <;>
    simp [subexpressions, components, subexpressionsEach_eq, subexpressionsFields_eq]

/-- What is found at the expressions inside an expression. -/
def collect (own : Expr → List String) (e : Expr) : List String := e.subexpressions.flatMap own

theorem collect_eq (own : Expr → List String) (e : Expr) :
    e.collect own = own e ++ e.components.flatMap (collect own) := by
  rw [collect, subexpressions_eq, List.flatMap_cons, List.flatMap_assoc]
  rfl

/-- The symbol that an expression takes from the symbol table itself. -/
def ownSymbols : Expr → List String
  | .intern name => [name]
  | _ => []

/-- The targets that an expression binds itself: the parameters of a function, the target of a declaration. -/
def ownBinders : Expr → List String
  | .function params _ _ => params.names
  | .declare target _ => [target]
  | _ => []

/-- **The symbols that an expression takes from the symbol table**, also inside functions. -/
def interned (e : Expr) : List String := e.collect ownSymbols

/-- **The targets that an expression binds**, also inside functions. -/
def binders (e : Expr) : List String := e.collect ownBinders

theorem interned_eq (e : Expr) : e.interned = e.ownSymbols ++ e.components.flatMap interned :=
  collect_eq ownSymbols e

theorem mem_binders {e : Expr} {t : String} : t ∈ e.binders ↔ t ∈ e.ownBinders ∨ ∃ c ∈ e.components, t ∈ c.binders := by
  rw [binders, collect_eq, List.mem_append, List.mem_flatMap]
  rfl

/-! ## Texts -/

theorem mem_indentLines {c : Char} (hc : c ≠ '\n') {indent text : String} (h : c ∈ text.toList) :
    c ∈ (indentLines indent text).toList := by
  rw [indentLines, String.toList_ofList, List.mem_flatMap]
  exact ⟨c, h, by simp [hc]⟩

theorem renderEach_eq (indent : String) (es : List Expr) : renderEach indent es = es.map (render indent) := by
  induction es with
  | nil => rfl
  | cons e es ih => rw [renderEach, ih, List.map_cons]

theorem renderFields_eq (indent : String) (fields : List (String × Expr)) :
    renderFields indent fields = fields.map fun f => keyText f.1 ++ ": " ++ f.2.render indent := by
  induction fields with
  | nil => rfl
  | cons f fields ih => rw [renderFields, ih, List.map_cons]

/-- The text of an expression has the characters of its components. Line ends are indented inside functions. -/
theorem mem_render_of_mem_components {c : Char} (hc : c ≠ '\n') {indent : String} {e k : Expr}
    (hk : k ∈ e.components) (h : c ∈ (k.render indent).toList) : c ∈ (e.render indent).toList := by
  cases e with
  | literal | identifier | intern => cases hk
  | array items =>
    have hmem : c ∈ (", ".intercalate (items.map (render indent))).toList :=
      mem_intercalate (List.mem_map_of_mem hk) h
    simp only [render, renderEach_eq, commas, String.toList_append, List.mem_append]
    exact Or.inl (Or.inr hmem)
  | concat pieces =>
    have hmem : c ∈ (").concat(".intercalate (pieces.map (render indent))).toList :=
      mem_intercalate (List.mem_map_of_mem hk) h
    simp only [render, renderEach_eq, String.toList_append, List.mem_append]
    exact Or.inl (Or.inr hmem)
  | object fields =>
    obtain ⟨f, hf, rfl⟩ := List.mem_map.1 hk
    have hfield : c ∈ (keyText f.1 ++ ": " ++ f.2.render indent).toList := by
      simp only [String.toList_append, List.mem_append, h, or_true]
    have hmem : c ∈ (", ".intercalate (renderFields indent fields)).toList := by
      rw [renderFields_eq]
      exact mem_intercalate (List.mem_map_of_mem hf) hfield
    simp only [render, commas, String.toList_append, List.mem_append]
    exact Or.inl (Or.inr hmem)
  | conditional test consequent alternative =>
    simp only [components, List.mem_cons, List.not_mem_nil, or_false] at hk
    rcases hk with rfl | rfl | rfl <;> simp only [render, String.toList_append, List.mem_append, h, or_true, true_or]
  | function params leading result =>
    obtain ⟨line, hline, h⟩ : ∃ line ∈ (renderEach indent leading).map (· ++ ";") ++
        ["return " ++ result.render indent ++ ";"], c ∈ line.toList := by
      rcases List.mem_append.1 hk with hk | hk
      · rw [renderEach_eq]
        refine ⟨_, List.mem_append_left _ (List.mem_map_of_mem (List.mem_map_of_mem hk)), ?_⟩
        simp only [String.toList_append, List.mem_append, h, true_or]
      · rw [List.mem_singleton.1 hk] at h
        refine ⟨_, List.mem_append_right _ (List.mem_singleton_self _), ?_⟩
        simp only [String.toList_append, List.mem_append, h, or_true, true_or]
    simp only [render, functionText, String.toList_append, List.mem_append]
    exact Or.inl (Or.inr (mem_indentLines hc (mem_intercalate (List.mem_append_right _ hline) h)))
  | call callee args =>
    simp only [render, renderEach_eq, commas, String.toList_append, List.mem_append]
    rcases List.mem_cons.1 hk with rfl | hk
    · exact Or.inl (Or.inl (Or.inl h))
    · exact Or.inl (Or.inr (mem_intercalate (List.mem_map_of_mem hk) h))
  | index target key =>
    simp only [components, List.mem_cons, List.not_mem_nil, or_false] at hk
    rcases hk with rfl | rfl
    · simp only [render, String.toList_append, List.mem_append, mem_targetText h, true_or]
    · simp only [render, String.toList_append, List.mem_append, h, or_true, true_or]
  | member target key =>
    rw [components, List.mem_singleton] at hk
    subst hk
    exact mem_memberText h
  | assign place value =>
    simp only [components, List.mem_cons, List.not_mem_nil, or_false] at hk
    rcases hk with rfl | rfl <;> simp only [render, String.toList_append, List.mem_append, h, or_true, true_or]
  | declare target init =>
    rw [components, List.mem_singleton] at hk
    subst hk
    simp only [render, String.toList_append, List.mem_append, h, or_true]

/-- **The text of an expression has the characters of the texts inside it.** -/
theorem mem_render_of_mem_subexpressions {c : Char} (hc : c ≠ '\n') {indent : String} {k : Expr} (e : Expr)
    (hk : k ∈ e.subexpressions) (h : c ∈ (k.render indent).toList) : c ∈ (e.render indent).toList := by
  induction e using induction_on_components with
  | h e ih =>
    rw [subexpressions_eq] at hk
    rcases List.mem_cons.1 hk with rfl | hk
    · exact h
    · obtain ⟨component, hcomponent, hk⟩ := List.mem_flatMap.1 hk
      exact mem_render_of_mem_components hc hcomponent (ih component hcomponent hk)

/-- What is collected shows in the text, and arrays by themselves have nothing to collect. -/
structure Shows (own : Expr → List String) : Prop where
  array (items : List Expr) : own (.array items) = []
  concat (pieces : List Expr) : own (.concat pieces) = []
  visible (e : Expr) : own e ≠ [] → ∃ c ∈ (e.render "").toList, c ≠ '\n' ∧ c ∉ "[]".toList

theorem shows_ownSymbols : Shows ownSymbols where
  array _ := rfl
  concat _ := rfl
  visible e h := by
    cases e with
    | intern name => exact ⟨'(', by simp [render], by decide, by decide⟩
    | _ => exact absurd rfl h

theorem shows_ownBinders : Shows ownBinders where
  array _ := rfl
  concat _ := rfl
  visible e h := by
    cases e with
    | function params leading result =>
      refine ⟨'(', ?_, by decide, by decide⟩
      have hopen : '(' ∈ "(function (".toList := by decide
      simp only [render, functionText, String.toList_append, List.mem_append, hopen, true_or]
    | declare target init => exact ⟨'=', by simp [render], by decide, by decide⟩
    | _ => exact absurd rfl h

/-- An expression that is written as the empty array has nothing to collect in it. -/
theorem Shows.collect_eq_nil {own : Expr → List String} (hown : Shows own) {e : Expr}
    (h : e.isEmptyArray = true) : e.collect own = [] := by
  rw [collect, List.flatMap_eq_nil_iff]
  intro k hk
  by_contra hne
  obtain ⟨c, hc, hline, hempty⟩ := hown.visible k hne
  have hmem := mem_render_of_mem_subexpressions hline e hk hc
  rw [of_decide_eq_true h] at hmem
  exact hempty hmem

end Host.Expr

namespace Codegen

open Host Expr

/-- The expression of a part of a template list. -/
def Part.expr : Part → Expr
  | .item e => e
  | .splice e => e

section

variable {own : Expr → List String}

theorem collect_flush (hown : Shows own) (run pieces : List Expr) :
    (flush run pieces).flatMap (collect own) = run.flatMap (collect own) ++ pieces.flatMap (collect own) := by
  unfold flush
  cases run with
  | nil => rfl
  | cons e es =>
    rw [if_neg (by simp), List.flatMap_cons, collect_eq, hown.array]
    rfl

theorem collect_piecesFrom (hown : Shows own) (run : List Expr) (parts : List Part) :
    (piecesFrom run parts).flatMap (collect own) =
      run.flatMap (collect own) ++ parts.flatMap fun p => p.expr.collect own := by
  induction parts generalizing run with
  | nil => rw [piecesFrom, collect_flush hown]; rfl
  | cons part parts ih =>
    cases part with
    | item e =>
      rw [piecesFrom, ih, List.flatMap_append, List.append_assoc, List.flatMap_singleton]
      rfl
    | splice e =>
      rw [piecesFrom, List.flatMap_cons, Part.expr]
      split
      · rename_i he
        rw [ih, hown.collect_eq_nil he, List.nil_append]
      · rw [collect_flush hown, List.flatMap_cons, ih]
        rfl

/-- **A template list holds what its parts hold.** -/
theorem collect_joined (hown : Shows own) (parts : List Part) :
    (joined parts).collect own = parts.flatMap fun p => p.expr.collect own := by
  have h := collect_piecesFrom hown [] parts
  rw [List.flatMap_nil, List.nil_append] at h
  rw [← h]
  unfold joined
  split
  · rename_i hpieces
    rw [hpieces, collect_eq, hown.array]
    rfl
  · rename_i piece hpieces
    rw [hpieces, List.flatMap_singleton]
  · rw [collect_eq, hown.concat]
    rfl

end

end Codegen

end HostLisp
