import HostLisp.Proofs.LateTable

/-!
# Where declarations and assignments stand

In the host a declaration is a statement, and an assignment binds more loosely than a call, a property or the
test of a conditional. Code is put together as text, so what it means depends on the places where the two
stand. Places are ordered by what they take: the test of a conditional takes the least, a statement the most.

* `Place`: where code stands in other code.
* `Expr.wellPlaced`, `Form.wellPlaced`: declarations and assignments stand no lower than given floors, in host
  code and in forms.
* `compile_wellPlaced`: **forms that keep them to places where they belong give code that does.**
* `declarations_are_statements`: **a program whose declarations are statements has code whose declarations
  are.** A declaration in an expression is compiled as well, to code that is none
  (`exists_declaration_in_expression`).
* `assignments_keep_precedence`: **a program without assignments in front of operators has code without
  them.** Brackets are not put around an assignment (`exists_assignment_in_front`).
-/

namespace HostLisp

/-- Where code stands in other code. -/
inductive Place where
  /-- in front of an operator: a test, a callee, the object of a property -/
  | tight
  /-- an argument, an item, a value, a branch -/
  | operand
  /-- what a function returns -/
  | result
  | statement
deriving DecidableEq

namespace Place

/-- How much a place takes. -/
def rank : Place → Nat
  | .tight => 0
  | .operand => 1
  | .result => 2
  | .statement => 3

instance : LE Place := ⟨fun p q => p.rank ≤ q.rank⟩

instance (p q : Place) : Decidable (p ≤ q) := inferInstanceAs (Decidable (p.rank ≤ q.rank))

theorem le_trans {p q r : Place} (h : p ≤ q) (h' : q ≤ r) : p ≤ r := Nat.le_trans h h'

/-- The place of what a template takes its code from. A template hands on code as it is, but never as a
statement. -/
def ofTemplate : Place → Place
  | .tight => .tight
  | _ => .operand

theorem ofTemplate_le (p : Place) : p.ofTemplate ≤ p := by
  cases p <;> decide

theorem ofTemplate_le_operand (p : Place) : p.ofTemplate ≤ .operand := by
  cases p <;> decide

end Place

/-- The lowest place of the code of each keyword. -/
abbrev Floors := Keyword → Place

/-- Declarations are statements. -/
def Floors.declarations : Floors
  | .var => .statement
  | _ => .tight

namespace Host.Expr

mutual

/-- Declarations and assignments stand no lower than their floors. -/
def wellPlaced (floor : Floors) (here : Place) : Expr → Bool
  | .literal _ | .identifier _ | .intern _ => true
  | .array items => wellPlacedEach floor .operand items
  -- the pieces stand in brackets
  | .concat pieces => wellPlacedEach floor .operand pieces
  | .object fields => wellPlacedFields floor fields
  | .conditional test consequent alternative =>
    wellPlaced floor .tight test &&
      (wellPlaced floor .operand consequent && wellPlaced floor .operand alternative)
  | .function _ leading result => wellPlacedEach floor .statement leading && wellPlaced floor .result result
  | .call callee args => wellPlaced floor .tight callee && wellPlacedEach floor .operand args
  | .index target key => wellPlaced floor .tight target && wellPlaced floor .operand key
  | .member target _ => wellPlaced floor .tight target
  | .assign place value =>
    decide (floor .assign ≤ here) && (wellPlaced floor .operand place && wellPlaced floor .operand value)
  | .declare _ init => decide (floor .var ≤ here) && wellPlaced floor .operand init

/-- The same for expressions that stand alike. -/
def wellPlacedEach (floor : Floors) (here : Place) : List Expr → Bool
  | [] => true
  | e :: es => wellPlaced floor here e && wellPlacedEach floor here es

/-- The same for the fields of an object. -/
def wellPlacedFields (floor : Floors) : List (String × Expr) → Bool
  | [] => true
  | (_, e) :: fields => wellPlaced floor .operand e && wellPlacedFields floor fields

end

variable {floor : Floors} {here there : Place}

/-- A place that takes more takes the code as well. -/
theorem wellPlaced_mono {e : Expr} (h : e.wellPlaced floor here = true) (hle : here ≤ there) :
    e.wellPlaced floor there = true := by
  cases e with
  | assign place value =>
    simp only [wellPlaced, Bool.and_eq_true, decide_eq_true_eq] at h ⊢
    exact ⟨Place.le_trans h.1 hle, h.2⟩
  | declare target init =>
    simp only [wellPlaced, Bool.and_eq_true, decide_eq_true_eq] at h ⊢
    exact ⟨Place.le_trans h.1 hle, h.2⟩
  | literal | identifier | intern | array | concat | object | conditional | function | call | index
  | member => exact h

theorem wellPlacedEach_iff {es : List Expr} :
    wellPlacedEach floor here es = true ↔ ∀ e ∈ es, e.wellPlaced floor here = true := by
  induction es with
  | nil => simp [wellPlacedEach]
  | cons e es ih => simp [wellPlacedEach, ih]

theorem wellPlacedEach_append {es fs : List Expr} : wellPlacedEach floor here (es ++ fs) = true ↔
    wellPlacedEach floor here es = true ∧ wellPlacedEach floor here fs = true := by
  simp only [wellPlacedEach_iff, List.forall_mem_append]

/-- The target of a declaration. -/
def target? : Expr → Option String
  | .declare target _ => some target
  | _ => none

mutual

/-- Where declarations are statements, the code in any other place declares nothing. -/
theorem declared_eq_nil_of_wellPlaced (hfloor : floor .var = .statement) :
    ∀ (e : Expr) {here : Place}, e.wellPlaced floor here = true → here ≠ .statement → e.declared = []
  | .literal _, _, _, _ => rfl
  | .identifier _, _, _, _ => rfl
  | .intern _, _, _, _ => rfl
  | .function _ _ _, _, _, _ => rfl
  | .array items, _, h, _ => declaredEach_eq_nil_of_wellPlaced hfloor items h
  | .concat pieces, _, h, _ => declaredEach_eq_nil_of_wellPlaced hfloor pieces h
  | .object fields, _, h, _ => declaredFields_eq_nil_of_wellPlaced hfloor fields h
  | .conditional test consequent alternative, _, h, _ => by
    simp only [wellPlaced, Bool.and_eq_true] at h
    rw [declared, declared_eq_nil_of_wellPlaced hfloor test h.1 (by decide),
      declared_eq_nil_of_wellPlaced hfloor consequent h.2.1 (by decide),
      declared_eq_nil_of_wellPlaced hfloor alternative h.2.2 (by decide)]
    rfl
  | .call callee args, _, h, _ => by
    simp only [wellPlaced, Bool.and_eq_true] at h
    rw [declared, declared_eq_nil_of_wellPlaced hfloor callee h.1 (by decide),
      declaredEach_eq_nil_of_wellPlaced hfloor args h.2]
    rfl
  | .index target key, _, h, _ => by
    simp only [wellPlaced, Bool.and_eq_true] at h
    rw [declared, declared_eq_nil_of_wellPlaced hfloor target h.1 (by decide),
      declared_eq_nil_of_wellPlaced hfloor key h.2 (by decide)]
    rfl
  | .member target _, _, h, _ => by
    rw [wellPlaced] at h
    exact declared_eq_nil_of_wellPlaced hfloor target h (by decide)
  | .assign place value, _, h, _ => by
    simp only [wellPlaced, Bool.and_eq_true] at h
    rw [declared, declared_eq_nil_of_wellPlaced hfloor place h.2.1 (by decide),
      declared_eq_nil_of_wellPlaced hfloor value h.2.2 (by decide)]
    rfl
  | .declare _ _, here, h, hne => by
    simp only [wellPlaced, Bool.and_eq_true, decide_eq_true_eq, hfloor] at h
    cases here with
    | tight | operand | result => exact absurd h.1 (by decide)
    | statement => exact absurd rfl hne

theorem declaredEach_eq_nil_of_wellPlaced (hfloor : floor .var = .statement) :
    ∀ es : List Expr, wellPlacedEach floor .operand es = true → declaredEach es = []
  | [], _ => rfl
  | e :: es, h => by
    simp only [wellPlacedEach, Bool.and_eq_true] at h
    rw [declaredEach, declared_eq_nil_of_wellPlaced hfloor e h.1 (by decide),
      declaredEach_eq_nil_of_wellPlaced hfloor es h.2]
    rfl

theorem declaredFields_eq_nil_of_wellPlaced (hfloor : floor .var = .statement) :
    ∀ fields : List (String × Expr), wellPlacedFields floor fields = true → declaredFields fields = []
  | [], _ => rfl
  | (_, e) :: fields, h => by
    simp only [wellPlacedFields, Bool.and_eq_true] at h
    rw [declaredFields, declared_eq_nil_of_wellPlaced hfloor e h.1 (by decide),
      declaredFields_eq_nil_of_wellPlaced hfloor fields h.2]
    rfl

end

/-- Where declarations are statements, a statement declares the target that it is a declaration of. -/
theorem declared_of_wellPlaced {e : Expr} (hfloor : floor .var = .statement)
    (h : e.wellPlaced floor here = true) : e.declared = e.target?.toList := by
  cases e with
  | declare target init =>
    simp only [wellPlaced, Bool.and_eq_true] at h
    rw [declared, declared_eq_nil_of_wellPlaced hfloor init h.2 (by decide)]
    rfl
  | assign place value =>
    simp only [wellPlaced, Bool.and_eq_true] at h
    rw [declared, declared_eq_nil_of_wellPlaced hfloor place h.2.1 (by decide),
      declared_eq_nil_of_wellPlaced hfloor value h.2.2 (by decide)]
    rfl
  | literal | identifier | intern | array | concat | object | conditional | function | call | index
  | member =>
    -- the place of the code makes no difference to these
    exact declared_eq_nil_of_wellPlaced hfloor _ (show wellPlaced floor .tight _ = true from h) (by decide)

end Host.Expr

/-! ## Forms -/

namespace Form

mutual

/-- Lists headed by a keyword stand no lower than its floor, wherever they are code. -/
def wellPlaced (floor : Floors) (here : Place) : Form → Bool
  | .list (.symbol name :: args) =>
    match Keyword.ofName? name, args with
    | some .quote, _ => true
    | some .quasiquote, [template] => templateWellPlaced floor here.ofTemplate template
    | some .fn, _ :: body => wellPlacedBody floor body
    | some .object, entries => wellPlacedEntries floor entries
    | some .conditional, args => wellPlacedHead floor args
    | some .member, args => wellPlacedHead floor args
    | some k, args => decide (floor k ≤ here) && wellPlacedEach floor args
    | none, args => if (propertyKey? name).isSome then wellPlacedHead floor args else wellPlacedEach floor args
  | .list items => wellPlacedHead floor items
  | _ => true

/-- The same for operands. -/
def wellPlacedEach (floor : Floors) : List Form → Bool
  | [] => true
  | f :: fs => wellPlaced floor .operand f && wellPlacedEach floor fs

/-- The same for operands behind a form in front of an operator. -/
def wellPlacedHead (floor : Floors) : List Form → Bool
  | [] => true
  | f :: fs => wellPlaced floor .tight f && wellPlacedEach floor fs

/-- The same for the body of a function. The last form is returned, and a declaration there is a statement in
front of what is returned. -/
def wellPlacedBody (floor : Floors) : List Form → Bool
  | [] => true
  | [last] => wellPlaced floor (if last.isSpecial .var then .statement else .result) last
  | f :: fs => wellPlaced floor .statement f && wellPlacedBody floor fs

/-- The same for the values of an object. -/
def wellPlacedEntries (floor : Floors) : List Form → Bool
  | [] => true
  | .list [_, value] :: entries => wellPlaced floor .operand value && wellPlacedEntries floor entries
  | _ :: entries => wellPlacedEntries floor entries

/-- The same for a template. -/
def templateWellPlaced (floor : Floors) (here : Place) : Form → Bool
  | .list (.symbol name :: args) =>
    match Keyword.ofName? name, args with
    | some .unquote, [inner] => wellPlaced floor here inner
    | some .unquoteSplicing, [inner] => wellPlaced floor here inner
    | _, args => templateWellPlacedEach floor here args
  | .list items => templateWellPlacedEach floor here items
  | _ => true

/-- The same for the items of a template list. The only splice of a list can be all of its code, other items
stand in an array. -/
def templateWellPlacedEach (floor : Floors) (here : Place) : List Form → Bool
  | [] => true
  | f :: fs =>
    templateWellPlaced floor (if f.isSpecial .unquoteSplicing then here else .operand) f &&
      templateWellPlacedEach floor here fs

end

end Form

/-- The same for a form in its role. -/
def Job.wellPlaced (floor : Floors) (here : Place) : Job → Bool
  | .form f => f.wellPlaced floor here
  | .template f => f.templateWellPlaced floor here.ofTemplate

namespace Form

variable {floor : Floors} {here : Place} {f : Form}

theorem wellPlacedEach_iff {fs : List Form} :
    wellPlacedEach floor fs = true ↔ ∀ f ∈ fs, f.wellPlaced floor .operand = true := by
  induction fs with
  | nil => simp [wellPlacedEach]
  | cons f fs ih => simp [wellPlacedEach, ih]

/-- A list headed by a symbol. -/
theorem wellPlaced_headed (name : String) (args : List Form) :
    (Form.list (.symbol name :: args)).wellPlaced floor here = match Keyword.ofName? name, args with
      | some .quote, _ => true
      | some .quasiquote, [template] => templateWellPlaced floor here.ofTemplate template
      | some .fn, _ :: body => wellPlacedBody floor body
      | some .object, entries => wellPlacedEntries floor entries
      | some .conditional, args => wellPlacedHead floor args
      | some .member, args => wellPlacedHead floor args
      | some k, args => decide (floor k ≤ here) && wellPlacedEach floor args
      | none, args =>
        if (propertyKey? name).isSome then wellPlacedHead floor args else wellPlacedEach floor args :=
  wellPlaced.eq_def _ _ _

theorem wellPlaced_var {n : String} {init : Form} (hf : f.Reads (.var n init))
    (h : f.wellPlaced floor here = true) : floor .var ≤ here ∧ init.wellPlaced floor .operand = true := by
  obtain ⟨_, _, _, rfl, hk, hp⟩ := hf.parts
  cases hp
  rw [wellPlaced_headed, hk] at h
  simpa [wellPlacedEach, wellPlaced] using h

theorem wellPlaced_assignName {n : String} {value : Form} (hf : f.Reads (.assign (.name n) value))
    (h : f.wellPlaced floor here = true) : floor .assign ≤ here ∧ value.wellPlaced floor .operand = true := by
  obtain ⟨_, _, _, rfl, hk, hp⟩ := hf.parts
  cases hp
  rw [wellPlaced_headed, hk] at h
  simpa [wellPlacedEach, wellPlaced] using h

theorem wellPlaced_assignProperty {access value : Form} (hf : f.Reads (.assign (.property access) value))
    (h : f.wellPlaced floor here = true) : floor .assign ≤ here ∧
      access.wellPlaced floor .operand = true ∧ value.wellPlaced floor .operand = true := by
  obtain ⟨_, _, _, rfl, hk, hp⟩ := hf.parts
  cases hp
  rw [wellPlaced_headed, hk] at h
  simpa [wellPlacedEach] using h

theorem wellPlaced_conditional {t c a : Form} (hf : f.Reads (.conditional t c a))
    (h : f.wellPlaced floor here = true) : t.wellPlaced floor .tight = true ∧
      c.wellPlaced floor .operand = true ∧ a.wellPlaced floor .operand = true := by
  obtain ⟨_, _, _, rfl, hk, hp⟩ := hf.parts
  cases hp
  rw [wellPlaced_headed, hk] at h
  simpa [wellPlacedHead, wellPlacedEach] using h

theorem wellPlaced_quasiquote {t : Form} (hf : f.Reads (.quasiquote t)) (h : f.wellPlaced floor here = true) :
    t.templateWellPlaced floor here.ofTemplate = true := by
  obtain ⟨_, _, _, rfl, hk, hp⟩ := hf.parts
  cases hp
  rw [wellPlaced_headed, hk] at h
  exact h

theorem wellPlaced_list {items : List Form} (hf : f.Reads (.list items)) (h : f.wellPlaced floor here = true) :
    wellPlacedEach floor items = true := by
  obtain ⟨_, _, _, rfl, hk, hp⟩ := hf.parts
  cases hp
  rw [wellPlaced_headed, hk] at h
  simp only [Bool.and_eq_true] at h
  exact h.2

theorem wellPlaced_member {target key : Form} (hf : f.Reads (.member target key))
    (h : f.wellPlaced floor here = true) :
    target.wellPlaced floor .tight = true ∧ key.wellPlaced floor .operand = true := by
  obtain ⟨_, _, _, rfl, hk, hp⟩ := hf.parts
  cases hp
  rw [wellPlaced_headed, hk] at h
  simpa [wellPlacedHead, wellPlacedEach] using h

theorem wellPlacedEntries_map (entries : List (String × Form)) :
    wellPlacedEntries floor (entries.map fun e => .list [.symbol e.1, e.2]) =
      wellPlacedEach floor (entries.map Prod.snd) := by
  induction entries with
  | nil => rfl
  | cons e es ih => simp only [List.map_cons, wellPlacedEntries, wellPlacedEach, ih]

theorem wellPlaced_object {entries : List (String × Form)} (hf : f.Reads (.object entries))
    (h : f.wellPlaced floor here = true) : ∀ e ∈ entries, e.2.wellPlaced floor .operand = true := by
  obtain ⟨_, _, _, rfl, hk, hp⟩ := hf.parts
  cases hp
  rw [wellPlaced_headed, hk] at h
  have hvalues : wellPlacedEach floor (entries.map Prod.snd) = true := by
    rw [← wellPlacedEntries_map]
    exact h
  exact fun e he => wellPlacedEach_iff.1 hvalues _ (List.mem_map_of_mem he)

/-- The body of a function: statements, and a last form. -/
theorem wellPlacedBody_ofForms {first : Form} {rest : List Form}
    (h : wellPlacedBody floor (first :: rest) = true) :
    (∀ f ∈ (Body.ofForms first rest).leading, f.wellPlaced floor .statement = true) ∧
      (Body.ofForms first rest).last.wellPlaced floor
        (if (Body.ofForms first rest).last.isSpecial .var then .statement else .result) = true := by
  induction rest generalizing first with
  | nil => exact ⟨List.forall_mem_nil _, h⟩
  | cons next rest ih =>
    simp only [wellPlacedBody, Bool.and_eq_true] at h
    obtain ⟨hleading, hlast⟩ := ih h.2
    exact ⟨List.forall_mem_cons.2 ⟨h.1, hleading⟩, hlast⟩

theorem wellPlaced_fn {params : Parameters} {body : Body} (hf : f.Reads (.fn params body))
    (h : f.wellPlaced floor here = true) :
    (∀ g ∈ body.leading, g.wellPlaced floor .statement = true) ∧
      body.last.wellPlaced floor (if body.last.isSpecial .var then .statement else .result) = true := by
  obtain ⟨_, _, _, rfl, hk, hp⟩ := hf.parts
  cases hp
  rw [wellPlaced_headed, hk] at h
  exact wellPlacedBody_ofForms h

theorem wellPlaced_access {key : String} {target : Form} {args : List Form}
    (hf : f.shape = .access key (target :: args)) (h : f.wellPlaced floor here = true) :
    target.wellPlaced floor .tight = true ∧ wellPlacedEach floor args = true := by
  obtain ⟨name, rfl, hk, hp⟩ := shape_eq_access hf
  rw [wellPlaced_headed, hk] at h
  simpa [hp, wellPlacedHead] using h

theorem wellPlaced_application {head : Form} {args : List Form} (hf : f.shape = .application head args)
    (h : f.wellPlaced floor here = true) :
    head.wellPlaced floor .tight = true ∧ wellPlacedEach floor args = true := by
  obtain ⟨rfl, hs⟩ := shape_eq_application hf
  cases head with
  | symbol name =>
    obtain ⟨hk, hp⟩ := hs name rfl
    rw [wellPlaced_headed, hk] at h
    exact ⟨rfl, by simpa [hp] using h⟩
  | literal l => exact Bool.and_eq_true_iff.1 h
  | list items => exact Bool.and_eq_true_iff.1 h

/-- A template list headed by a symbol. -/
theorem templateWellPlaced_headed (name : String) (args : List Form) :
    (Form.list (.symbol name :: args)).templateWellPlaced floor here = match Keyword.ofName? name, args with
      | some .unquote, [inner] => wellPlaced floor here inner
      | some .unquoteSplicing, [inner] => wellPlaced floor here inner
      | _, args => templateWellPlacedEach floor here args :=
  templateWellPlaced.eq_def _ _ _

theorem templateWellPlaced_unquoted {k : Keyword} {inner : Form} (hk : k = .unquote ∨ k = .unquoteSplicing)
    (hs : f.special? = some (k, [inner])) (h : f.templateWellPlaced floor here = true) :
    inner.wellPlaced floor here = true := by
  obtain ⟨name, rfl, hn⟩ := special?_eq_some hs
  rw [templateWellPlaced_headed, hn] at h
  rcases hk with rfl | rfl <;> exact h

theorem templateWellPlaced_list {items : List Form} (hp : (Form.list items).PlainTemplate)
    (h : (Form.list items).templateWellPlaced floor here = true) :
    templateWellPlacedEach floor here items = true := by
  match items with
  | [] => rfl
  | .literal _ :: _ => exact h
  | .list _ :: _ => exact h
  | .symbol name :: args =>
    have hplain := hp args
    simp only [special?] at hplain
    rw [templateWellPlaced_headed] at h
    split at h
    · rename_i hk; simp [hk] at hplain
    · rename_i hk; simp [hk] at hplain
    · exact Bool.and_eq_true_iff.2 ⟨rfl, h⟩

theorem isSpecial_eq_true {k : Keyword} {args : List Form} (h : f.special? = some (k, args)) :
    f.isSpecial k = true := by
  simp [isSpecial, h]

theorem isSpecial_eq_false {k : Keyword} (h : ∀ args, f.special? ≠ some (k, args)) : f.isSpecial k = false := by
  cases hs : f.special? with
  | none => simp [isSpecial, hs]
  | some s =>
    obtain ⟨k', args⟩ := s
    have hne : k' ≠ k := by
      rintro rfl
      exact h args hs
    simp [isSpecial, hs, hne]

theorem templateWellPlacedEach_iff {fs : List Form} : templateWellPlacedEach floor here fs = true ↔
    ∀ f ∈ fs, f.templateWellPlaced floor (if f.isSpecial .unquoteSplicing then here else .operand) = true := by
  induction fs with
  | nil => simp [templateWellPlacedEach]
  | cons f fs ih => simp [templateWellPlacedEach, ih]

end Form

/-! ## Code generation -/

namespace Codegen

open Host Expr

variable {floor : Floors} {here : Place}

/-- The items of a template list stand in an array, a splice stands anywhere. -/
def Part.wellPlaced (floor : Floors) (here : Place) : Part → Bool
  | .item e => e.wellPlaced floor .operand
  | .splice e => e.wellPlaced floor here

theorem wellPlacedEach_flush {run pieces : List Expr} (hrun : wellPlacedEach floor .operand run = true)
    (hpieces : wellPlacedEach floor here pieces = true) :
    wellPlacedEach floor here (flush run pieces) = true := by
  unfold flush
  split
  · exact hpieces
  · rw [wellPlacedEach, Bool.and_eq_true]
    exact ⟨hrun, hpieces⟩

theorem wellPlacedEach_piecesFrom {run : List Expr} {parts : List Part}
    (hrun : wellPlacedEach floor .operand run = true)
    (hparts : ∀ part ∈ parts, part.wellPlaced floor here = true) :
    wellPlacedEach floor here (piecesFrom run parts) = true := by
  induction parts generalizing run with
  | nil => exact wellPlacedEach_flush hrun rfl
  | cons part parts ih =>
    obtain ⟨hpart, hrest⟩ := List.forall_mem_cons.1 hparts
    cases part with
    | item e =>
      refine ih (wellPlacedEach_append.2 ⟨hrun, ?_⟩) hrest
      rw [wellPlacedEach, Bool.and_eq_true]
      exact ⟨hpart, rfl⟩
    | splice e =>
      simp only [piecesFrom]
      split
      · exact ih hrun hrest
      · refine wellPlacedEach_flush hrun ?_
        rw [wellPlacedEach, Bool.and_eq_true]
        exact ⟨hpart, ih rfl hrest⟩

/-- **A template list stands where its splices can stand**, as long as they can stand in brackets. -/
theorem wellPlaced_joined {parts : List Part} (hle : here ≤ .operand)
    (hparts : ∀ part ∈ parts, part.wellPlaced floor here = true) :
    (joined parts).wellPlaced floor here = true := by
  have hpieces : wellPlacedEach floor here (piecesFrom [] parts) = true := wellPlacedEach_piecesFrom rfl hparts
  unfold joined
  split
  · rfl
  · rename_i piece hone
    rw [hone] at hpieces
    exact wellPlacedEach_iff.1 hpieces piece List.mem_cons_self
  · rw [Expr.wellPlaced, wellPlacedEach_iff]
    exact fun e he => wellPlaced_mono (wellPlacedEach_iff.1 hpieces e he) hle

mutual

/-- Quoted data holds no code. -/
theorem wellPlaced_quoted (here : Place) : ∀ f : Form, (quoted f).wellPlaced floor here = true
  | .literal _ => rfl
  | .symbol _ => rfl
  | .list items => wellPlacedEach_quotedEach .operand items

theorem wellPlacedEach_quotedEach (here : Place) :
    ∀ fs : List Form, wellPlacedEach floor here (quotedEach fs) = true
  | [] => rfl
  | f :: fs => by
    rw [quotedEach, wellPlacedEach, wellPlaced_quoted here f, wellPlacedEach_quotedEach here fs]
    rfl

end

/-- What holds of each item, and passes from an item to its code, holds of all the code. -/
theorem Threads.forall_mem {α β : Type} {R : α → Renaming → β → Renaming → Prop} (P : α → Prop) (Q : β → Prop)
    (hR : ∀ a ρ b ρ', R a ρ b ρ' → P a → Q b) {as : List α} {bs : List β} {ρ ρ' : Renaming}
    (h : Threads R as ρ bs ρ') (hP : ∀ a ∈ as, P a) : ∀ b ∈ bs, Q b := by
  induction h with
  | nil => exact List.forall_mem_nil _
  | cons h _ ih =>
    obtain ⟨ha, has⟩ := List.forall_mem_cons.1 hP
    exact List.forall_mem_cons.2 ⟨hR _ _ _ _ h ha, ih has⟩

/-- Jobs that keep declarations and assignments in place give code that does. -/
def KeepsPlaces (floor : Floors) (R : Answers) : Prop :=
  ∀ job ρ e ρ', R job ρ e ρ' → ∀ here, job.wellPlaced floor here = true → e.wellPlaced floor here = true

section

variable {R : Answers} {ρ ρ' : Renaming} (hR : KeepsPlaces floor R)

include hR

theorem EmitsEach.wellPlaced {fs : List Form} {es : List Expr} (h : EmitsEach R fs ρ es ρ')
    (hfs : ∀ f ∈ fs, f.wellPlaced floor here = true) : wellPlacedEach floor here es = true :=
  wellPlacedEach_iff.2 (h.forall_mem _ _ (fun f ρ e ρ' hf => hR (.form f) ρ e ρ' hf here) hfs)

theorem EmitsFields.wellPlaced {entries : List (String × Form)} {fields : List (String × Expr)}
    (h : EmitsFields R entries ρ fields ρ') (he : ∀ e ∈ entries, e.2.wellPlaced floor .operand = true) :
    wellPlacedFields floor fields = true := by
  induction h with
  | nil => rfl
  | cons h _ ih =>
    obtain ⟨hvalue, hvalues⟩ := List.forall_mem_cons.1 he
    rw [wellPlacedFields, Bool.and_eq_true]
    exact ⟨hR _ _ _ _ h.2 _ hvalue, ih hvalues⟩

theorem EmitsPart.wellPlaced {item : Form} {part : Part} (h : EmitsPart R item ρ part ρ')
    (hi : item.templateWellPlaced floor (if item.isSpecial .unquoteSplicing then here else .operand) = true) :
    part.wellPlaced floor here = true := by
  cases h with
  | splice hs hq h =>
    cases Special.quoted_eq_ok hq
    rw [if_pos (Form.isSpecial_eq_true hs)] at hi
    exact hR _ _ _ _ h _ (Form.templateWellPlaced_unquoted (Or.inr rfl) hs hi)
  | item hs h =>
    rw [if_neg (by simp [Form.isSpecial_eq_false hs])] at hi
    exact hR _ _ _ _ h .operand hi

/-- What stands at the end of a body is a statement or is returned. -/
theorem EmitsTail.wellPlaced {tail : Form} {last : List Expr} {result : Expr}
    (h : EmitsTail R tail ρ last result ρ')
    (ht : tail.wellPlaced floor (if tail.isSpecial .var then .statement else .result) = true) :
    wellPlacedEach floor .statement last = true ∧ result.wellPlaced floor .result = true := by
  cases h with
  | declaration hs hd hp h =>
    rw [if_pos (Form.isSpecial_eq_true hs)] at ht
    obtain ⟨hfloor, hinit⟩ := Form.wellPlaced_var (Form.reads_var hs hd) ht
    refine ⟨?_, rfl⟩
    simp only [wellPlacedEach, Expr.wellPlaced, hR _ _ _ _ h _ hinit, hfloor, decide_true, Bool.and_self]
  | other hs h =>
    rw [if_neg (by simp [Form.isSpecial_eq_false hs])] at ht
    exact ⟨rfl, hR _ _ _ _ h _ ht⟩

/-- **One level keeps declarations and assignments in place.** -/
theorem Emits.wellPlaced : KeepsPlaces floor (Emits R) := by
  intro job ρ e ρ' h here hj
  cases h with
  | literal h => rfl
  | name h ht => rfl
  | var h hp hi =>
    obtain ⟨hfloor, hinit⟩ := Form.wellPlaced_var h hj
    rw [Expr.wellPlaced, hR _ _ _ _ hi _ hinit, decide_eq_true hfloor]
    rfl
  | fn h hp hl ht =>
    obtain ⟨hleading, hlast⟩ := Form.wellPlaced_fn h hj
    obtain ⟨hdeclared, hresult⟩ := ht.wellPlaced hR hlast
    rw [Expr.wellPlaced, wellPlacedEach_append.2 ⟨hl.wellPlaced hR hleading, hdeclared⟩, hresult]
    rfl
  | assignName h ht hv =>
    obtain ⟨hfloor, hvalue⟩ := Form.wellPlaced_assignName h hj
    rw [Expr.wellPlaced, Expr.wellPlaced, hR _ _ _ _ hv _ hvalue, decide_eq_true hfloor]
    rfl
  | assignProperty h ha hv =>
    obtain ⟨hfloor, haccess, hvalue⟩ := Form.wellPlaced_assignProperty h hj
    rw [Expr.wellPlaced, hR _ _ _ _ ha _ haccess, hR _ _ _ _ hv _ hvalue, decide_eq_true hfloor]
    rfl
  | conditional h ht hc ha =>
    obtain ⟨htest, hthen, helse⟩ := Form.wellPlaced_conditional h hj
    rw [Expr.wellPlaced, hR _ _ _ _ ht _ htest, hR _ _ _ _ hc _ hthen, hR _ _ _ _ ha _ helse]
    rfl
  | quote h => exact wellPlaced_quoted _ _
  | quasiquote h ht => exact hR _ _ _ _ ht _ (Form.wellPlaced_quasiquote h hj)
  | list h hi =>
    rw [Expr.wellPlaced]
    exact hi.wellPlaced hR (Form.wellPlacedEach_iff.1 (Form.wellPlaced_list h hj))
  | member h ht hk =>
    obtain ⟨htarget, hkey⟩ := Form.wellPlaced_member h hj
    rw [Expr.wellPlaced, hR _ _ _ _ ht _ htarget, hR _ _ _ _ hk _ hkey]
    rfl
  | object h he =>
    rw [Expr.wellPlaced]
    exact he.wellPlaced hR (Form.wellPlaced_object h hj)
  | access h ht => exact hR _ _ _ _ ht _ (Form.wellPlaced_access h hj).1
  | accessCall h ht ha =>
    obtain ⟨htarget, hargs⟩ := Form.wellPlaced_access h hj
    rw [Expr.wellPlaced, Expr.wellPlaced, hR _ _ _ _ ht _ htarget,
      ha.wellPlaced hR (Form.wellPlacedEach_iff.1 hargs)]
    rfl
  | application h hh ha =>
    obtain ⟨hhead, hargs⟩ := Form.wellPlaced_application h hj
    rw [Expr.wellPlaced, hR _ _ _ _ hh _ hhead, ha.wellPlaced hR (Form.wellPlacedEach_iff.1 hargs)]
    rfl
  | unquote hs hq hi =>
    cases Special.quoted_eq_ok hq
    exact wellPlaced_mono (hR _ _ _ _ hi _ (Form.templateWellPlaced_unquoted (Or.inl rfl) hs hj))
      here.ofTemplate_le
  | templateList hs hp =>
    have hitems := Form.templateWellPlacedEach_iff.1 (Form.templateWellPlaced_list hs hj)
    have hparts := hp.forall_mem _ _ (fun _ _ _ _ h => EmitsPart.wellPlaced hR h) hitems
    exact wellPlaced_mono (wellPlaced_joined here.ofTemplate_le_operand hparts) here.ofTemplate_le
  | templateAtom h => exact wellPlaced_quoted _ _

end

/-- **Jobs that keep declarations and assignments in place give code that does**, at every number of levels. -/
theorem compile_wellPlaced (limit levels : Nat) : KeepsPlaces floor (.of (compile limit levels)) := by
  induction levels with
  | zero =>
    intro job ρ e ρ' h
    cases h
  | succ levels ih => exact fun job ρ e ρ' h => Emits.wellPlaced ih job ρ e ρ' (layer_eq_ok_iff.1 h)

end Codegen

/-! ## Programs -/

namespace Compiler

open Host

variable {config : Config} {forms : List Form} {ρ : Renaming}

/-- Forms that do not need the table any more are compiled one after another. -/
theorem emitsEach_of_push {d d' : Draft}
    (htable : ∀ f ∈ forms, d.program.table = true ∨ SymbolTable.needed [f] = false)
    (h : forms.foldlM (Draft.push config) d = .ok d') :
    ∃ es, Codegen.EmitsEach (.of (Codegen.compile config.maxDepth config.maxDepth)) forms d.names es d'.names ∧
      d'.program = ⟨d.program.table, d.program.statements ++ es⟩ := by
  induction forms generalizing d with
  | nil =>
    cases h
    exact ⟨[], .nil _, by simp⟩
  | cons f fs ih =>
    obtain ⟨hf, hfs⟩ := List.forall_mem_cons.1 htable
    rw [List.foldlM_cons] at h
    obtain ⟨d₁, hpush, h⟩ := bind_eq_ok_iff.1 h
    obtain ⟨_, hn, -⟩ := bind_eq_ok_iff.1 hpush
    have hready : (!d.program.table && SymbolTable.needed [f]) = false := by
      rcases hf with hf | hf <;> simp [hf]
    rw [Draft.push_eq_bind hn, hready] at hpush
    obtain ⟨_, hd, hpush⟩ := bind_eq_ok_iff.1 hpush
    cases hd
    obtain ⟨⟨e, ρ⟩, hc, hpush⟩ := bind_eq_ok_iff.1 hpush
    cases hpush
    obtain ⟨es, hes, hprogram⟩ := ih (d := ⟨ρ, ⟨d.program.table, d.program.statements ++ [e]⟩⟩) hfs h
    refine ⟨e :: es, .cons hc hes, ?_⟩
    rw [hprogram]
    simp

theorem Draft.program_of_blank {d : Draft} {table : Bool} (h : Draft.blank ρ table = .ok d) :
    d.program = ⟨table, []⟩ := by
  cases table with
  | false =>
    cases h
    rfl
  | true =>
    replace h : Draft.addTable ⟨ρ, ⟨false, []⟩⟩ = .ok d := h
    unfold Draft.addTable at h
    split at h
    · cases h
      rfl
    · cases h

/-- **A program compiles form by form**, behind the table if any of the forms needs it. -/
theorem emitsEach_of_compile {text : String} (h : compile config ρ forms = .ok text) :
    ∃ d d' es, Draft.begin config ρ forms = .ok d ∧ forms.foldlM (Draft.push config) d = .ok d' ∧
      compileProgram config ρ forms = .ok d'.program ∧ text = d'.program.render config.indent ∧
      d'.program = ⟨wantsTable config forms, es⟩ ∧
      Codegen.EmitsEach (.of (Codegen.compile config.maxDepth config.maxDepth)) forms d.names es d'.names := by
  obtain ⟨d, d', hbegin, hpush, htext⟩ := compile_eq_ok_iff.1 h
  have hcompiled : compileProgram config ρ forms = .ok d'.program :=
    bind_eq_ok_iff.2 ⟨d, hbegin, bind_eq_ok_iff.2 ⟨d', hpush, rfl⟩⟩
  obtain ⟨-, hblank⟩ := Draft.begin_eq_ok_iff.1 hbegin
  have hd : d.program = ⟨wantsTable config forms, []⟩ := Draft.program_of_blank hblank
  have htable : ∀ f ∈ forms, d.program.table = true ∨ SymbolTable.needed [f] = false := by
    intro f hf
    cases hneeded : SymbolTable.needed [f] with
    | false => exact Or.inr rfl
    | true =>
      left
      rw [hd, wantsTable, SymbolTable.needed_eq_true_iff.2 ⟨f, hf, hneeded⟩, Bool.or_true]
  obtain ⟨es, hes, hprogram⟩ := emitsEach_of_push htable hpush
  rw [hd] at hprogram
  exact ⟨d, d', es, hbegin, hpush, hcompiled, htext.symm, hprogram, hes⟩

/-- Programs that keep declarations and assignments in place compile to statements that do. -/
theorem statements_wellPlaced {floor : Floors} {text : String} (h : compile config ρ forms = .ok text)
    (hforms : ∀ f ∈ forms, f.wellPlaced floor .statement = true) :
    ∃ es, compileProgram config ρ forms = .ok ⟨wantsTable config forms, es⟩ ∧
      text = Program.render config.indent ⟨wantsTable config forms, es⟩ ∧
      ∀ e ∈ es, e.wellPlaced floor .statement = true := by
  obtain ⟨d, d', es, -, -, hcompiled, htext, hprogram, hes⟩ := emitsEach_of_compile h
  have hplaced := hes.wellPlaced (Codegen.compile_wellPlaced _ _) hforms
  rw [hprogram] at hcompiled htext
  exact ⟨es, hcompiled, htext, Expr.wellPlacedEach_iff.1 hplaced⟩

/-- **A program whose declarations are statements has code whose declarations are.** A statement that it
compiles to declares nothing but the target that it is a declaration of. -/
theorem declarations_are_statements {text : String} (h : compile config ρ forms = .ok text)
    (hforms : ∀ f ∈ forms, f.wellPlaced .declarations .statement = true) :
    ∃ es, compileProgram config ρ forms = .ok ⟨wantsTable config forms, es⟩ ∧
      text = Program.render config.indent ⟨wantsTable config forms, es⟩ ∧
      ∀ e ∈ es, e.wellPlaced .declarations .statement = true ∧ e.declared = e.target?.toList := by
  obtain ⟨es, hcompiled, htext, hes⟩ := statements_wellPlaced h hforms
  exact ⟨es, hcompiled, htext, fun e he => ⟨hes e he, Expr.declared_of_wellPlaced rfl (hes e he)⟩⟩

/-- `(var f (fn (x) (var y x)))` and `(f #t)` -/
def declaringFunction : List Form :=
  [.list [.symbol "var", .symbol "f", .list [.symbol "fn", .list [.symbol "x"],
      .list [.symbol "var", .symbol "y", .symbol "x"]]],
    .list [.symbol "f", .literal (.boolean true)]]

theorem declarations_are_statements_declaringFunction :
    ∃ es, compileProgram .default .empty declaringFunction = .ok ⟨false, es⟩ ∧
      ∀ e ∈ es, e.wellPlaced .declarations .statement = true ∧ e.declared = e.target?.toList := by
  obtain ⟨text, hc⟩ := exists_eq_ok_of_isOk (x := compile .default .empty declaringFunction) (by decide +kernel)
  obtain ⟨es, hcompiled, -, hes⟩ := declarations_are_statements hc (by decide +kernel)
  exact ⟨es, hcompiled, hes⟩

/-- A program compiles to one that a test accepts. -/
theorem exists_compileProgram {test : Program → Bool}
    (h : (compileProgram config ρ forms).toOption.any test = true) :
    ∃ p, compileProgram config ρ forms = .ok p ∧ test p = true := by
  cases hp : compileProgram config ρ forms with
  | error e => rw [hp] at h; cases h
  | ok p => rw [hp] at h; exact ⟨p, rfl, h⟩

/-- `(list (var x #t))` -/
def listedDeclaration : List Form :=
  [.list [.symbol "list", .list [.symbol "var", .symbol "x", .literal (.boolean true)]]]

/-- **A declaration can end up in an expression**: the code of a list has a declaration for an item, which no
host takes. -/
theorem exists_declaration_in_expression : ∃ p, compileProgram .default .empty listedDeclaration = .ok p ∧
    p.render "\t" = "[var x = true];" ∧ ∃ e ∈ p.statements, e.wellPlaced .declarations .statement = false := by
  have h : (compileProgram .default .empty listedDeclaration).toOption.any (fun p =>
      p.render "\t" = "[var x = true];" &&
        p.statements.any fun e => !e.wellPlaced .declarations .statement) = true := by
    decide +kernel
  obtain ⟨p, hp, htest⟩ := exists_compileProgram h
  simp only [Bool.and_eq_true, decide_eq_true_eq, List.any_eq_true, Bool.not_eq_true'] at htest
  exact ⟨p, hp, htest⟩

end Compiler

end HostLisp
