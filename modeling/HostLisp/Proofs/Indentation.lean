import HostLisp.Compiler.Program
import HostLisp.Proofs.Diagnostics
import HostLisp.Proofs.Subexpressions

/-!
# Indentation

Function bodies are indented by writing the indentation behind every line end of the text made so far, once for each
function around it. The text is the same at every indentation but for the indentation itself: each line has a number
of indentations in front, and then a text, and neither depends on what the indentation is.

* `Glyph`, `Indents`: texts as characters, with a number of indentations behind each line end.
* `Indents.indentLines`: to indent a text is to raise these numbers. `Indents.targetText`: whether a text goes into
  brackets is decided by its first character, in front of all indentation.
* `indents_render`: **the text of an expression at every indentation.**
* `Indents.exists_lines`: such texts line by line.
* `Expr.texts`: strings and keys in an expression. `Text.notMem_quote`: they have no line end in them, so that each
  stands in one line.
* `compile_indent`: **with two indentations a program fails alike, or gives the same lines up to the indentation.**
-/

namespace HostLisp

/-! ## Texts inside texts -/

namespace Text

/-- A text stands somewhere in another. -/
def Within (s t : String) : Prop := ∃ before after, t = before ++ s ++ after

namespace Within

variable {s t u : String}

theorem refl (s : String) : Within s s := ⟨"", "", by simp⟩

theorem trans (h : Within s t) (h' : Within t u) : Within s u := by
  obtain ⟨before, after, rfl⟩ := h
  obtain ⟨before', after', rfl⟩ := h'
  exact ⟨before' ++ before, after ++ after', by simp only [String.append_assoc]⟩

theorem left (h : Within s t) (u : String) : Within s (t ++ u) :=
  h.trans ⟨"", u, by simp⟩

theorem right (h : Within s t) (u : String) : Within s (u ++ t) :=
  h.trans ⟨u, "", by simp⟩

theorem intercalate {texts : List String} (hs : s ∈ texts) (sep : String) : Within s (sep.intercalate texts) := by
  induction texts with
  | nil => cases hs
  | cons t texts ih =>
    cases texts with
    | nil =>
      rw [List.mem_singleton.1 hs, String.intercalate_singleton]
      exact refl t
    | cons u texts =>
      rw [String.intercalate_cons_cons]
      rcases List.mem_cons.1 hs with rfl | hs
      · exact ((refl s).left sep).left _
      · exact (ih hs).right _

end Within

/-- A text without line ends that stands in another stands in one of its lines. -/
theorem infix_of_splitOn {w : List Char} (hw : '\n' ∉ w) {cs : List Char} (h : w <:+: cs) :
    ∃ line ∈ cs.splitOn '\n', w <:+: line := by
  obtain ⟨before, after, rfl⟩ := h
  induction before with
  | nil =>
    -- the first line goes on behind the text
    have hhead := head?_splitOn_newline (w ++ after)
    rw [takeWhile_newline_append hw] at hhead
    exact ⟨_, List.mem_of_head? hhead, [], _, rfl⟩
  | cons c before ih =>
    obtain ⟨line, hline, hinfix⟩ := ih
    rw [List.cons_append, List.cons_append, List.splitOn, List.splitOnP_cons_eq_if_modifyHead]
    rw [List.splitOn] at hline
    split_ifs
    · exact ⟨line, List.mem_cons_of_mem _ hline, hinfix⟩
    · cases hlines : List.splitOnP (· == '\n') (before ++ w ++ after) with
      | nil => rw [hlines] at hline; cases hline
      | cons first rest =>
        rw [hlines] at hline
        rcases List.mem_cons.1 hline with rfl | hline
        · exact ⟨c :: line, List.mem_cons_self, hinfix.trans (List.suffix_cons c line).isInfix⟩
        · exact ⟨line, List.mem_cons_of_mem _ hline, hinfix⟩

/-- **A quoted string has no line end in it.** -/
theorem notMem_quote (s : String) : '\n' ∉ (quote s).toList := by
  have hescape (c : Char) : '\n' ∉ escape c := by
    unfold escape
    split_ifs with _ _ hnewline
    · decide
    · decide
    · decide
    · decide
    · decide
    · intro hmem
      rcases List.mem_cons.1 hmem with h | hmem
      · cases h
      · rcases List.mem_cons.1 hmem with h | hmem
        · cases h
        · exact absurd (isHexDigit_hexFour _ _ hmem) (by decide)
    · exact fun hmem => hnewline (List.mem_singleton.1 hmem).symm
  simp only [quote, String.toList_ofList, List.mem_cons, List.mem_append, List.mem_flatMap]
  rintro (h | ⟨c, -, hc⟩ | h)
  · cases h
  · exact hescape c hc
  · simp at h

end Text

namespace Host

/-! ## Texts that only the indentation changes -/

theorem notMem_flatten_replicate {indent : String} (hindent : '\n' ∉ indent.toList) (level : Nat) :
    '\n' ∉ (List.replicate level indent.toList).flatten := by
  simp only [List.mem_flatten, List.mem_replicate]
  rintro ⟨_, ⟨-, rfl⟩, hmem⟩
  exact hindent hmem

/-- A character of a text, and how many indentations stand behind it if it ends a line. -/
structure Glyph where
  char : Char
  level : Nat

namespace Glyph

/-- A character as it is written at an indentation. -/
def write (indent : String) (g : Glyph) : List Char :=
  g.char :: if g.char = '\n' then (List.replicate g.level indent.toList).flatten else []

/-- A character inside one more function. -/
def deeper (g : Glyph) : Glyph := { g with level := g.level + 1 }

/-- **To indent what is written is to write it deeper.** -/
theorem indent_write {indent : String} (hindent : '\n' ∉ indent.toList) (g : Glyph) :
    (g.write indent).flatMap (fun c => if c = '\n' then '\n' :: indent.toList else [c]) = g.deeper.write indent := by
  -- the indentation that is there has no line end, so it stays as it is
  have hstays (cs : List Char) (hcs : '\n' ∉ cs) :
      cs.flatMap (fun c => if c = '\n' then '\n' :: indent.toList else [c]) = cs := by
    induction cs with
    | nil => rfl
    | cons c cs ih =>
      obtain ⟨hc, hcs⟩ := not_or.1 (mt List.mem_cons.2 hcs)
      rw [List.flatMap_cons, if_neg (Ne.symm hc), ih hcs, List.singleton_append]
  by_cases hg : g.char = '\n'
  · simp only [write, deeper, hg, if_true, List.flatMap_cons, List.replicate_succ, List.flatten_cons,
      List.cons_append, hstays _ (notMem_flatten_replicate hindent g.level)]
  · simp only [write, deeper, hg, if_false, List.flatMap_cons, List.flatMap_nil, List.append_nil]

end Glyph

/-- Characters as they are written at an indentation. -/
def written (indent : String) (gs : List Glyph) : List Char := gs.flatMap (Glyph.write indent)

theorem written_append (indent : String) (gs hs : List Glyph) :
    written indent (gs ++ hs) = written indent gs ++ written indent hs :=
  List.flatMap_append

/-- **A text for each indentation that is always the same but for the indentation.** -/
def Indents (text : String → String) : Prop :=
  ∃ gs : List Glyph, ∀ indent, '\n' ∉ indent.toList → (text indent).toList = written indent gs

theorem indents_const (s : String) : Indents fun _ => s := by
  refine ⟨s.toList.map fun c => ⟨c, 0⟩, fun indent _ => ?_⟩
  have hsingle (c : Char) : Glyph.write indent ⟨c, 0⟩ = [c] := by simp [Glyph.write]
  simp only [written, List.flatMap_map, hsingle, List.flatMap_singleton']

namespace Indents

variable {f g : String → String}

theorem congr (hf : Indents f) (h : ∀ indent, '\n' ∉ indent.toList → g indent = f indent) : Indents g := by
  obtain ⟨gs, hgs⟩ := hf
  exact ⟨gs, fun indent hindent => by rw [h indent hindent, hgs indent hindent]⟩

theorem append (hf : Indents f) (hg : Indents g) : Indents fun indent => f indent ++ g indent := by
  obtain ⟨gs, hgs⟩ := hf
  obtain ⟨hs, hhs⟩ := hg
  refine ⟨gs ++ hs, fun indent hindent => ?_⟩
  rw [String.toList_append, written_append, hgs indent hindent, hhs indent hindent]

theorem intercalate (sep : String) {texts : List (String → String)} (h : ∀ text ∈ texts, Indents text) :
    Indents fun indent => sep.intercalate (texts.map fun text => text indent) := by
  induction texts with
  | nil => exact indents_const _
  | cons text texts ih =>
    obtain ⟨htext, htexts⟩ := List.forall_mem_cons.1 h
    cases texts with
    | nil => exact htext.congr fun indent _ => String.intercalate_singleton
    | cons next texts =>
      exact ((htext.append (indents_const sep)).append (ih htexts)).congr fun indent _ =>
        String.intercalate_cons_cons

/-- **To indent a text is to raise its numbers of indentations.** -/
theorem indentLines (hf : Indents f) : Indents fun indent => indentLines indent (f indent) := by
  obtain ⟨gs, hgs⟩ := hf
  refine ⟨gs.map Glyph.deeper, fun indent hindent => ?_⟩
  simp only [Host.indentLines, String.toList_ofList, hgs indent hindent, written, List.flatMap_assoc, List.flatMap_map]
  exact List.flatMap_congr fun g _ => Glyph.indent_write hindent g

/-- Whether a text goes into brackets is decided by its first character. -/
theorem targetText (hf : Indents f) : Indents fun indent => targetText (f indent) := by
  obtain ⟨gs, hgs⟩ := hf
  have hhead (indent : String) : (written indent gs).head? = gs.head?.map Glyph.char := by
    cases gs with
    | nil => rfl
    | cons g gs => rfl
  have hbare : Indents f := ⟨gs, hgs⟩
  by_cases hdigit : (gs.head?.map Glyph.char).any fun c => c.isDigit || c = '-'
  · refine (((indents_const "(").append hbare).append (indents_const ")")).congr fun indent hindent => ?_
    rw [Host.targetText, hgs indent hindent, hhead, if_pos hdigit]
  · refine hbare.congr fun indent hindent => ?_
    rw [Host.targetText, hgs indent hindent, hhead, if_neg hdigit]

theorem memberText (hf : Indents f) (key : String) : Indents fun indent => memberText (f indent) key := by
  unfold Host.memberText
  split_ifs
  · exact (hf.targetText.append (indents_const ".")).append (indents_const key)
  · exact ((hf.targetText.append (indents_const "[")).append (indents_const _)).append (indents_const "]")

/-- **The text of a function indents with the lines of its body.** -/
theorem functionText (params : Parameters) {lines : List (String → String)} (h : ∀ line ∈ lines, Indents line) :
    Indents fun indent => functionText indent params (lines.map fun line => line indent) := by
  have hpreamble : ∀ line ∈ (preamble params).map (fun line (_ : String) => line) ++ lines, Indents line := by
    intro line hline
    rcases List.mem_append.1 hline with hline | hline
    · obtain ⟨text, -, rfl⟩ := List.mem_map.1 hline
      exact indents_const text
    · exact h line hline
  have hbody := (indents_const "\n").append (intercalate "\n" hpreamble)
  have hwhole := (((indents_const ("(function (" ++ parameterText params ++ ") \x7b")).append
    hbody.indentLines).append (indents_const "\n\x7d)"))
  refine hwhole.congr fun indent _ => ?_
  -- the indentation of the first line stands behind the line end in front of it
  have hfirst (text : String) :
      Host.indentLines indent ("\n" ++ text) = "\n" ++ indent ++ Host.indentLines indent text := by
    apply String.toList_injective
    simp [Host.indentLines]
  have hbrace : ") \x7b\n" = ") \x7b" ++ "\n" := rfl
  rw [hfirst, Host.functionText, hbrace]
  simp only [List.map_append, List.map_map, Function.comp_def, List.map_id', String.append_assoc]

end Indents

/-- **The text of an expression is the same at every indentation but for the indentation.** -/
theorem indents_render (e : Expr) : Indents fun indent => e.render indent := by
  induction e using Expr.induction_on_components with
  | h e ih =>
    -- texts side by side, as families over the indentation
    have heach (sep : String) (es : List Expr) (hes : ∀ c ∈ es, Indents fun indent => c.render indent) :
        Indents fun indent => sep.intercalate (Expr.renderEach indent es) := by
      have hfamilies : ∀ text ∈ es.map (fun c indent => c.render indent), Indents text := List.forall_mem_map.2 hes
      refine (Indents.intercalate sep hfamilies).congr fun indent _ => ?_
      rw [Expr.renderEach_eq, List.map_map]
      rfl
    cases e with
    | literal l => exact indents_const _
    | identifier target => exact indents_const _
    | intern name => exact indents_const _
    | array items => exact ((indents_const "[").append (heach ", " items ih)).append (indents_const "]")
    | concat pieces => exact ((indents_const "(").append (heach ").concat(" pieces ih)).append (indents_const ")")
    | object fields =>
      have hfields : ∀ text ∈ fields.map (fun f indent => keyText f.1 ++ ": " ++ f.2.render indent), Indents text := by
        rw [List.forall_mem_map]
        exact fun f hf => (indents_const (keyText f.1 ++ ": ")).append (ih f.2 (List.mem_map_of_mem hf))
      refine (((indents_const "(\x7b").append (Indents.intercalate ", " hfields)).append
        (indents_const "\x7d)")).congr fun indent _ => ?_
      rw [Expr.render, Expr.renderFields_eq, List.map_map]
      rfl
    | conditional test consequent alternative =>
      simp only [Expr.components, List.forall_mem_cons] at ih
      obtain ⟨ht, hc, ha, -⟩ := ih
      exact ((((((indents_const "(").append ht).append (indents_const " ? ")).append hc).append
        (indents_const " : ")).append ha).append (indents_const ")")
    | function params leading result =>
      simp only [Expr.components, List.forall_mem_append, List.forall_mem_singleton] at ih
      have hlines : ∀ line ∈ leading.map (fun c indent => c.render indent ++ ";") ++
          [fun indent => "return " ++ result.render indent ++ ";"], Indents line := by
        simp only [List.forall_mem_append, List.forall_mem_map, List.forall_mem_singleton]
        exact ⟨fun c hc => (ih.1 c hc).append (indents_const ";"),
          ((indents_const "return ").append ih.2).append (indents_const ";")⟩
      refine (Indents.functionText params hlines).congr fun indent _ => ?_
      rw [Expr.render, Expr.renderEach_eq, List.map_append, List.map_map, List.map_map]
      rfl
    | call callee args =>
      obtain ⟨hcallee, hargs⟩ := List.forall_mem_cons.1 ih
      exact ((hcallee.append (indents_const "(")).append (heach ", " args hargs)).append (indents_const ")")
    | index target key =>
      simp only [Expr.components, List.forall_mem_cons] at ih
      exact ((ih.1.targetText.append (indents_const "[")).append ih.2.1).append (indents_const "]")
    | member target key =>
      simp only [Expr.components, List.forall_mem_singleton] at ih
      exact ih.memberText key
    | assign place value =>
      simp only [Expr.components, List.forall_mem_cons] at ih
      exact (ih.1.append (indents_const " = ")).append ih.2.1
    | declare target init =>
      simp only [Expr.components, List.forall_mem_singleton] at ih
      exact (indents_const ("var " ++ target ++ " = ")).append ih

theorem indents_program (p : Program) : Indents fun indent => p.render indent := by
  have hstatements : ∀ text ∈ (if p.table then [fun _ => tableDefinition] else []) ++
      p.statements.map (fun e indent => e.render indent ++ ";"), Indents text := by
    rw [List.forall_mem_append, List.forall_mem_map]
    refine ⟨fun text htext => ?_, fun e _ => (indents_render e).append (indents_const ";")⟩
    split at htext
    · rw [List.mem_singleton.1 htext]
      exact indents_const _
    · cases htext
  refine (Indents.intercalate "\n" hstatements).congr fun indent _ => ?_
  unfold Program.render
  cases p.table <;> simp [Function.comp_def]

/-! ## Lines -/

/-- A line: how many indentations it starts with, and the text behind them. -/
structure Line where
  level : Nat
  text : String

/-- A line as it is written at an indentation. -/
def Line.write (indent : String) (l : Line) : List Char :=
  (List.replicate l.level indent.toList).flatten ++ l.text.toList

theorem Line.write_empty (l : Line) : l.write "" = l.text.toList := by
  simp [Line.write]

/-- The lines of some characters, behind the start of a line. -/
def linesFrom (level : Nat) (start : List Char) : List Glyph → List Line
  | [] => [⟨level, String.ofList start⟩]
  | g :: gs =>
    if g.char = '\n' then ⟨level, String.ofList start⟩ :: linesFrom g.level [] gs
    else linesFrom level (start ++ [g.char]) gs

/-- **What is written, line by line.** -/
theorem splitOn_written {indent : String} (hindent : '\n' ∉ indent.toList) (gs : List Glyph) (level : Nat)
    {start : List Char} (hstart : '\n' ∉ start) :
    ((List.replicate level indent.toList).flatten ++ start ++ written indent gs).splitOn '\n' =
      (linesFrom level start gs).map (Line.write indent) := by
  have hone (level : Nat) {start : List Char} (hstart : '\n' ∉ start) :
      ((List.replicate level indent.toList).flatten ++ start).splitOn '\n' =
        [Line.write indent ⟨level, String.ofList start⟩] := by
    have hfront : '\n' ∉ (List.replicate level indent.toList).flatten ++ start :=
      List.not_mem_append (notMem_flatten_replicate hindent level) hstart
    rw [Line.write, String.toList_ofList]
    refine List.splitOnP_eq_singleton fun c hc => ?_
    simpa using ne_of_mem_of_not_mem hc hfront
  induction gs generalizing level start with
  | nil =>
    rw [written, List.flatMap_nil, List.append_nil, linesFrom, List.map_singleton]
    exact hone level hstart
  | cons g gs ih =>
    rw [linesFrom, written, List.flatMap_cons, Glyph.write]
    by_cases hg : g.char = '\n'
    · -- a line ends here, and the next one starts with the indentations of the line end
      have hnext := ih g.level List.not_mem_nil
      rw [List.append_nil] at hnext
      rw [if_pos hg, if_pos hg, hg, List.cons_append, List.map_cons, ← hnext, List.splitOn,
        List.splitOnP_append_cons _ _ (by simp)]
      exact congrArg (· ++ _) (hone level hstart)
    · have hgrown : '\n' ∉ start ++ [g.char] := by
        simp only [List.mem_append, List.mem_singleton, not_or]
        exact ⟨hstart, Ne.symm hg⟩
      have hsame := ih level hgrown
      rw [if_neg hg, if_neg hg, ← hsame]
      simp only [written, List.append_assoc, List.singleton_append]

/-- **Texts that only the indentation changes have the same lines up to the indentation.** -/
theorem Indents.exists_lines {text : String → String} (h : Indents text) : ∃ lines : List Line,
    ∀ indent, '\n' ∉ indent.toList → (text indent).toList.splitOn '\n' = lines.map (Line.write indent) := by
  obtain ⟨gs, hgs⟩ := h
  refine ⟨linesFrom 0 [] gs, fun indent hindent => ?_⟩
  have hlines := splitOn_written hindent gs 0 List.not_mem_nil
  rw [hgs indent hindent]
  simpa using hlines

/-! ## Strings and keys -/

theorem notMem_keyText (key : String) : '\n' ∉ (keyText key).toList := by
  unfold keyText
  split
  · rename_i hname
    unfold isIdentifierName at hname
    intro hmem
    cases hkey : key.toList with
    | nil => rw [hkey] at hmem; cases hmem
    | cons c cs =>
      rw [hkey] at hname hmem
      simp only [Bool.and_eq_true, List.all_eq_true] at hname
      rcases List.mem_cons.1 hmem with rfl | hmem
      · exact absurd hname.1 (by decide)
      · exact absurd (hname.2 _ hmem) (by decide)
  · exact Text.notMem_quote key

namespace Expr

/-- The strings and the keys that an expression writes down itself. -/
def ownTexts : Expr → List String
  | .literal (.string s) => [Text.quote s]
  | .intern name => [Text.quote name]
  | .object fields => fields.map fun f => keyText f.1
  | .member _ key => [keyText key]
  | _ => []

/-- **The strings and the keys in an expression**, as they are written. -/
def texts (e : Expr) : List String := e.collect ownTexts

theorem notMem_of_mem_ownTexts {e : Expr} {w : String} (hw : w ∈ e.ownTexts) : '\n' ∉ w.toList := by
  unfold ownTexts at hw
  split at hw
  · rw [List.mem_singleton.1 hw]
    exact Text.notMem_quote _
  · rw [List.mem_singleton.1 hw]
    exact Text.notMem_quote _
  · obtain ⟨f, -, rfl⟩ := List.mem_map.1 hw
    exact notMem_keyText f.1
  · rw [List.mem_singleton.1 hw]
    exact notMem_keyText _
  · cases hw

theorem notMem_of_mem_texts {e : Expr} {w : String} (hw : w ∈ e.texts) : '\n' ∉ w.toList := by
  obtain ⟨c, -, hc⟩ := List.mem_flatMap.1 hw
  exact notMem_of_mem_ownTexts hc

end Expr

open Text

theorem indentLines_empty (text : String) : indentLines "" text = text := by
  have hsingle : (fun c : Char => if c = '\n' then '\n' :: "".toList else [c]) = fun c => [c] := by
    funext c
    split_ifs with hc
    · rw [hc]; rfl
    · rfl
  rw [indentLines, hsingle, List.flatMap_singleton', String.ofList_toList]

theorem within_targetText (text : String) : Within text (targetText text) := by
  unfold targetText
  split_ifs
  · exact ((Within.refl text).right "(").left ")"
  · exact .refl text

/-- A key behind a point or in brackets. -/
theorem within_memberText (text key : String) : Within text (memberText text key) ∧
    Within (keyText key) (memberText text key) := by
  have htarget := within_targetText text
  unfold memberText keyText
  split_ifs
  · exact ⟨(htarget.left ".").left key, (Within.refl key).right _⟩
  · exact ⟨((htarget.left "[").left _).left "]", ((Within.refl _).right _).left "]"⟩

/-- The lines of a function body stand in its text, without indentation as they are. -/
theorem within_functionText {params : Parameters} {lines : List String} {line : String} (h : line ∈ lines) :
    Within line (functionText "" params lines) := by
  have hline := Within.intercalate (List.mem_append_right (preamble params) h) "\n"
  rw [functionText, indentLines_empty]
  exact (hline.right _).left _

namespace Expr

/-- A field stands in the text of an object. -/
theorem within_fields {fields : List (String × Expr)} {f : String × Expr} (hf : f ∈ fields) :
    Within (keyText f.1 ++ ": " ++ f.2.render "") (commas (renderFields "" fields)) := by
  rw [renderFields_eq]
  exact .intercalate (List.mem_map.2 ⟨f, hf, rfl⟩) ", "

/-- **Without indentation, the text of an expression stands in that of an expression around it.** -/
theorem within_render_of_mem_components {e k : Expr} (hk : k ∈ e.components) : Within (k.render "") (e.render "") := by
  have heach {es : List Expr} (hes : k ∈ es) (sep : String) :
      Within (k.render "") (sep.intercalate (renderEach "" es)) := by
    rw [renderEach_eq]
    exact .intercalate (List.mem_map_of_mem hes) sep
  have hself := Within.refl (k.render "")
  cases e with
  | literal | identifier | intern => cases hk
  | array items => exact ((heach hk ", ").right "[").left "]"
  | concat pieces => exact ((heach hk ").concat(").right "(").left ")"
  | object fields =>
    obtain ⟨f, hf, rfl⟩ := List.mem_map.1 hk
    have hfield := hself.right (keyText f.1 ++ ": ")
    exact ((hfield.trans (within_fields hf)).right _).left _
  | conditional test consequent alternative =>
    simp only [components, List.mem_cons, List.not_mem_nil, or_false] at hk
    rw [render]
    rcases hk with rfl | rfl | rfl
    · exact (((((hself.right "(").left _).left _).left _).left _).left ")"
    · exact (((hself.right _).left _).left _).left ")"
    · exact (hself.right _).left ")"
  | function params leading result =>
    rw [render]
    rcases List.mem_append.1 hk with hk | hk
    · refine (hself.left ";").trans (within_functionText (List.mem_append_left _ ?_))
      rw [renderEach_eq]
      exact List.mem_map_of_mem (List.mem_map_of_mem hk)
    · rw [List.mem_singleton.1 hk]
      exact (((Within.refl _).right "return ").left ";").trans
        (within_functionText (List.mem_append_right _ (List.mem_singleton_self _)))
  | call callee args =>
    rw [render]
    rcases List.mem_cons.1 hk with rfl | hk
    · exact ((hself.left _).left _).left ")"
    · exact ((heach hk ", ").right _).left ")"
  | index target key =>
    simp only [components, List.mem_cons, List.not_mem_nil, or_false] at hk
    rw [render]
    rcases hk with rfl | rfl
    · exact (((within_targetText _).left _).left _).left "]"
    · exact (hself.right _).left "]"
  | member target key =>
    rw [components, List.mem_singleton] at hk
    subst hk
    exact (within_memberText _ key).1
  | assign place value =>
    simp only [components, List.mem_cons, List.not_mem_nil, or_false] at hk
    rw [render]
    rcases hk with rfl | rfl
    · exact (hself.left _).left _
    · exact hself.right _
  | declare target init =>
    rw [components, List.mem_singleton] at hk
    subst hk
    exact hself.right _

theorem within_render_of_mem_ownTexts {e : Expr} {w : String} (hw : w ∈ e.ownTexts) : Within w (e.render "") := by
  unfold ownTexts at hw
  split at hw
  · rw [List.mem_singleton.1 hw]
    exact .refl _
  · rw [List.mem_singleton.1 hw]
    exact ((Within.refl _).right _).left ")"
  · rename_i fields
    obtain ⟨f, hf, rfl⟩ := List.mem_map.1 hw
    have hfield := ((Within.refl (keyText f.1)).left ": ").left (f.2.render "")
    exact ((hfield.trans (within_fields hf)).right _).left _
  · rw [List.mem_singleton.1 hw]
    exact (within_memberText _ _).2
  · cases hw

/-- **The strings and the keys of an expression stand in its text.** -/
theorem within_render_of_mem_texts {e : Expr} {w : String} (hw : w ∈ e.texts) : Within w (e.render "") := by
  induction e using induction_on_components with
  | h e ih =>
    rw [texts, collect_eq, List.mem_append, List.mem_flatMap] at hw
    rcases hw with hw | ⟨c, hc, hw⟩
    · exact within_render_of_mem_ownTexts hw
    · exact (ih c hc hw).trans (within_render_of_mem_components hc)

end Expr

theorem Program.within_render {p : Program} {e : Expr} (he : e ∈ p.statements) :
    Within (e.render "") (p.render "") := by
  have hstatement : e.render "" ++ ";" ∈ p.statements.map fun e => e.render "" ++ ";" :=
    List.mem_map_of_mem (f := fun e : Expr => e.render "" ++ ";") he
  refine ((Within.refl _).left ";").trans (.intercalate ?_ "\n")
  split
  · exact List.mem_cons_of_mem _ hstatement
  · exact hstatement

/-- A text without line ends that stands in a text stands in one of its lines. -/
theorem exists_line_of_within {text w : String} {lines : List Line} (hw : '\n' ∉ w.toList)
    (hlines : text.toList.splitOn '\n' = lines.map (Line.write "")) (h : Within w text) :
    ∃ l ∈ lines, Within w l.text := by
  obtain ⟨before, after, rfl⟩ := h
  have hinfix : w.toList <:+: (before ++ w ++ after).toList := by
    simp only [String.toList_append]
    exact List.infix_append _ _ _
  obtain ⟨line, hline, front, back, hfront⟩ := Text.infix_of_splitOn hw hinfix
  rw [hlines] at hline
  obtain ⟨l, hl, rfl⟩ := List.mem_map.1 hline
  rw [Line.write_empty] at hfront
  refine ⟨l, hl, String.ofList front, String.ofList back, ?_⟩
  apply String.toList_injective
  simp only [String.toList_append, String.toList_ofList, hfront]

end Host

/-! ## Programs -/

namespace Compiler

open Host

/-- The same way to compile with another indentation. -/
def Config.withIndent (config : Config) (indent : String) : Config := { config with indent }

/-- **Indentation only changes indentation.** With two indentations that have no line end in them a program fails with
the same error, or it gives texts with the same lines: each has the same number of indentations in front and the same
text behind them. Every string and every key in the code stands whole in one of these texts. -/
theorem compile_indent (config : Config) (ρ : Renaming) (forms : List Form) {a b : String} (ha : '\n' ∉ a.toList)
    (hb : '\n' ∉ b.toList) :
    (∃ e, compile (config.withIndent a) ρ forms = .error e ∧ compile (config.withIndent b) ρ forms = .error e) ∨
      ∃ (p : Program) (text text' : String) (lines : List Line),
        compileProgram (config.withIndent a) ρ forms = .ok p ∧ compileProgram (config.withIndent b) ρ forms = .ok p ∧
        compile (config.withIndent a) ρ forms = .ok text ∧ compile (config.withIndent b) ρ forms = .ok text' ∧
        text.toList.splitOn '\n' = lines.map (Line.write a) ∧ text'.toList.splitOn '\n' = lines.map (Line.write b) ∧
        ∀ e ∈ p.statements, ∀ w ∈ e.texts, ∃ l ∈ lines, Text.Within w l.text := by
  -- the program does not depend on the indentation, only its text does
  have hsame (indent : String) :
      compileProgram (config.withIndent indent) ρ forms = compileProgram config ρ forms := rfl
  have hcompile (indent : String) : compile (config.withIndent indent) ρ forms =
      (compileProgram config ρ forms).map fun p => p.render indent := rfl
  simp only [hsame, hcompile]
  cases compileProgram config ρ forms with
  | error e => exact Or.inl ⟨e, rfl, rfl⟩
  | ok p =>
    right
    obtain ⟨lines, hlines⟩ := (indents_program p).exists_lines
    refine ⟨p, _, _, lines, rfl, rfl, rfl, rfl, hlines a ha, hlines b hb, fun e he w hw => ?_⟩
    refine exists_line_of_within (Expr.notMem_of_mem_texts hw) (hlines "" (by simp)) ?_
    exact (Expr.within_render_of_mem_texts hw).trans (Program.within_render he)

/-- `(fn (x) (fn () "a\nb"))` -/
def nestedFunctions : List Form :=
  [.list [.symbol "fn", .list [.symbol "x"], .list [.symbol "fn", .list [], .literal (.string "a\nb")]]]

/-- A function in a function: the lines of the inner one start with two indentations, and the line end of the string
in it stays a part of the string. -/
theorem compile_indent_nestedFunctions : '\n' ∉ "\t".toList ∧ '\n' ∉ "  ".toList ∧
    ∃ (text text' : String) (lines : List Line),
      compile (Config.default.withIndent "\t") .empty nestedFunctions = .ok text ∧
      compile (Config.default.withIndent "  ") .empty nestedFunctions = .ok text' ∧
      text.toList.splitOn '\n' = lines.map (Line.write "\t") ∧
      text'.toList.splitOn '\n' = lines.map (Line.write "  ") ∧
      ∃ l ∈ lines, Text.Within (Text.quote "a\nb") l.text := by
  have htab : '\n' ∉ "\t".toList := by decide
  have hspaces : '\n' ∉ "  ".toList := by decide
  have htexts : (compileProgram (Config.default.withIndent "\t") .empty nestedFunctions).toOption.map
      (fun p => p.statements.map Expr.texts) = some [[Text.quote "a\nb"]] := by decide +kernel
  refine ⟨htab, hspaces, ?_⟩
  rcases compile_indent Config.default .empty nestedFunctions htab hspaces with
    ⟨e, he, -⟩ | ⟨p, text, text', lines, hp, -, htext, htext', hlines, hlines', hall⟩
  · rw [compile] at he
    cases hp : compileProgram (Config.default.withIndent "\t") .empty nestedFunctions with
    | error => rw [hp] at htexts; cases htexts
    | ok => rw [hp] at he; cases he
  · rw [hp] at htexts
    refine ⟨text, text', lines, htext, htext', hlines, hlines', ?_⟩
    cases hstatements : p.statements with
    | nil => simp [Except.toOption, hstatements] at htexts
    | cons e rest =>
      have he : e.texts = [Text.quote "a\nb"] := by
        simp only [Except.toOption, Option.map_some, hstatements, List.map_cons, Option.some.injEq,
          List.cons.injEq] at htexts
        exact htexts.1
      exact hall e (by simp [hstatements]) _ (by simp [he])

end Compiler

end HostLisp
