import HostLisp.Proofs.HostSemantics
import HostLisp.Proofs.Lexing

/-!
# The text of quoted data

Quoted data is written as literals, calls of the symbol table and arrays. The text can be taken apart again from the
left: its first character tells the type of the data, a string ends at the first quote that is not escaped, and
everything else ends in front of a comma or a bracket that is none of its own.

* `Form.inHost`: a form as the host reads it, which has no negative zero.
* `Form.dataText`, `toList_render_quoted`: the text of quoted data, by recursion on the data.
* `Number.inHost_eq_of_print`, `Text.quote_append_cancel`: numbers and strings with the same text.
* `Form.exists_dataText_eq_cons`: the first character tells the type.
* `Form.inHost_eq_of_append`: **data in front of a delimiter is known from the text**, and so is what stands behind it.
* `render_quoted_eq_iff`: **quoted data is written alike exactly if the host reads it alike.**
-/

namespace HostLisp

open Host Codegen

namespace Form

mutual

/-- The form that the host reads in the text of quoted data: the two zeros are one. -/
def inHost : Form → Form
  | .literal l => .literal l.inHost
  | .symbol name => .symbol name
  | .list items => .list (inHostEach items)

/-- The forms that the host reads in the text of quoted items. -/
def inHostEach : List Form → List Form
  | [] => []
  | f :: fs => inHost f :: inHostEach fs

end

mutual

/-- The text of quoted data. -/
def dataText : Form → List Char
  | .literal l => (literalText l).toList
  | .symbol name => tableName.toList ++ '(' :: ((Text.quote name).toList ++ [')'])
  | .list [] => ['[', ']']
  | .list (f :: fs) => '[' :: (dataText f ++ restText fs)

/-- The text behind an item of an array: the other items, each behind a comma, and the bracket. -/
def restText : List Form → List Char
  | [] => [']']
  | f :: fs => ',' :: ' ' :: (dataText f ++ restText fs)

end

end Form

open Form

mutual

/-- **The text of quoted data**, which has no line to indent. -/
theorem toList_render_quoted (indent : String) : ∀ f : Form, ((quoted f).render indent).toList = f.dataText
  | .literal l => by rw [quoted, Expr.render, dataText]
  | .symbol name => by simp [quoted, Expr.render, dataText]
  | .list [] => by simp [quoted, quotedEach, Expr.render, Expr.renderEach, commas, dataText]
  | .list (f :: fs) => by
    rw [quoted, quotedEach, Expr.render, Expr.renderEach, dataText, String.append_assoc, String.toList_append,
      toList_commas_quotedEach indent fs, toList_render_quoted indent f]
    rfl

/-- The text of items behind a first text. -/
theorem toList_commas_quotedEach (indent : String) : ∀ (fs : List Form) (text : String),
    (commas (text :: Expr.renderEach indent (quotedEach fs)) ++ "]").toList = text.toList ++ restText fs
  | [], text => by simp [quotedEach, Expr.renderEach, commas, restText]
  | f :: fs, text => by
    have hrest := toList_commas_quotedEach indent fs ((quoted f).render indent)
    rw [toList_render_quoted indent f] at hrest
    rw [quotedEach, Expr.renderEach, commas, String.intercalate_cons_cons, String.append_assoc, String.append_assoc,
      String.toList_append, String.toList_append, ← commas, hrest, restText]
    rfl

end

/-! ## Literals -/

/-- Equal numbers are one number in the host. -/
theorem Number.inHost_eq_of_equals {m n : Number} (h : m.equals n = true) :
    (Literal.number m).inHost = (Literal.number n).inHost := by
  cases m with
  | nan => cases h
  | infinite s =>
    cases n with
    | infinite t => simp_all [equals]
    | finite t q => cases h
    | nan => cases h
  | finite s r =>
    cases n with
    | infinite t => cases h
    | nan => cases h
    | finite t q =>
      simp only [equals, Bool.and_eq_true, Bool.or_eq_true, decide_eq_true_eq] at h
      obtain ⟨rfl, rfl | hzero⟩ := h
      · rfl
      · simp [Literal.inHost, equals, zero, Fin.ext_iff, hzero]

/-- Both zeros are written alike. -/
theorem Literal.literalText_inHost (l : Literal) : literalText l.inHost = literalText l := by
  cases l with
  | string => rfl
  | boolean => rfl
  | number n =>
    rw [inHost]
    split
    · rename_i hzero
      cases n with
      | nan => cases hzero
      | infinite => cases hzero
      | finite negative rank =>
        simp only [Number.equals, Number.zero, Bool.and_eq_true, decide_eq_true_eq] at hzero
        simp [literalText, Number.print, Number.zero, hzero.1]
    · rfl

/-- The texts of finite numbers are numerals, and no other texts of numbers are. -/
theorem Number.isSome_read?_print (n : Number) : (Numeral.read? n.print.toList).isSome = n.isFinite := by
  cases n with
  | nan => decide +kernel
  | infinite negative => cases negative <;> decide +kernel
  | finite negative rank =>
    obtain ⟨m, hread, -⟩ := exists_read?_print (n := .finite negative rank) rfl
    rw [hread]
    rfl

/-- **Numbers with the same text are one number in the host.** -/
theorem Number.inHost_eq_of_print {m n : Number} (h : m.print = n.print) :
    (Literal.number m).inHost = (Literal.number n).inHost := by
  have hfinite : m.isFinite = n.isFinite := by rw [← isSome_read?_print, h, isSome_read?_print]
  cases hm : m.isFinite with
  | true =>
    -- the text reads as one number, which equals both
    obtain ⟨k, hk, hkm⟩ := exists_read?_print hm
    obtain ⟨k', hk', hkn⟩ := exists_read?_print (hfinite ▸ hm)
    rw [h, hk', Option.some.injEq] at hk
    rw [← inHost_eq_of_equals hkm, ← inHost_eq_of_equals hkn, hk]
  | false =>
    rw [hm] at hfinite
    have hmem {k : Number} (hk : k.isFinite = false) : k ∈ [nan, infinite false, infinite true] := by
      cases k with
      | finite => cases hk
      | nan => simp
      | infinite negative => cases negative <;> simp
    have hapart : ([nan, infinite false, infinite true].map print).Nodup := by decide
    rw [List.inj_on_of_nodup_map hapart (hmem hm) (hmem hfinite.symm) h]

/-- A character that ends a piece of data. -/
def isDelimiter (c : Char) : Bool := c = ',' || c = ']'

/-- What may stand behind a piece of data: nothing, or a delimiter and more. -/
def Delimited (rest : List Char) : Prop := ∀ c, rest.head? = some c → isDelimiter c = true

theorem delimited_restText (fs : List Form) (rest : List Char) : Delimited (restText fs ++ rest) := by
  cases fs <;> simp [restText, Delimited, isDelimiter]

/-- Texts without delimiters end where the delimiter stands. -/
theorem Delimited.append_cancel {s t rest rest' : List Char} (h : Delimited rest) (h' : Delimited rest')
    (hs : s.any isDelimiter = false) (ht : t.any isDelimiter = false) (heq : s ++ rest = t ++ rest') :
    s = t ∧ rest = rest' := by
  have htake {s rest : List Char} (h : Delimited rest) (hs : s.any isDelimiter = false) :
      (s ++ rest).takeWhile (fun c => !isDelimiter c) = s := by
    rw [List.takeWhile_append_of_pos (by simpa using hs)]
    cases rest with
    | nil => rw [List.takeWhile_nil, List.append_nil]
    | cons c cs => rw [List.takeWhile_cons_of_neg (by simp [h c rfl]), List.append_nil]
  have hst : s = t := by rw [← htake h hs, heq, htake h' ht]
  subst hst
  exact ⟨rfl, List.append_cancel_left heq⟩

/-- **A quoted string ends at its closing quote.** -/
theorem Text.quote_append_cancel {s t : String} {rest rest' : List Char}
    (h : (quote s).toList ++ rest = (quote t).toList ++ rest') : s = t ∧ rest = rest' := by
  have htext (s : String) (rest : List Char) :
      (quote s).toList ++ rest = '"' :: (s.toList.flatMap escape ++ '"' :: rest) := by simp [quote]
  rw [htext, htext, List.cons.injEq] at h
  have hscan := Lexer.scanString_flatMap_escape s.toList rest
  rw [h.2, Lexer.scanString_flatMap_escape] at hscan
  have hchars : t.toList = s.toList := by simpa using congrArg Prod.fst hscan
  obtain rfl := String.toList_injective hchars
  refine ⟨rfl, ?_⟩
  simpa using h.2

/-- The text of a number holds no delimiter. -/
theorem Number.print_undelimited (n : Number) : n.print.toList.any isDelimiter = false := by
  cases n with
  | nan => decide
  | infinite negative => cases negative <;> decide
  | finite negative rank =>
    obtain ⟨text, d, hplain, -, htext⟩ := print_finite negative rank
    have hplain' : text.any isDelimiter = false := by
      refine List.any_eq_false.2 fun c hc hdelimiter => ?_
      rcases hplain.isDigit_or_point c hc with hdigit | rfl
      · simp only [isDelimiter, Bool.or_eq_true, decide_eq_true_eq] at hdelimiter
        rcases hdelimiter with rfl | rfl <;> exact absurd hdigit (by decide)
      · exact absurd hdelimiter (by decide)
    rw [htext]
    split
    · rw [List.any_cons, hplain']
      rfl
    · exact hplain'

/-- **Literals of one type end where the delimiter stands, or at their closing quote.** -/
theorem Literal.inHost_eq_of_append {l m : Literal} (htype : l.typeName = m.typeName) {rest rest' : List Char}
    (h : Delimited rest) (h' : Delimited rest')
    (heq : (literalText l).toList ++ rest = (literalText m).toList ++ rest') :
    l.inHost = m.inHost ∧ rest = rest' := by
  cases l with
  | number a =>
    cases m with
    | number b =>
      obtain ⟨hprint, hrest⟩ := h.append_cancel h' a.print_undelimited b.print_undelimited heq
      exact ⟨Number.inHost_eq_of_print (String.toList_injective hprint), hrest⟩
    | string => simp [typeName] at htype
    | boolean => simp [typeName] at htype
  | string s =>
    cases m with
    | number => simp [typeName] at htype
    | string t =>
      obtain ⟨rfl, hrest⟩ := Text.quote_append_cancel heq
      exact ⟨rfl, hrest⟩
    | boolean => simp [typeName] at htype
  | boolean a =>
    cases m with
    | number => simp [typeName] at htype
    | string => simp [typeName] at htype
    | boolean b =>
      have hword (b : Bool) : (literalText (.boolean b)).toList.any isDelimiter = false := by cases b <;> decide
      obtain ⟨htext, hrest⟩ := h.append_cancel h' (hword a) (hword b) heq
      have hab : a = b := by revert htext; cases a <;> cases b <;> decide
      exact ⟨congrArg (fun b => (boolean b).inHost) hab, hrest⟩

/-! ## Forms -/

/-- The type of the data whose text starts with a character. -/
def leadingType? (c : Char) : Option String :=
  if c = '"' then some "string"
  else if c = 't' ∨ c = 'f' then some "boolean"
  else if c = 's' then some "symbol"
  else if c = '[' then some "list"
  else if c.isDigit ∨ c = '-' ∨ c = 'N' ∨ c = 'I' then some "number"
  else none

theorem leadingType?_of_isDigit {c : Char} (h : c.isDigit = true) : leadingType? c = some "number" := by
  have hne {d : Char} (hd : d.isDigit = false) : c ≠ d := by
    rintro rfl
    rw [h] at hd
    cases hd
  simp [leadingType?, h, hne (d := '"') rfl, hne (d := 't') rfl, hne (d := 'f') rfl, hne (d := 's') rfl,
    hne (d := '[') rfl]

theorem Number.exists_print_eq_cons (n : Number) :
    ∃ c cs, n.print.toList = c :: cs ∧ leadingType? c = some "number" := by
  cases n with
  | nan => exact ⟨_, _, rfl, by decide⟩
  | infinite negative => cases negative <;> exact ⟨_, _, rfl, by decide⟩
  | finite negative rank =>
    obtain ⟨text, d, hplain, -, htext⟩ := print_finite negative rank
    rw [htext]
    split
    · exact ⟨_, _, rfl, by decide⟩
    · obtain ⟨c, cs, rfl, hc⟩ := hplain.exists_cons
      exact ⟨c, cs, rfl, leadingType?_of_isDigit hc⟩

/-- **The text of data starts with a character that tells its type.** -/
theorem Form.exists_dataText_eq_cons (f : Form) :
    ∃ c cs, f.dataText = c :: cs ∧ leadingType? c = some f.typeName := by
  match f with
  | .literal (.number n) =>
    rw [dataText]
    exact n.exists_print_eq_cons
  | .literal (.string s) => exact ⟨'"', _, by rw [dataText, literalText, Text.quote, String.toList_ofList], rfl⟩
  | .literal (.boolean true) => exact ⟨'t', "rue".toList, by rw [dataText]; rfl, rfl⟩
  | .literal (.boolean false) => exact ⟨'f', "alse".toList, by rw [dataText]; rfl, rfl⟩
  | .symbol name => exact ⟨'s', _, by rw [dataText]; rfl, rfl⟩
  | .list [] => exact ⟨'[', _, by rw [dataText], rfl⟩
  | .list (f :: fs) => exact ⟨'[', _, by rw [dataText], rfl⟩

theorem Form.typeName_eq_of_append {f g : Form} {rest rest' : List Char}
    (h : f.dataText ++ rest = g.dataText ++ rest') : f.typeName = g.typeName := by
  obtain ⟨c, cs, hf, hc⟩ := f.exists_dataText_eq_cons
  obtain ⟨d, ds, hg, hd⟩ := g.exists_dataText_eq_cons
  rw [hf, hg, List.cons_append, List.cons_append, List.cons.injEq] at h
  rw [h.1, hd] at hc
  exact (Option.some.inj hc).symm

/-- The text of data does not start like the end of an array. -/
theorem Form.dataText_append_ne (f : Form) (rest rest' : List Char) : f.dataText ++ rest ≠ ']' :: rest' := by
  obtain ⟨c, cs, hf, hc⟩ := f.exists_dataText_eq_cons
  intro h
  rw [hf, List.cons_append, List.cons.injEq] at h
  rw [h.1] at hc
  cases hc

namespace Form

mutual

/-- **Data in front of a delimiter is known from the text**, and so is what stands behind it. -/
theorem inHost_eq_of_append (f g : Form) {rest rest' : List Char} (h : Delimited rest) (h' : Delimited rest')
    (heq : f.dataText ++ rest = g.dataText ++ rest') : f.inHost = g.inHost ∧ rest = rest' := by
  have htype := typeName_eq_of_append heq
  match f, g with
  | .literal l, .literal m =>
    rw [dataText, dataText] at heq
    obtain ⟨hl, hrest⟩ := Literal.inHost_eq_of_append htype h h' heq
    exact ⟨by rw [inHost, inHost, hl], hrest⟩
  | .symbol a, .symbol b =>
    rw [dataText, dataText, List.append_assoc, List.append_assoc] at heq
    have hquoted := List.append_cancel_left heq
    rw [List.cons_append, List.cons_append, List.cons.injEq, List.append_assoc, List.append_assoc] at hquoted
    obtain ⟨rfl, hclose⟩ := Text.quote_append_cancel hquoted.2
    exact ⟨rfl, List.append_cancel_left hclose⟩
  | .list [], .list [] => exact ⟨rfl, List.append_cancel_left heq⟩
  | .list [], .list (g :: gs) =>
    simp only [dataText, List.cons_append, List.append_assoc, List.cons.injEq, true_and] at heq
    exact absurd heq.symm (g.dataText_append_ne _ _)
  | .list (f :: fs), .list [] =>
    simp only [dataText, List.cons_append, List.append_assoc, List.cons.injEq, true_and] at heq
    exact absurd heq (f.dataText_append_ne _ _)
  | .list (f :: fs), .list (g :: gs) =>
    simp only [dataText, List.cons_append, List.append_assoc, List.cons.injEq, true_and] at heq
    obtain ⟨hfirst, hbehind⟩ :=
      inHost_eq_of_append f g (delimited_restText fs rest) (delimited_restText gs rest') heq
    obtain ⟨hitems, hrest⟩ := inHostEach_eq_of_append fs gs hbehind
    exact ⟨by rw [inHost, inHost, inHostEach, inHostEach, hfirst, hitems], hrest⟩
  | .literal l, .symbol _ | .literal l, .list _ => cases l <;> simp [typeName, Literal.typeName] at htype
  | .symbol _, .literal l | .list _, .literal l => cases l <;> simp [typeName, Literal.typeName] at htype
  | .symbol _, .list _ | .list _, .symbol _ => simp [typeName] at htype

theorem inHostEach_eq_of_append (fs gs : List Form) {rest rest' : List Char}
    (heq : restText fs ++ rest = restText gs ++ rest') : inHostEach fs = inHostEach gs ∧ rest = rest' := by
  match fs, gs with
  | [], [] => exact ⟨rfl, List.append_cancel_left heq⟩
  | [], g :: gs => simp [restText] at heq
  | f :: fs, [] => simp [restText] at heq
  | f :: fs, g :: gs =>
    simp only [restText, List.cons_append, List.append_assoc, List.cons.injEq, true_and] at heq
    obtain ⟨hfirst, hbehind⟩ :=
      inHost_eq_of_append f g (delimited_restText fs rest) (delimited_restText gs rest') heq
    obtain ⟨hitems, hrest⟩ := inHostEach_eq_of_append fs gs hbehind
    exact ⟨by rw [inHostEach, inHostEach, hfirst, hitems], hrest⟩

end

mutual

/-- What the host reads alike is written alike. -/
theorem dataText_inHost : ∀ f : Form, f.inHost.dataText = f.dataText
  | .literal l => by rw [inHost, dataText, dataText, l.literalText_inHost]
  | .symbol name => rfl
  | .list [] => rfl
  | .list (f :: fs) => by
    rw [inHost, inHostEach, dataText, dataText, dataText_inHost f, restText_inHostEach fs]

theorem restText_inHostEach : ∀ fs : List Form, restText (inHostEach fs) = restText fs
  | [] => rfl
  | f :: fs => by rw [inHostEach, restText, restText, dataText_inHost f, restText_inHostEach fs]

end

end Form

/-- **Quoted data has an unambiguous text.** Two forms are written alike as quoted data exactly if they are the same
form, up to the sign of zeros. -/
theorem render_quoted_eq_iff (indent indent' : String) (f g : Form) :
    (quoted f).render indent = (quoted g).render indent' ↔ f.inHost = g.inHost := by
  rw [← String.toList_inj, toList_render_quoted, toList_render_quoted]
  constructor
  · intro h
    have hnil : Delimited [] := fun c hc => by cases hc
    exact (Form.inHost_eq_of_append f g hnil hnil (by rw [h])).1
  · intro h
    rw [← Form.dataText_inHost f, h, Form.dataText_inHost]

/-- Quotes, commas and brackets inside a name are not those around names. -/
example : (quoted (.list [.symbol "a\"), symbol(\"b"])).render "" ≠
    (quoted (.list [.symbol "a", .symbol "b"])).render "" := by decide +kernel

end HostLisp
