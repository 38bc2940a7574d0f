import HostLisp.Form.Printer
import HostLisp.Proofs.Grammar
import HostLisp.Proofs.Lexing
import HostLisp.Proofs.Numerals

/-!
# Printed forms read back

* `Form.isPrintable`: a form whose symbols are names that the lexer takes for symbols, and whose numbers
  are finite. Its strings may hold any characters.
* `Form.exists_derives`: the text of a printable form spells tokens that stand for an equal form.
* `read_printAll`: **the text of printable forms reads as those forms**, if they stay within the nesting
  limit. Numbers compare as numbers: negative zero is printed without its sign.
-/

namespace HostLisp

/-- A name that stands for itself in source text: atom characters that start no truth value and no
number. -/
def isSymbolName (name : String) : Bool :=
  name.toList ≠ [] && name.toList.all Lexer.isAtomChar && name.toList.head? ≠ some '#' &&
    !Numeral.looksNumeric name.toList

/-- A literal with a text that reads back. -/
def Literal.isPrintable : Literal → Bool
  | .number n => n.isFinite
  | _ => true

namespace Form

mutual

/-- A form with a text that reads back. -/
def isPrintable : Form → Bool
  | .literal l => l.isPrintable
  | .symbol name => isSymbolName name
  | .list items => isPrintableEach items

/-- Whether all forms have texts that read back. -/
def isPrintableEach : List Form → Bool
  | [] => true
  | f :: fs => isPrintable f && isPrintableEach fs

end

theorem isPrintableEach_iff {fs : List Form} :
    isPrintableEach fs = true ↔ ∀ f ∈ fs, f.isPrintable = true := by
  induction fs with
  | nil => simp [isPrintableEach]
  | cons f fs ih => simp [isPrintableEach, ih]

mutual

theorem depth_eq_of_equals {f g : Form} (h : f.equals g = true) : f.depth = g.depth := by
  match f, g with
  | .literal _, .literal _ => rfl
  | .symbol _, .symbol _ => rfl
  | .list xs, .list ys =>
    rw [equals] at h
    rw [depth, depth, depthEach_eq_of_equalsEach h]
  | .literal _, .symbol _ | .literal _, .list _ | .symbol _, .literal _ | .symbol _, .list _
  | .list _, .literal _ | .list _, .symbol _ => simp [equals] at h

/-- Equal forms nest equally deep. -/
theorem depthEach_eq_of_equalsEach {fs gs : List Form} (h : equalsEach fs gs = true) :
    depthEach fs = depthEach gs := by
  match fs, gs with
  | [], [] => rfl
  | f :: fs, g :: gs =>
    rw [equalsEach, Bool.and_eq_true] at h
    rw [depthEach, depthEach, depth_eq_of_equals h.1, depthEach_eq_of_equalsEach h.2]
  | [], _ :: _ | _ :: _, [] => simp [equalsEach] at h

end

end Form

/-! ## Atoms -/

open Lexer

theorem isAtomChar_of_isDigit {c : Char} (h : c.isDigit = true) : isAtomChar c = true := by
  simp only [Char.isDigit, Bool.and_eq_true, decide_eq_true_eq, ge_iff_le, UInt32.le_iff_toNat_le] at h
  obtain ⟨hlow, hhigh⟩ := h
  have hcode : c ∈ (List.range 10).map fun d => Char.ofNat (48 + d) := by
    refine List.mem_map.2 ⟨c.toNat - 48, ?_, ?_⟩
    · rw [List.mem_range]
      change c.toNat ≤ 57 at hhigh
      omega
    · change 48 ≤ c.toNat at hlow
      rw [Nat.add_sub_cancel' hlow, Char.ofNat_toNat]
  have hdigits : ((List.range 10).map fun d => Char.ofNat (48 + d)).all isAtomChar = true := by decide
  exact List.all_eq_true.1 hdigits c hcode

/-- The text of a finite number is a run of atom characters that has to be a numeral. -/
theorem Number.print_isAtom {n : Number} (h : n.isFinite = true) :
    n.print.toList ≠ [] ∧ (∀ c ∈ n.print.toList, isAtomChar c = true) ∧
      n.print.toList.head? ≠ some '#' ∧ Numeral.looksNumeric n.print.toList = true := by
  cases n with
  | infinite _ => cases h
  | nan => cases h
  | finite negative rank =>
    obtain ⟨text, d, hplain, -, htext⟩ := print_finite negative rank
    have hatom : ∀ c ∈ text, isAtomChar c = true := by
      intro c hc
      rcases hplain.isDigit_or_point c hc with hdigit | rfl
      · exact isAtomChar_of_isDigit hdigit
      · decide
    rw [htext]
    split
    · exact ⟨List.cons_ne_nil _ _, List.forall_mem_cons.2 ⟨by decide, hatom⟩, by simp,
        hplain.looksNumeric_minus⟩
    · obtain ⟨c, cs, rfl, hc⟩ := hplain.exists_cons
      refine ⟨List.cons_ne_nil _ _, hatom, ?_, hplain.looksNumeric⟩
      intro hhash
      obtain rfl := Option.some.inj hhash
      exact absurd hc (by decide)

/-- What a run is that does not start like a truth value. -/
theorem classify_of_head {text : List Char} (h : text.head? ≠ some '#') :
    classify text = if Numeral.looksNumeric text then
        match Numeral.read? text with
        | some n => .number n
        | none => .fault (.invalidNumber (String.ofList text))
      else .symbol (String.ofList text) := by
  unfold classify
  split <;> first | rfl | exact absurd rfl h

theorem Number.exists_spells_print {n : Number} (h : n.isFinite = true) :
    ∃ m, m.equals n = true ∧ Spells n.print.toList [.number m] := by
  obtain ⟨hne, hatom, hhash, hnumeric⟩ := print_isAtom h
  obtain ⟨m, hread, hequal⟩ := exists_read?_print h
  have hkind : classify n.print.toList = .number m := by
    rw [classify_of_head hhash, if_pos hnumeric, hread]
  exact ⟨m, hequal, hkind ▸ Spells.atom hne hatom⟩

theorem spells_symbol {name : String} (h : isSymbolName name = true) : Spells name.toList [.symbol name] := by
  simp only [isSymbolName, Bool.and_eq_true, decide_eq_true_eq, List.all_eq_true, Bool.not_eq_true'] at h
  obtain ⟨⟨⟨hne, hatom⟩, hhash⟩, hnumeric⟩ := h
  have hkind : classify name.toList = .symbol name := by
    rw [classify_of_head hhash, hnumeric, if_neg (by simp), String.ofList_toList]
  exact hkind ▸ Spells.atom hne hatom

theorem spells_boolean (b : Bool) : Spells (Literal.boolean b).print.toList [.boolean b] := by
  cases b with
  | false =>
    have htext : (Literal.boolean false).print.toList = ['#', 'f'] := by decide
    rw [htext]
    exact Spells.atom (by decide) (List.all_eq_true.1 (by decide))
  | true =>
    have htext : (Literal.boolean true).print.toList = ['#', 't'] := by decide
    rw [htext]
    exact Spells.atom (by decide) (List.all_eq_true.1 (by decide))

/-! ## Forms -/

/-- The text of a printable literal spells one token, which stands for an equal literal. -/
theorem Literal.exists_derives {l : Literal} (h : l.isPrintable = true) :
    ∃ (m : Literal) (ks : List TokenKind), m.equals l = true ∧ Spells l.print.toList ks ∧
      Derives ks (.literal m) := by
  cases l with
  | number n =>
    obtain ⟨m, hequal, hspells⟩ := Number.exists_spells_print h
    exact ⟨.number m, _, hequal, hspells, .number m⟩
  | string s => exact ⟨.string s, _, by simp [equals], spells_quote s, .string s⟩
  | boolean b => exact ⟨.boolean b, _, by simp [equals], spells_boolean b, .boolean b⟩

namespace Form

mutual

/-- **The text of a printable form spells tokens that stand for an equal form.** -/
theorem exists_derives {f : Form} (h : f.isPrintable = true) :
    ∃ (g : Form) (ks : List TokenKind), g.equals f = true ∧ Spells f.print.toList ks ∧ Derives ks g := by
  match f with
  | .literal l =>
    rw [isPrintable] at h
    obtain ⟨m, ks, hequal, hspells, hderives⟩ := Literal.exists_derives h
    exact ⟨.literal m, ks, by rwa [equals], by rwa [print], hderives⟩
  | .symbol name =>
    rw [isPrintable] at h
    exact ⟨.symbol name, _, by simp [equals], by rw [print]; exact spells_symbol h, .symbol name⟩
  | .list items =>
    rw [isPrintable] at h
    obtain ⟨gs, kss, hequal, hspells, hderives⟩ := exists_derivesEach h
    have htext : (Form.list items).print.toList =
        '(' :: ([' '].intercalate ((printEach items).map String.toList) ++ [')']) := by
      simp [print, String.toList_intercalate]
    refine ⟨.list gs, _, by rwa [equals], ?_, .list hderives⟩
    rw [htext]
    exact spells_list (spells_intercalate hspells)

/-- The texts of printable forms, each with its tokens, which in a row stand for equal forms. -/
theorem exists_derivesEach {fs : List Form} (h : isPrintableEach fs = true) :
    ∃ (gs : List Form) (kss : List (List TokenKind)), equalsEach gs fs = true ∧
      List.Forall₂ Spells ((printEach fs).map String.toList) kss ∧ DerivesEach kss.flatten gs := by
  match fs with
  | [] => exact ⟨[], [], by simp [equalsEach], .nil, .nil⟩
  | f :: fs =>
    rw [isPrintableEach, Bool.and_eq_true] at h
    obtain ⟨g, ks, hequal, hspells, hderives⟩ := exists_derives h.1
    obtain ⟨gs, kss, hequals, hspellsEach, hderivesEach⟩ := exists_derivesEach h.2
    exact ⟨g :: gs, ks :: kss, by simp [equalsEach, hequal, hequals], .cons hspells hspellsEach,
      .cons hderives hderivesEach⟩

end

end Form

/-- A source whose tokens stand for forms within the nesting limit reads as those forms. -/
theorem read_of_derivesEach {source : String} {fs : List Form} (h : DerivesEach (kinds source.toList) fs)
    (hdepth : Form.depthEach fs ≤ Form.nestingLimit) : read source = .ok fs := by
  refine Reader.all_of_derivesEach h ?_ ?_
  · rfl
  · show 0 + Form.depthEach fs ≤ Form.nestingLimit
    omega

/-- **The text of printable forms within the nesting limit reads as those forms.** -/
theorem read_printAll {fs : List Form} (hprintable : ∀ f ∈ fs, f.isPrintable = true)
    (hdepth : ∀ f ∈ fs, f.nestingDepth ≤ Form.nestingLimit) :
    ∃ gs, read (Form.printAll fs) = .ok gs ∧ Form.equalsEach gs fs = true := by
  obtain ⟨gs, kss, hequal, hspells, hderives⟩ :=
    Form.exists_derivesEach (Form.isPrintableEach_iff.2 hprintable)
  have hkinds : kinds (Form.printAll fs).toList = kss.flatten := by
    rw [Form.printAll, ← Form.printEach_eq_map, String.toList_intercalate]
    exact (spells_intercalate hspells).kinds_eq
  have hlimit : Form.depthEach gs ≤ Form.nestingLimit := by
    rw [Form.depthEach_eq_of_equalsEach hequal, Form.depthEach_le_iff]
    intro f hf
    rw [← Form.nestingDepth_eq_depth]
    exact hdepth f hf
  exact ⟨gs, read_of_derivesEach (hkinds ▸ hderives) hlimit, hequal⟩

/-- A list of a symbol that looks like a sign and a point, the negative number nearest to zero, and a
string of characters that all need an escape; then negative zero and an empty list. -/
def intricateForms : List Form :=
  [.list [.symbol "-.", .literal (.number (Decimal.nearest ⟨5, -324⟩).neg),
      .literal (.string "\"\\\n\t\r\x00\u2028")],
    .literal (.number (Decimal.nearest ⟨0, 0⟩).neg), .list []]

theorem read_printAll_intricateForms :
    (∀ f ∈ intricateForms, f.isPrintable = true) ∧
      (∀ f ∈ intricateForms, f.nestingDepth ≤ Form.nestingLimit) ∧
      ∃ gs, read (Form.printAll intricateForms) = .ok gs ∧ Form.equalsEach gs intricateForms = true := by
  have hprintable : ∀ f ∈ intricateForms, f.isPrintable = true :=
    Form.isPrintableEach_iff.1 (by decide +kernel)
  have hdepth : ∀ f ∈ intricateForms, f.nestingDepth ≤ Form.nestingLimit := by
    intro f hf
    rw [Form.nestingDepth_eq_depth]
    exact Form.depthEach_le_iff.1 (by decide +kernel) f hf
  exact ⟨hprintable, hdepth, read_printAll hprintable hdepth⟩

end HostLisp
