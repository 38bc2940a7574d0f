import HostLisp.Proofs.ReadBack
import HostLisp.Proofs.Recognition

/-!
# Texts that are read, printed and read again

A numeral may be too large for any finite number, and then stands for infinity. Infinity has no numeral of
its own: it is printed as a name, and the name reads as a symbol. Everything else that can be read prints as
a text that reads back.

* `TokenKind.isSound`, `Lexer.isSound_of_mem_kinds`: the values that tokens can have.
* `Form.isReadable`, `Derives.isReadable`: the forms that can be read.
* `Form.spelled`: the form that the text of a form spells, which has a symbol for each infinite number.
* `reread_equals_iff`: **what was read prints as a text that reads again**, and as equal forms exactly if all
  its numbers are finite.
-/

namespace HostLisp

/-! ## What the lexer gives -/

/-- Values that tokens can have: numbers other than `nan`, and names that stand for themselves. -/
def TokenKind.isSound : TokenKind → Bool
  | .number n => n ≠ .nan
  | .symbol name => isSymbolName name
  | _ => true

theorem Decimal.nearest_ne_nan (d : Decimal) : d.nearest ≠ .nan := by
  unfold Decimal.nearest Number.ofRank
  split <;> simp

theorem Number.neg_ne_nan {n : Number} (h : n ≠ .nan) : n.neg ≠ .nan := by
  cases n <;> simp_all [neg]

namespace Numeral

theorem readHex?_ne_nan {text : List Char} {n : Number} (h : readHex? text = some n) : n ≠ .nan := by
  simp only [readHex?, Option.ite_none_right_eq_some, Option.some.injEq] at h
  obtain ⟨-, rfl⟩ := h
  exact Decimal.nearest_ne_nan _

theorem readDecimal?_ne_nan {text : List Char} {n : Number} (h : readDecimal? text = some n) : n ≠ .nan := by
  simp only [readDecimal?, Option.ite_none_left_eq_some, Option.map_eq_some_iff] at h
  obtain ⟨-, exponent, -, rfl⟩ := h
  exact Decimal.nearest_ne_nan _

/-- No numeral stands for `nan`. -/
theorem read?_ne_nan {text : List Char} {n : Number} (h : read? text = some n) : n ≠ .nan := by
  simp only [read?] at h
  obtain ⟨m, hm, rfl⟩ := Option.map_eq_some_iff.1 h
  have hmagnitude : m ≠ .nan := by
    unfold readUnsigned? at hm
    split at hm
    · exact readHex?_ne_nan hm
    · exact readHex?_ne_nan hm
    · exact readDecimal?_ne_nan hm
  split
  · exact Number.neg_ne_nan hmagnitude
  · exact hmagnitude

end Numeral

namespace Lexer

open Text

/-- A run of atom characters stands for a value that tokens can have. -/
theorem isSound_classify {text : List Char} (hne : text ≠ []) (h : ∀ c ∈ text, isAtomChar c = true) :
    (classify text).isSound = true := by
  by_cases hhash : text.head? = some '#'
  · obtain ⟨rest, rfl⟩ : ∃ rest, text = '#' :: rest := by
      obtain ⟨c, cs, rfl⟩ := List.exists_cons_of_ne_nil hne
      exact ⟨cs, by rw [Option.some.inj hhash]⟩
    unfold classify
    split
    · rfl
    · rfl
    · rfl
    · rename_i hother
      exact absurd rfl (hother rest)
  · rw [classify_of_head hhash]
    split
    · split
      · rename_i n hread
        simpa [TokenKind.isSound] using Numeral.read?_ne_nan hread
      · rfl
    · rename_i hnumeric
      have hnumeric' : Numeral.looksNumeric text = false := by simpa using hnumeric
      simp only [TokenKind.isSound, isSymbolName, String.toList_ofList, Bool.and_eq_true, decide_eq_true_eq,
        List.all_eq_true, Bool.not_eq_true']
      exact ⟨⟨⟨hne, h⟩, hhash⟩, hnumeric'⟩

theorem isSound_scan {c : Char} (h : isBlank c = false) (rest : List Char) :
    (scan c rest).1.isSound = true := by
  by_cases hatom : isAtomChar c = true
  · rw [scan_of_isAtomChar hatom]
    refine isSound_classify (List.cons_ne_nil _ _) (List.forall_mem_cons.2 ⟨hatom, ?_⟩)
    exact fun d hd => List.mem_takeWhile_imp hd
  · -- a character that is neither blank nor of an atom is a delimiter
    have hdelimiter : c ∈ delimiters := by simpa [isAtomChar, h] using hatom
    simp only [delimiters, List.mem_cons, List.not_mem_nil, or_false] at hdelimiter
    rcases hdelimiter with rfl | rfl | rfl | rfl | rfl | rfl | rfl
    all_goals simp only [scan]
    all_goals first | rfl | split <;> rfl

/-- **The tokens of a text have values that tokens can have.** -/
theorem isSound_of_mem_kinds {cs : List Char} {k : TokenKind} (h : k ∈ kinds cs) : k.isSound = true := by
  -- a token takes any number of characters, so the induction is on the length of the text
  induction hlen : cs.length using Nat.strongRecOn generalizing cs with | ind n ih
  cases cs with
  | nil => simp at h
  | cons c rest =>
    cases hblank : isBlank c with
    | true =>
      rw [kinds_blank hblank] at h
      exact ih rest.length (by simp [← hlen]) h rfl
    | false =>
      rw [kinds_scan hblank, List.mem_cons] at h
      rcases h with rfl | h
      · exact isSound_scan hblank rest
      · refine ih _ ?_ h rfl
        rw [← hlen, List.length_drop, List.length_cons]
        omega

end Lexer

/-! ## Forms that can be read -/

namespace Form

mutual

/-- A form that can be read: its numbers are not `nan`, and its symbols stand for themselves. -/
def isReadable : Form → Bool
  | .literal l => l ≠ .number .nan
  | .symbol name => isSymbolName name
  | .list items => isReadableEach items

/-- Whether all forms can be read. -/
def isReadableEach : List Form → Bool
  | [] => true
  | f :: fs => isReadable f && isReadableEach fs

end

mutual

/-- The numbers in a form, from left to right. -/
def numbers : Form → List Number
  | .literal (.number n) => [n]
  | .literal _ => []
  | .symbol _ => []
  | .list items => numbersEach items

/-- The numbers in forms. -/
def numbersEach : List Form → List Number
  | [] => []
  | f :: fs => numbers f ++ numbersEach fs

end

mutual

/-- The form that the text of a form spells: an infinite number is written as a name. -/
def spelled : Form → Form
  | .literal (.number (.infinite negative)) => .symbol (Number.infinite negative).print
  | .literal l => .literal l
  | .symbol name => .symbol name
  | .list items => .list (spelledEach items)

/-- The forms that the texts of forms spell. -/
def spelledEach : List Form → List Form
  | [] => []
  | f :: fs => spelled f :: spelledEach fs

end

end Form

theorem isSymbolName_keyword (m : Mark) : isSymbolName m.keyword.name = true := by
  cases m <;> decide

mutual

/-- Tokens of a text derive forms that can be read. -/
theorem Derives.isReadable {ks : List TokenKind} {f : Form} (h : Derives ks f)
    (hks : ∀ k ∈ ks, k.isSound = true) : f.isReadable = true := by
  match h with
  | .boolean b => simp [Form.isReadable]
  | .string s => simp [Form.isReadable]
  | .number n =>
    have hn := hks _ List.mem_cons_self
    simpa [Form.isReadable, TokenKind.isSound] using hn
  | .symbol name =>
    have hname := hks _ List.mem_cons_self
    rwa [Form.isReadable]
  | .list hitems =>
    rw [Form.isReadable]
    refine hitems.isReadableEach fun k hk => hks k ?_
    exact List.mem_cons_of_mem _ (List.mem_append_left _ hk)
  | .mark m hinner =>
    have hinner' := hinner.isReadable fun k hk => hks k (List.mem_cons_of_mem _ hk)
    simp [Form.wrap, Form.isReadable, Form.isReadableEach, isSymbolName_keyword, hinner']

theorem DerivesEach.isReadableEach {ks : List TokenKind} {fs : List Form} (h : DerivesEach ks fs)
    (hks : ∀ k ∈ ks, k.isSound = true) : Form.isReadableEach fs = true := by
  match h with
  | .nil => rfl
  | .cons hf hfs =>
    have hhead := hf.isReadable fun k hk => hks k (List.mem_append_left _ hk)
    have htail := hfs.isReadableEach fun k hk => hks k (List.mem_append_right _ hk)
    simp [Form.isReadableEach, hhead, htail]

end

/-- What a source reads as can be read. -/
theorem isReadableEach_of_read {source : String} {fs : List Form} (h : read source = .ok fs) :
    Form.isReadableEach fs = true := by
  have hderives := derivesEach_of_read h
  rw [significant_tokenize_eq_filter] at hderives
  exact hderives.isReadableEach fun k hk => Lexer.isSound_of_mem_kinds (List.mem_filter.1 hk).1

/-! ## What texts spell -/

theorem Literal.equals_nan (l : Literal) : l.equals (.number .nan) = false := by
  cases l with
  | number n => cases n <;> rfl
  | string s => rfl
  | boolean b => rfl

namespace Form

mutual

/-- The spelled form has the same text. -/
theorem print_spelled (f : Form) : f.spelled.print = f.print := by
  match f with
  | .literal (.number (.infinite _)) | .literal (.number (.finite _ _)) | .literal (.number .nan)
  | .literal (.string _) | .literal (.boolean _) | .symbol _ => rfl
  | .list items => rw [spelled, print, print, printEach_spelledEach]

theorem printEach_spelledEach (fs : List Form) : printEach (spelledEach fs) = printEach fs := by
  match fs with
  | [] => rfl
  | f :: fs => rw [spelledEach, printEach, printEach, print_spelled, printEach_spelledEach]

end

mutual

theorem depth_spelled (f : Form) : f.spelled.depth = f.depth := by
  match f with
  | .literal (.number (.infinite _)) | .literal (.number (.finite _ _)) | .literal (.number .nan)
  | .literal (.string _) | .literal (.boolean _) | .symbol _ => rfl
  | .list items => rw [spelled, depth, depth, depthEach_spelledEach]

theorem depthEach_spelledEach (fs : List Form) : depthEach (spelledEach fs) = depthEach fs := by
  match fs with
  | [] => rfl
  | f :: fs => rw [spelledEach, depthEach, depthEach, depth_spelled, depthEach_spelledEach]

end

mutual

/-- What a readable form is spelled as is printable: the names of the infinite numbers are symbols. -/
theorem isPrintable_spelled {f : Form} (h : f.isReadable = true) : f.spelled.isPrintable = true := by
  match f with
  | .literal (.number (.infinite negative)) => cases negative <;> decide
  | .literal (.number (.finite _ _)) | .literal (.string _) | .literal (.boolean _) => rfl
  | .literal (.number .nan) => simp [isReadable] at h
  | .symbol name => exact h
  | .list items =>
    rw [isReadable] at h
    rw [spelled, isPrintable]
    exact isPrintableEach_spelledEach h

theorem isPrintableEach_spelledEach {fs : List Form} (h : isReadableEach fs = true) :
    isPrintableEach (spelledEach fs) = true := by
  match fs with
  | [] => rfl
  | f :: fs =>
    rw [isReadableEach, Bool.and_eq_true] at h
    rw [spelledEach, isPrintableEach, isPrintable_spelled h.1, isPrintableEach_spelledEach h.2]
    rfl

end

mutual

/-- **A form that equals what a form is spelled as equals the form itself exactly if all numbers are
finite**: an infinite number has become a symbol. -/
theorem equals_iff_of_spelled {f g : Form} (h : g.equals f.spelled = true) :
    g.equals f = true ↔ ∀ n ∈ f.numbers, n.isFinite = true := by
  match f, g with
  | .literal (.number (.infinite _)), .symbol _ => simp [equals, numbers, Number.isFinite]
  | .literal (.number (.finite negative rank)), g =>
    have hself : g.equals (.literal (.number (.finite negative rank))) = true := h
    simp [hself, numbers, Number.isFinite]
  | .literal (.string s), g =>
    have hself : g.equals (.literal (.string s)) = true := h
    simp [hself, numbers]
  | .literal (.boolean b), g =>
    have hself : g.equals (.literal (.boolean b)) = true := h
    simp [hself, numbers]
  | .symbol name, g =>
    rw [spelled] at h
    simp [h, numbers]
  | .list items, .list gs =>
    rw [spelled, equals] at h
    rw [equals, numbers]
    exact equalsEach_iff_of_spelledEach h
  -- no form equals `nan`, and forms of different shapes are not equal
  | .literal (.number .nan), .literal l => simp [spelled, equals, Literal.equals_nan] at h
  | .literal (.number .nan), .symbol _ | .literal (.number .nan), .list _
  | .literal (.number (.infinite _)), .literal _ | .literal (.number (.infinite _)), .list _
  | .list _, .literal _ | .list _, .symbol _ => simp [spelled, equals] at h

theorem equalsEach_iff_of_spelledEach {fs gs : List Form} (h : equalsEach gs (spelledEach fs) = true) :
    equalsEach gs fs = true ↔ ∀ n ∈ numbersEach fs, n.isFinite = true := by
  match fs, gs with
  | [], [] => simp [equalsEach, numbersEach]
  | f :: fs, g :: gs =>
    rw [spelledEach, equalsEach, Bool.and_eq_true] at h
    rw [equalsEach, Bool.and_eq_true, numbersEach, List.forall_mem_append, equals_iff_of_spelled h.1,
      equalsEach_iff_of_spelledEach h.2]
  | [], _ :: _ | _ :: _, [] => simp [spelledEach, equalsEach] at h

end

end Form

/-- The text of readable forms reads as what it spells. -/
theorem exists_read_printAll {fs : List Form} (h : Form.isReadableEach fs = true)
    (hdepth : Form.depthEach fs ≤ Form.nestingLimit) :
    ∃ gs, read (Form.printAll fs) = .ok gs ∧ Form.equalsEach gs (Form.spelledEach fs) = true := by
  obtain ⟨gs, kss, hequal, hspells, hderives⟩ :=
    Form.exists_derivesEach (Form.isPrintableEach_spelledEach h)
  rw [Form.printEach_spelledEach] at hspells
  have hkinds : Lexer.kinds (Form.printAll fs).toList = kss.flatten := by
    rw [Form.printAll, ← Form.printEach_eq_map, String.toList_intercalate]
    exact (Lexer.spells_intercalate hspells).kinds_eq
  have hlimit : Form.depthEach gs ≤ Form.nestingLimit := by
    rwa [Form.depthEach_eq_of_equalsEach hequal, Form.depthEach_spelledEach]
  exact ⟨gs, read_of_derivesEach (hkinds ▸ hderives) hlimit, hequal⟩

/-- **What was read prints as a text that reads again.** It reads as what the text spells, and so as forms
equal to those that were read exactly if all their numbers are finite. -/
theorem reread_equals_iff {source : String} {fs : List Form} (h : read source = .ok fs) :
    ∃ gs, read (Form.printAll fs) = .ok gs ∧ Form.equalsEach gs (Form.spelledEach fs) = true ∧
      (Form.equalsEach gs fs = true ↔ ∀ n ∈ Form.numbersEach fs, n.isFinite = true) := by
  obtain ⟨gs, hread, hequal⟩ := exists_read_printAll (isReadableEach_of_read h) (depthEach_le_of_read h)
  exact ⟨gs, hread, hequal, Form.equalsEach_iff_of_spelledEach hequal⟩

/-- A quoted negative zero, and a numeral too large for any finite number. -/
def overflowingSource : String := "('-0 1e999)"

/-- The forms of `overflowingSource`. -/
def overflowingForms : List Form :=
  [.list [.wrap .quote (.literal (.number Number.zero.neg)), .literal (.number (.infinite false))]]

theorem read_overflowingSource : read overflowingSource = .ok overflowingForms := by
  have hkinds : Lexer.kinds overflowingSource.toList =
      [.openList, .mark .quote, .number Number.zero.neg, .number (.infinite false), .closeList] := by
    decide +kernel
  refine read_of_derivesEach ?_ (by decide +kernel)
  rw [hkinds]
  exact .cons (.list (.cons (.mark .quote (.number _)) (.cons (.number _) .nil))) .nil

theorem reread_equals_iff_overflowingSource :
    read overflowingSource = .ok overflowingForms ∧
      ∃ gs, read (Form.printAll overflowingForms) = .ok gs ∧
        Form.equalsEach gs (Form.spelledEach overflowingForms) = true ∧
        (Form.equalsEach gs overflowingForms = true ↔
          ∀ n ∈ Form.numbersEach overflowingForms, n.isFinite = true) :=
  ⟨read_overflowingSource, reread_equals_iff read_overflowingSource⟩

/-- **Not all that was read reads back**: a numeral that overflows is printed as a name. -/
theorem not_reread_of_overflow :
    read "1e999" = .ok [.literal (.number (.infinite false))] ∧
      ¬∃ gs, read (Form.printAll [.literal (.number (.infinite false))]) = .ok gs ∧
        Form.equalsEach gs [.literal (.number (.infinite false))] = true := by
  have hkinds : Lexer.kinds "1e999".toList = [.number (.infinite false)] := by decide +kernel
  have hname : Lexer.kinds (Form.printAll [.literal (.number (.infinite false))]).toList =
      [.symbol "Infinity"] := by
    decide +kernel
  have hagain : read (Form.printAll [.literal (.number (.infinite false))]) = .ok [.symbol "Infinity"] := by
    refine read_of_derivesEach ?_ (by decide)
    rw [hname]
    exact .cons (.symbol _) .nil
  refine ⟨read_of_derivesEach ?_ (by decide), ?_⟩
  · rw [hkinds]
    exact .cons (.number _) .nil
  · rintro ⟨gs, hread, hequal⟩
    rw [hagain] at hread
    cases hread
    cases hequal

end HostLisp
