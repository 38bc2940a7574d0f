import HostLisp.Proofs.ReadBack

/-!
# The grammar of numerals

Reading a numeral goes through its characters with several small readers: one for the sign, one for hexadecimal
digits, one for the digits on both sides of a point, one for the exponent. Each accepts exactly the texts of one
rule of a grammar. Hexadecimal digits may have a plus sign of their own, behind that of the numeral. It is
the only thing that the readers accept and a grammar with one sign does not.

* `Sign`, `Mantissa`, `Exponent`, `Magnitude`, `Grammar`: numerals with one sign at most.
* `PlusHex`: hexadecimal numerals with a plus sign behind `0x`.
* `read?_isSome_iff`: **what is read as a number.**
* `Lexer.spells_numeral`: **which runs of atom characters are numbers, which are faults and which are symbols.**
-/

namespace HostLisp

namespace Numeral

/-! ## Rules -/

/-- One or more characters of a class. -/
structure OneOrMore (p : Char → Bool) (text : List Char) : Prop where
  ne_nil : text ≠ []
  all : ∀ c ∈ text, p c = true

/-- An optional sign. -/
inductive Sign : List Char → Prop
  | absent : Sign []
  | plus : Sign ['+']
  | minus : Sign ['-']

/-- Decimal digits, with a point among or around them at most. -/
inductive Mantissa : List Char → Prop
  | whole {digits : List Char} (h : OneOrMore Char.isDigit digits) : Mantissa digits
  | point {digits fraction : List Char} (h : OneOrMore Char.isDigit digits)
      (hf : ∀ c ∈ fraction, c.isDigit = true) : Mantissa (digits ++ '.' :: fraction)
  | fraction {fraction : List Char} (h : OneOrMore Char.isDigit fraction) : Mantissa ('.' :: fraction)

/-- An optional exponent. -/
inductive Exponent : List Char → Prop
  | absent : Exponent []
  | marked {mark : Char} {sign digits : List Char} (hm : mark = 'e' ∨ mark = 'E') (hs : Sign sign)
      (hd : OneOrMore Char.isDigit digits) : Exponent (mark :: (sign ++ digits))

/-- Hexadecimal digits for a value of at most sixty-four bits. -/
structure HexDigits (text : List Char) : Prop where
  digits : OneOrMore Text.isHexDigit text
  fits : Text.hexValue text < 2 ^ 64

/-- The mark of a hexadecimal numeral. -/
def IsHexMark (mark : Char) : Prop := mark = 'x' ∨ mark = 'X'

/-- A numeral without a sign. -/
inductive Magnitude : List Char → Prop
  | hex {mark : Char} {digits : List Char} (hm : IsHexMark mark) (h : HexDigits digits) :
      Magnitude ('0' :: mark :: digits)
  | decimal {mantissa exponent : List Char} (hm : Mantissa mantissa) (he : Exponent exponent) :
      Magnitude (mantissa ++ exponent)

/-- **The grammar of numerals**: an optional sign and a magnitude. -/
inductive Grammar : List Char → Prop
  | signed {sign magnitude : List Char} (hs : Sign sign) (hm : Magnitude magnitude) : Grammar (sign ++ magnitude)

/-- Hexadecimal numerals with a plus sign between `0x` and their digits. -/
inductive PlusHex : List Char → Prop
  | signed {sign digits : List Char} {mark : Char} (hs : Sign sign) (hm : IsHexMark mark) (h : HexDigits digits) :
      PlusHex (sign ++ '0' :: mark :: '+' :: digits)

/-- A digit, behind a sign at most and a point at most. -/
inductive StartsNumeric : List Char → Prop
  | digit {sign rest : List Char} {c : Char} (hs : Sign sign) (hc : c.isDigit = true) :
      StartsNumeric (sign ++ c :: rest)
  | point {sign rest : List Char} {c : Char} (hs : Sign sign) (hc : c.isDigit = true) :
      StartsNumeric (sign ++ '.' :: c :: rest)

/-! ## Signs -/

/-- Whether a character is a sign. -/
def IsSignChar (c : Char) : Prop := c = '+' ∨ c = '-'

theorem exists_sign (text : List Char) : ∃ sign, Sign sign ∧ text = sign ++ (splitSign text).2 := by
  unfold splitSign
  split
  · exact ⟨_, .minus, rfl⟩
  · exact ⟨_, .plus, rfl⟩
  · exact ⟨_, .absent, rfl⟩

/-- What stands behind a sign starts with none of its own. -/
theorem splitSign_append {sign : List Char} (hs : Sign sign) (rest : List Char)
    (h : ∀ c ∈ rest.head?, ¬IsSignChar c) : (splitSign (sign ++ rest)).2 = rest := by
  cases hs with
  | plus | minus => rfl
  | absent =>
    rw [List.nil_append]
    unfold splitSign
    split
    · exact absurd (Or.inr rfl) (h '-' rfl)
    · exact absurd (Or.inl rfl) (h '+' rfl)
    · rfl

theorem not_isSignChar_of_isDigit {c : Char} (h : c.isDigit = true) : ¬IsSignChar c := by
  rintro (rfl | rfl) <;> exact absurd h (by decide)

theorem OneOrMore.exists_cons {p : Char → Bool} {text : List Char} (h : OneOrMore p text) :
    ∃ c cs, text = c :: cs ∧ p c = true := by
  obtain ⟨c, cs, rfl⟩ := List.exists_cons_of_ne_nil h.ne_nil
  exact ⟨c, cs, rfl, h.all c List.mem_cons_self⟩

/-! ## What the readers accept -/

theorem readExponent?_isSome_iff (text : List Char) : (readExponent? text).isSome ↔ Exponent text := by
  constructor
  · intro h
    cases text with
    | nil => exact .absent
    | cons mark rest =>
      simp only [readExponent?] at h
      split at h
      · rename_i hmarked
        obtain ⟨hmark, hne, hdigits⟩ := hmarked
        obtain ⟨sign, hs, hrest⟩ := exists_sign rest
        rw [hrest]
        exact .marked hmark hs ⟨hne, List.all_eq_true.1 hdigits⟩
      · cases h
  · intro h
    cases h with
    | absent => rfl
    | @marked mark sign digits hm hs hd =>
      have hdigits : (splitSign (sign ++ digits)).2 = digits := by
        obtain ⟨c, cs, rfl, hc⟩ := hd.exists_cons
        exact splitSign_append hs _ (by simpa using not_isSignChar_of_isDigit hc)
      have hall : digits.all Char.isDigit = true := List.all_eq_true.2 hd.all
      simp [readExponent?, hdigits, hm, hd.ne_nil, hall]

/-- Neither a digit nor a point starts an exponent. -/
theorem Exponent.head? {text : List Char} (h : Exponent text) :
    ∀ c ∈ text.head?, c.isDigit = false ∧ c ≠ '.' := by
  cases h with
  | absent => simp
  | marked hm hs hd =>
    rintro c ⟨⟩
    rcases hm with rfl | rfl <;> decide

/-- Digits in front of something else. -/
theorem span_digits {digits : List Char} (h : ∀ c ∈ digits, c.isDigit = true) (rest : List Char)
    (hrest : ∀ c ∈ rest.head?, c.isDigit = false) :
    (digits ++ rest).takeWhile Char.isDigit = digits ∧ (digits ++ rest).dropWhile Char.isDigit = rest := by
  rw [List.takeWhile_append_of_pos h, List.dropWhile_append_of_pos h]
  cases rest with
  | nil => simp
  | cons c cs =>
    have hc : ¬c.isDigit = true := by simp [hrest c rfl]
    rw [List.takeWhile_cons_of_neg hc, List.dropWhile_cons_of_neg hc, List.append_nil]
    exact ⟨rfl, rfl⟩

/-- A decimal numeral with a point behind its first digits. -/
theorem readDecimal?_of_point {text rest : List Char} (h : text.dropWhile Char.isDigit = '.' :: rest) :
    (readDecimal? text).isSome ↔ text.takeWhile Char.isDigit ++ rest.takeWhile Char.isDigit ≠ [] ∧
      Exponent (rest.dropWhile Char.isDigit) := by
  rw [← readExponent?_isSome_iff]
  simp only [readDecimal?, h]
  split
  · simp_all
  · rename_i hne
    simp [hne]

/-- A decimal numeral without one. -/
theorem readDecimal?_of_ne_point {text : List Char} (h : (text.dropWhile Char.isDigit).head? ≠ some '.') :
    (readDecimal? text).isSome ↔ text.takeWhile Char.isDigit ≠ [] ∧ Exponent (text.dropWhile Char.isDigit) := by
  rw [← readExponent?_isSome_iff]
  simp only [readDecimal?]
  split
  · rename_i heq
    rw [heq] at h
    exact absurd rfl h
  · simp only [List.append_nil]
    by_cases hne : text.takeWhile Char.isDigit = []
    · rw [if_pos hne]
      exact ⟨fun h => absurd h (by simp), fun h => absurd hne h.1⟩
    · rw [if_neg hne, Option.isSome_map]
      exact ⟨fun h => ⟨hne, h⟩, And.right⟩

theorem mantissa_exponent_of_readDecimal? {text : List Char} (h : (readDecimal? text).isSome) :
    ∃ mantissa exponent, text = mantissa ++ exponent ∧ Mantissa mantissa ∧ Exponent exponent := by
  have hsplit := List.takeWhile_append_dropWhile (p := Char.isDigit) (l := text)
  have hwhole : ∀ c ∈ text.takeWhile Char.isDigit, c.isDigit = true := fun c => List.mem_takeWhile_imp
  by_cases hpoint : (text.dropWhile Char.isDigit).head? = some '.'
  · obtain ⟨rest, hrest⟩ := List.head?_eq_some_iff.1 hpoint
    obtain ⟨hne, he⟩ := (readDecimal?_of_point hrest).1 h
    have hsplit' := List.takeWhile_append_dropWhile (p := Char.isDigit) (l := rest)
    have hfraction : ∀ c ∈ rest.takeWhile Char.isDigit, c.isDigit = true := fun c => List.mem_takeWhile_imp
    refine ⟨text.takeWhile Char.isDigit ++ '.' :: rest.takeWhile Char.isDigit, _, ?_, ?_, he⟩
    · rw [List.append_assoc, List.cons_append, hsplit', ← hrest, hsplit]
    · -- there are digits on one side of the point
      by_cases hnone : text.takeWhile Char.isDigit = []
      · rw [hnone, List.nil_append] at hne ⊢
        exact .fraction ⟨hne, hfraction⟩
      · exact .point ⟨hnone, hwhole⟩ hfraction
  · obtain ⟨hne, he⟩ := (readDecimal?_of_ne_point hpoint).1 h
    exact ⟨_, _, hsplit.symm, .whole ⟨hne, hwhole⟩, he⟩

theorem readDecimal?_of_mantissa_exponent {mantissa exponent : List Char} (hm : Mantissa mantissa)
    (he : Exponent exponent) : (readDecimal? (mantissa ++ exponent)).isSome := by
  have hstop : ∀ c ∈ exponent.head?, c.isDigit = false := fun c hc => (he.head? c hc).1
  cases hm with
  | whole h =>
    obtain ⟨htake, hdrop⟩ := span_digits h.all exponent hstop
    refine (readDecimal?_of_ne_point ?_).2 ?_
    · rw [hdrop]
      intro hpoint
      exact (he.head? '.' hpoint).2 rfl
    · rw [htake, hdrop]
      exact ⟨h.ne_nil, he⟩
  | @point digits fraction h hf =>
    obtain ⟨htake, hdrop⟩ := span_digits h.all ('.' :: (fraction ++ exponent)) (by simp)
    obtain ⟨-, hdrop'⟩ := span_digits hf exponent hstop
    rw [List.append_assoc, List.cons_append]
    refine (readDecimal?_of_point hdrop).2 ?_
    rw [htake, hdrop']
    exact ⟨by simp [h.ne_nil], he⟩
  | @fraction fraction h =>
    obtain ⟨htake, hdrop⟩ := span_digits h.all exponent hstop
    have hpoint : ('.' :: (fraction ++ exponent)).dropWhile Char.isDigit = '.' :: (fraction ++ exponent) := rfl
    refine (readDecimal?_of_point hpoint).2 ?_
    rw [htake, hdrop]
    exact ⟨by simp [h.ne_nil], he⟩

/-- **Hexadecimal digits may have a plus sign in front.** -/
theorem readHex?_isSome_iff (text : List Char) :
    (readHex? text).isSome ↔ HexDigits text ∨ ∃ digits, text = '+' :: digits ∧ HexDigits digits := by
  have hread (digits : List Char) : (if digits ≠ [] ∧ digits.all Text.isHexDigit ∧
      Text.hexValue digits < Nat.pow 2 64 then some (Decimal.nearest ⟨Text.hexValue digits, 0⟩)
      else none).isSome ↔ HexDigits digits := by
    rw [Nat.pow_eq]
    split
    · rename_i h
      simpa using (⟨⟨h.1, List.all_eq_true.1 h.2.1⟩, h.2.2⟩ : HexDigits digits)
    · rename_i h
      simp only [Option.isSome_none, Bool.false_eq_true, false_iff]
      exact fun hd => h ⟨hd.digits.ne_nil, List.all_eq_true.2 hd.digits.all, hd.fits⟩
  unfold readHex?
  dsimp only
  rw [hread]
  split
  · rename_i digits
    have hplus : ¬HexDigits ('+' :: digits) := fun h => absurd (h.digits.all '+' List.mem_cons_self) (by decide)
    simp [hplus]
  · rename_i hplus
    constructor
    · exact Or.inl
    · rintro (h | ⟨digits, rfl, -⟩)
      · exact h
      · exact absurd rfl (hplus digits)

/-- No letter of a decimal numeral marks a hexadecimal one. -/
theorem not_isHexMark_of_mem {mantissa exponent : List Char} (hm : Mantissa mantissa) (he : Exponent exponent) :
    ∀ c ∈ mantissa ++ exponent, ¬IsHexMark c := by
  have hdigit {c : Char} (hc : c.isDigit = true) : ¬IsHexMark c := by
    rintro (rfl | rfl) <;> exact absurd hc (by decide)
  have hpoint : ¬IsHexMark '.' := by simp [IsHexMark]
  refine List.forall_mem_append.2 ⟨?_, ?_⟩
  · cases hm with
    | whole h => exact fun c hc => hdigit (h.all c hc)
    | point h hf =>
      refine List.forall_mem_append.2 ⟨fun c hc => hdigit (h.all c hc), ?_⟩
      exact List.forall_mem_cons.2 ⟨hpoint, fun c hc => hdigit (hf c hc)⟩
    | fraction h => exact List.forall_mem_cons.2 ⟨hpoint, fun c hc => hdigit (h.all c hc)⟩
  · cases he with
    | absent => exact List.forall_mem_nil _
    | marked hmark hs hd =>
      refine List.forall_mem_cons.2 ⟨?_, List.forall_mem_append.2 ⟨?_, fun c hc => hdigit (hd.all c hc)⟩⟩
      · rcases hmark with rfl | rfl <;> simp [IsHexMark]
      · cases hs <;> simp [IsHexMark]

/-- **What is read as a numeral without a sign.** -/
theorem readUnsigned?_isSome_iff (text : List Char) : (readUnsigned? text).isSome ↔
    Magnitude text ∨ ∃ mark digits, text = '0' :: mark :: '+' :: digits ∧ IsHexMark mark ∧ HexDigits digits := by
  have hhex {mark : Char} (hmark : IsHexMark mark) (digits : List Char) : (readHex? digits).isSome ↔
      Magnitude ('0' :: mark :: digits) ∨
        ∃ mark' digits', '0' :: mark :: digits = '0' :: mark' :: '+' :: digits' ∧ IsHexMark mark' ∧
          HexDigits digits' := by
    rw [readHex?_isSome_iff]
    constructor
    · rintro (h | ⟨digits, rfl, h⟩)
      · exact Or.inl (.hex hmark h)
      · exact Or.inr ⟨mark, digits, rfl, hmark, h⟩
    · rintro (h | ⟨mark', digits', heq, -, h⟩)
      · generalize htext : '0' :: mark :: digits = text at h
        cases h with
        | hex hm h =>
          cases htext
          exact Or.inl h
        | decimal hm he => exact absurd hmark (not_isHexMark_of_mem hm he mark (by simp [← htext]))
      · cases heq
        exact Or.inr ⟨digits', rfl, h⟩
  unfold readUnsigned?
  split
  · rename_i digits
    exact hhex (Or.inl rfl) digits
  · rename_i digits
    exact hhex (Or.inr rfl) digits
  · rename_i hx hX
    have hdecimal {mark : Char} {rest : List Char} (htext : text = '0' :: mark :: rest) : ¬IsHexMark mark := by
      rintro (rfl | rfl)
      · exact hx rest htext
      · exact hX rest htext
    constructor
    · intro h
      obtain ⟨mantissa, exponent, rfl, hm, he⟩ := mantissa_exponent_of_readDecimal? h
      exact Or.inl (.decimal hm he)
    · rintro (h | ⟨mark, digits, htext, hmark, -⟩)
      · cases h with
        | hex hm h => exact absurd hm (hdecimal rfl)
        | decimal hm he => exact readDecimal?_of_mantissa_exponent hm he
      · exact absurd hmark (hdecimal htext)

/-- A magnitude starts with a digit, or with a point and a digit. -/
theorem Magnitude.exists_digit {text : List Char} (h : Magnitude text) :
    ∃ c rest, c.isDigit = true ∧ (text = c :: rest ∨ text = '.' :: c :: rest) := by
  cases h with
  | hex hm h => exact ⟨'0', _, by decide, Or.inl rfl⟩
  | @decimal mantissa exponent hm he =>
    cases hm with
    | whole h =>
      obtain ⟨c, cs, rfl, hc⟩ := h.exists_cons
      exact ⟨c, cs ++ exponent, hc, Or.inl rfl⟩
    | @point digits fraction h hf =>
      obtain ⟨c, cs, rfl, hc⟩ := h.exists_cons
      exact ⟨c, _, hc, Or.inl rfl⟩
    | fraction h =>
      obtain ⟨c, cs, rfl, hc⟩ := h.exists_cons
      exact ⟨c, cs ++ exponent, hc, Or.inr rfl⟩

/-- **What is read as a number**: a numeral of the grammar, or a hexadecimal one with a second sign. -/
theorem read?_isSome_iff (text : List Char) : (read? text).isSome ↔ Grammar text ∨ PlusHex text := by
  have hread : (read? text).isSome = (readUnsigned? (splitSign text).2).isSome := by
    simp [read?]
  rw [hread, readUnsigned?_isSome_iff]
  constructor
  · obtain ⟨sign, hs, htext⟩ := exists_sign text
    rintro (h | ⟨mark, digits, heq, hmark, h⟩)
    · rw [htext]
      exact Or.inl (.signed hs h)
    · rw [htext, heq]
      exact Or.inr (.signed hs hmark h)
  · rintro (h | h)
    · cases h with | @signed sign magnitude hs hm
      rw [splitSign_append hs magnitude]
      · exact Or.inl hm
      · obtain ⟨c, rest, hc, rfl | rfl⟩ := hm.exists_digit
        · simpa using not_isSignChar_of_isDigit hc
        · simp [IsSignChar]
    · cases h with | @signed sign digits mark hs hmark h
      rw [splitSign_append hs _ (by simp [IsSignChar])]
      exact Or.inr ⟨mark, digits, rfl, hmark, h⟩

theorem looksNumeric_iff (text : List Char) : looksNumeric text = true ↔ StartsNumeric text := by
  constructor
  · intro h
    obtain ⟨sign, hs, htext⟩ := exists_sign text
    simp only [looksNumeric, Option.any_eq_true] at h
    obtain ⟨c, hhead, hc⟩ := h
    split at hhead
    · rename_i rest hpoint
      obtain ⟨more, rfl⟩ := List.head?_eq_some_iff.1 hhead
      rw [htext, hpoint]
      exact .point hs hc
    · obtain ⟨more, hmore⟩ := List.head?_eq_some_iff.1 hhead
      rw [htext, hmore]
      exact .digit hs hc
  · intro h
    cases h with
    | @digit sign rest c hs hc =>
      have hunsigned := splitSign_append hs (c :: rest) (by simpa using not_isSignChar_of_isDigit hc)
      simp only [looksNumeric, hunsigned]
      split
      · rename_i heq
        cases heq
        exact absurd hc (by decide)
      · simpa using hc
    | @point sign rest c hs hc =>
      have hunsigned := splitSign_append hs ('.' :: c :: rest) (by simp [IsSignChar])
      simpa only [looksNumeric, hunsigned, List.head?_cons, Option.any_some] using hc

/-- A numeral starts with a digit, behind a sign and a point at most. -/
theorem startsNumeric_of_grammar {text : List Char} (h : Grammar text ∨ PlusHex text) : StartsNumeric text := by
  rcases h with h | h
  · cases h with | signed hs hm
    obtain ⟨c, rest, hc, rfl | rfl⟩ := hm.exists_digit
    · exact .digit hs hc
    · exact .point hs hc
  · cases h with | signed hs hmark h
    exact .digit hs (by decide)

end Numeral

namespace Lexer

open Numeral

/-- **Which runs of atom characters are numbers, faults and symbols.** A run that starts with no `#` gives one token,
whatever follows it that no atom runs into. It is a number exactly if the run is a numeral of the grammar, or a
hexadecimal one with a plus sign behind `0x`. It is the fault of an invalid number exactly if the run is neither, but
starts with a digit behind a sign and a point at most. It is the symbol of that name exactly if the run does not start
so. -/
theorem spells_numeral {run : List Char} (hne : run ≠ []) (hatom : ∀ c ∈ run, isAtomChar c = true)
    (hhash : run.head? ≠ some '#') : ∃ k, Spells run [k] ∧
      ((∃ n, k = .number n) ↔ Grammar run ∨ PlusHex run) ∧
      (k = .fault (.invalidNumber (String.ofList run)) ↔ ¬(Grammar run ∨ PlusHex run) ∧ StartsNumeric run) ∧
      (k = .symbol (String.ofList run) ↔ ¬StartsNumeric run) := by
  refine ⟨_, Spells.atom hne hatom, ?_⟩
  rw [classify_of_head hhash, ← read?_isSome_iff, ← looksNumeric_iff]
  have hstarts : (read? run).isSome → looksNumeric run = true :=
    fun h => (looksNumeric_iff run).2 (startsNumeric_of_grammar ((read?_isSome_iff run).1 h))
  cases hnumeric : looksNumeric run with
  | false =>
    have hnone : ¬(read? run).isSome := fun h => by simp [hstarts h] at hnumeric
    simp [hnone]
  | true =>
    cases hread : read? run with
    | none => simp
    | some n => simp

/-- A fraction with an exponent, and an exponent without digits. -/
theorem spells_numeral_fraction : (∃ n, Spells ['-', '.', '5', 'e', '+', '3'] [.number n]) ∧
    Spells ['5', 'e', '+'] [.fault (.invalidNumber "5e+")] := by
  constructor
  · have hgrammar : Grammar (['-'] ++ (['.', '5'] ++ 'e' :: (['+'] ++ ['3']))) :=
      .signed .minus (.decimal (.fraction ⟨by decide, List.all_eq_true.1 (by decide)⟩)
        (.marked (Or.inl rfl) .plus ⟨by decide, List.all_eq_true.1 (by decide)⟩))
    obtain ⟨k, hspells, hnumber, -, -⟩ :=
      @spells_numeral ['-', '.', '5', 'e', '+', '3'] (by decide) (List.all_eq_true.1 (by decide)) (by decide)
    obtain ⟨n, rfl⟩ := hnumber.2 (Or.inl hgrammar)
    exact ⟨n, hspells⟩
  · have hstarts : StartsNumeric ['5', 'e', '+'] := .digit .absent (by decide)
    have hnone : ¬(Grammar ['5', 'e', '+'] ∨ PlusHex ['5', 'e', '+']) := by
      rw [← read?_isSome_iff]
      decide
    obtain ⟨k, hspells, -, hfault, -⟩ :=
      @spells_numeral ['5', 'e', '+'] (by decide) (List.all_eq_true.1 (by decide)) (by decide)
    obtain rfl := hfault.2 ⟨hnone, hstarts⟩
    exact hspells

/-- The digits of a hexadecimal numeral of the grammar have no sign. -/
theorem not_grammar_secondSign : ¬Grammar ['0', 'x', '+', 'f', 'f'] := by
  intro h
  generalize htext : ['0', 'x', '+', 'f', 'f'] = text at h
  cases h with | @signed sign magnitude hs hm
  obtain rfl : magnitude = ['0', 'x', '+', 'f', 'f'] := by
    cases hs with
    | absent => exact htext.symm
    | plus | minus => simp at htext
  generalize htext' : ['0', 'x', '+', 'f', 'f'] = magnitude at hm
  cases hm with
  | hex hmark h =>
    cases htext'
    exact absurd (h.digits.all '+' List.mem_cons_self) (by decide)
  | decimal hm he => exact not_isHexMark_of_mem hm he 'x' (by simp [← htext']) (Or.inl rfl)

/-- **A hexadecimal numeral with a second sign is a number**, though the grammar has no such numeral. -/
theorem exists_number_outside_grammar : ∃ run : List Char, run ≠ [] ∧ (∀ c ∈ run, isAtomChar c = true) ∧
    run.head? ≠ some '#' ∧ StartsNumeric run ∧ ¬Grammar run ∧ ∃ n, Spells run [.number n] := by
  have hplus : PlusHex ['0', 'x', '+', 'f', 'f'] :=
    .signed .absent (Or.inl rfl) ⟨⟨by decide, List.all_eq_true.1 (by decide)⟩, by decide⟩
  have hatom : ∀ c ∈ ['0', 'x', '+', 'f', 'f'], isAtomChar c = true :=
    List.all_eq_true.1 (by decide)
  have hstarts := startsNumeric_of_grammar (Or.inr hplus)
  obtain ⟨n, hread⟩ := Option.isSome_iff_exists.1 ((read?_isSome_iff _).2 (Or.inr hplus))
  have hkind : classify ['0', 'x', '+', 'f', 'f'] = .number n := by
    rw [classify_of_head (by decide), if_pos ((looksNumeric_iff _).2 hstarts), hread]
  refine ⟨_, by decide, hatom, by decide, hstarts, not_grammar_secondSign, n, ?_⟩
  exact hkind ▸ Spells.atom (by decide) hatom

end Lexer

end HostLisp
