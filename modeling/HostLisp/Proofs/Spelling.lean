import HostLisp.Host.Identifier
import Mathlib.Data.List.Basic

/-!
# Spellings are host identifiers

* `isSafe_iff`: what makes a text usable as an identifier. `guardStart_eq`: a dollar sign goes in front exactly
  where this fails otherwise.
* `isSafe_of_sanitize`: **the spelling of a name can be used as an identifier**: it has the form of
  one and is no word that the host keeps for itself.
* `sanitize_of_isSafe`: **an identifier is spelled as itself.**
* `sanitize_spec`: **names with a character that has no spelling fail at the first such character**, and all others
  have a spelling.
* `isSafe_numbered`: an identifier stays one with a number behind it.
* `numbered_injective`, `ne_numbered`: different numbers give different identifiers, none of them the
  spelling itself.
-/

namespace HostLisp.Host

/-- Letters are no digits. -/
theorem isDigit_eq_false_of_isAlpha {c : Char} (h : c.isAlpha = true) : c.isDigit = false := by
  unfold Char.isAlpha Char.isUpper Char.isLower at h
  simp only [Bool.or_eq_true, Bool.and_eq_true, decide_eq_true_eq, UInt32.le_iff_toNat_le, ge_iff_le] at h
  refine Bool.eq_false_iff.2 fun hdigit => ?_
  rw [Char.isDigit_iff_toNat] at hdigit
  change (65 ≤ c.toNat ∧ c.toNat ≤ 90) ∨ (97 ≤ c.toNat ∧ c.toNat ≤ 122) at h
  change 48 ≤ c.toNat ∧ c.toNat ≤ 57 at hdigit
  omega

/-- Identifiers start with any of their characters but the digits. -/
theorem isNameStart_iff {c : Char} : isNameStart c = true ↔ isNameChar c = true ∧ c.isDigit = false := by
  simp only [isNameStart, isNameChar, Char.isAlphanum, Bool.or_eq_true, decide_eq_true_eq]
  constructor
  · rintro ((halpha | rfl) | rfl)
    · exact ⟨Or.inl (Or.inl (Or.inl halpha)), isDigit_eq_false_of_isAlpha halpha⟩
    · decide
    · decide
  · rintro ⟨hc, hd⟩
    rw [hd] at hc
    tauto

/-- **What makes a text usable as an identifier.** -/
theorem isSafe_iff {s : String} : isSafe s = true ↔
    s ≠ "" ∧ (∀ c ∈ s.toList, isNameChar c = true) ∧ (∀ c, s.toList.head? = some c → c.isDigit = false) ∧
      s ∉ reservedWords := by
  have hreserved : (!isReserved s) = true ↔ s ∉ reservedWords := by simp [isReserved]
  rw [isSafe, Bool.and_eq_true, hreserved, isIdentifierName, ← and_assoc, ← and_assoc]
  refine and_congr_left fun _ => ?_
  cases hs : s.toList with
  | nil => simp [String.toList_eq_nil_iff.1 hs]
  | cons c cs =>
    have hne : s ≠ "" := by rintro rfl; cases hs
    simp only [Bool.and_eq_true, List.all_eq_true, isNameStart_iff, List.forall_mem_cons, List.head?_cons,
      Option.some.injEq, forall_eq', hne, ne_eq, not_false_eq_true, true_and]
    tauto

/-- The spellings of single characters hold no character that identifiers must not have. -/
theorem isNameChar_of_mem_spell {c d : Char} {cs : List Char} (h : spell c = .ok cs) (hd : d ∈ cs) :
    isNameChar d = true := by
  unfold spell at h
  split at h
  · rename_i hc
    cases h
    rw [List.mem_singleton.1 hd]; exact hc
  · split at h
    · rename_i s hs
      cases h
      -- the table of substitutes, entry by entry
      have hall : s.toList.all isNameChar = true := by
        unfold substitute? at hs
        split at hs <;> cases hs <;> rfl
      exact List.all_eq_true.1 hall d hd
    · cases h

theorem isNameChar_of_mem_spelled {cs : List Char} {spelled : List (List Char)}
    (h : cs.mapM spell = .ok spelled) : ∀ d ∈ spelled.flatten, isNameChar d = true := by
  induction cs generalizing spelled with
  | nil =>
    cases h; simp
  | cons c cs ih =>
    rw [List.mapM_cons] at h
    cases hc : spell c with
    | error e => rw [hc] at h; cases h
    | ok s =>
      cases hcs : cs.mapM spell with
      | error e => rw [hc, hcs] at h; cases h
      | ok rest =>
        rw [hc, hcs] at h
        cases h
        intro d hd
        rw [List.flatten_cons, List.mem_append] at hd
        rcases hd with hd | hd
        · exact isNameChar_of_mem_spell hc hd
        · exact ih hcs d hd

/-- No word of the host has a digit or a dollar sign in it. -/
theorem plain_of_isReserved {w : String} (h : isReserved w = true) :
    ∀ c ∈ w.toList, c.isDigit = false ∧ c ≠ '$' := by
  have hall : reservedWords.all (fun w => w.toList.all fun c => !c.isDigit && c != '$') = true := by
    decide +kernel
  have hw := List.all_eq_true.1 hall w (by simpa [isReserved] using h)
  intro c hc
  simpa using List.all_eq_true.1 hw c hc

/-- A text of identifier characters that starts with no digit and is no word of the host can be used
as an identifier. -/
theorem isSafe_ofList {c : Char} {cs : List Char} (hc : isNameStart c = true)
    (hcs : ∀ d ∈ cs, isNameChar d = true) (hr : isReserved (String.ofList (c :: cs)) = false) :
    isSafe (String.ofList (c :: cs)) = true := by
  simp only [isSafe, isIdentifierName, String.toList_ofList, hr, hc, Bool.true_and, Bool.and_true,
    Bool.not_false, List.all_eq_true]
  exact hcs

/-- Behind a dollar sign any identifier characters can stand: no word of the host starts so. -/
theorem isSafe_dollar {cs : List Char} (h : ∀ c ∈ cs, isNameChar c = true) :
    isSafe (String.ofList ('$' :: cs)) = true := by
  apply isSafe_ofList (by decide) h
  by_contra hr
  have := plain_of_isReserved (by simpa using hr) '$' (by simp)
  exact this.2 rfl

/-- A text of identifier characters has the form of an identifier unless it starts with a digit. -/
theorem isIdentifierName_ofList {c : Char} {cs : List Char} (h : ∀ d ∈ c :: cs, isNameChar d = true) :
    isIdentifierName (String.ofList (c :: cs)) = !c.isDigit := by
  obtain ⟨hc, hcs⟩ := List.forall_mem_cons.1 h
  rw [isIdentifierName, String.toList_ofList]
  show (isNameStart c && cs.all isNameChar) = !c.isDigit
  rw [List.all_eq_true.2 hcs, Bool.and_true, Bool.eq_iff_iff, isNameStart_iff, Bool.not_eq_true']
  exact and_iff_right hc

/-- **A dollar sign goes in front exactly of a text that is not usable as an identifier.** -/
theorem guardStart_eq {cs : List Char} (h : ∀ c ∈ cs, isNameChar c = true) :
    guardStart cs = if isSafe (String.ofList cs) then cs else '$' :: cs := by
  cases cs with
  | nil => rfl
  | cons c cs =>
    rw [guardStart, isSafe, isIdentifierName_ofList h]
    show (if (c.isDigit || isReserved (String.ofList (c :: cs))) = true then _ else _) = _
    cases c.isDigit <;> cases isReserved (String.ofList (c :: cs)) <;> rfl

/-- **The spelling of a name can be used as an identifier.** -/
theorem isSafe_of_sanitize {name spelling : String} (h : sanitize name = .ok spelling) :
    isSafe spelling = true := by
  unfold sanitize at h
  cases hm : name.toList.mapM spell with
  | error e => rw [hm] at h; cases h
  | ok spelled =>
    rw [hm] at h
    cases h
    have hall := isNameChar_of_mem_spelled hm
    rw [guardStart_eq hall]
    split
    · assumption
    · exact isSafe_dollar hall

/-! ## Which names have a spelling -/

/-- Characters of identifiers are spelled as themselves. -/
theorem mapM_spell_of_isNameChar {cs : List Char} (h : ∀ c ∈ cs, isNameChar c = true) :
    cs.mapM spell = .ok (cs.map fun c => [c]) := by
  induction cs with
  | nil => rfl
  | cons c cs ih =>
    obtain ⟨hc, hcs⟩ := List.forall_mem_cons.1 h
    rw [List.mapM_cons, ih hcs, spell, if_pos hc]
    rfl

/-- **An identifier is spelled as itself.** -/
theorem sanitize_of_isSafe {s : String} (h : isSafe s = true) : sanitize s = .ok s := by
  obtain ⟨-, hchars, -⟩ := isSafe_iff.1 h
  have hflat : (s.toList.map fun c => [c]).flatten = s.toList := by
    rw [← List.flatMap_def, List.flatMap_singleton']
  have hguard : guardStart s.toList = s.toList := by
    rw [guardStart_eq hchars, String.ofList_toList, if_pos h]
  rw [sanitize, mapM_spell_of_isNameChar hchars]
  show Except.ok (String.ofList (guardStart (s.toList.map fun c => [c]).flatten)) = .ok s
  rw [hflat, hguard, String.ofList_toList]

/-- Whether a character has a spelling: it can stand in an identifier, or has a substitute. -/
def isSpellable (c : Char) : Bool :=
  isNameChar c || (substitute? c).isSome

theorem spell_eq_error {c : Char} (h : isSpellable c = false) : spell c = .error c := by
  simp only [isSpellable, Bool.or_eq_false_iff, Option.isSome_eq_false_iff, Option.isNone_iff_eq_none] at h
  simp [spell, h]

theorem exists_spell_eq_ok {c : Char} (h : isSpellable c = true) : ∃ cs, spell c = .ok cs := by
  simp only [isSpellable, Bool.or_eq_true, Option.isSome_iff_exists] at h
  unfold spell
  split
  · exact ⟨_, rfl⟩
  · rename_i hc
    obtain ⟨s, hs⟩ := h.resolve_left hc
    rw [hs]
    exact ⟨_, rfl⟩

/-- Spelling a text fails at its first character without a spelling. -/
theorem mapM_spell_eq_error_iff {cs : List Char} {c : Char} :
    cs.mapM spell = .error c ↔ cs.find? (fun d => !isSpellable d) = some c := by
  induction cs with
  | nil => simp [pure, Except.pure]
  | cons d cs ih =>
    rw [List.mapM_cons, List.find?_cons]
    cases hd : isSpellable d with
    | false =>
      rw [spell_eq_error hd]
      simp [bind, Except.bind]
    | true =>
      obtain ⟨s, hs⟩ := exists_spell_eq_ok hd
      rw [hs, Bool.not_true, ← ih]
      cases cs.mapM spell <;> simp [bind, Except.bind, pure, Except.pure]

/-- **A name fails at its first character without a spelling.** -/
theorem sanitize_eq_error_iff {name : String} {c : Char} : sanitize name = .error c ↔
    ∃ before after, name.toList = before ++ c :: after ∧ (∀ d ∈ before, isSpellable d = true) ∧
      isSpellable c = false := by
  have hmapM : sanitize name = .error c ↔ name.toList.mapM spell = .error c := by
    unfold sanitize
    cases name.toList.mapM spell <;> simp [bind, Except.bind, pure, Except.pure]
  rw [hmapM, mapM_spell_eq_error_iff, List.find?_eq_some_iff_append]
  constructor
  · rintro ⟨hc, before, after, hname, hbefore⟩
    exact ⟨before, after, hname, by simpa using hbefore, by simpa using hc⟩
  · rintro ⟨before, after, hname, hbefore, hc⟩
    exact ⟨by simpa using hc, before, after, hname, by simpa using hbefore⟩

/-- **What a name is spelled as.** A name fails with a character exactly if that is the first one in it that has no
spelling. Every other name has a spelling, which is an identifier, and an identifier is spelled as itself. -/
theorem sanitize_spec (name : String) :
    (∀ c, sanitize name = .error c ↔
      ∃ before after, name.toList = before ++ c :: after ∧ (∀ d ∈ before, isSpellable d = true) ∧
        isSpellable c = false) ∧
    ((∀ c ∈ name.toList, isSpellable c = true) → ∃ spelling, sanitize name = .ok spelling ∧
      isSafe spelling = true ∧ spelling ≠ "" ∧ (∀ c ∈ spelling.toList, isNameChar c = true) ∧
      (∀ c, spelling.toList.head? = some c → c.isDigit = false) ∧ spelling ∉ reservedWords ∧
      sanitize spelling = .ok spelling) ∧
    (sanitize name = .ok name ↔ isSafe name = true) := by
  refine ⟨fun c => sanitize_eq_error_iff, fun hall => ?_, isSafe_of_sanitize, sanitize_of_isSafe⟩
  cases hs : sanitize name with
  | error c =>
    obtain ⟨before, after, hname, -, hc⟩ := sanitize_eq_error_iff.1 hs
    rw [hall c (by simp [hname])] at hc
    cases hc
  | ok spelling =>
    have hsafe := isSafe_of_sanitize hs
    obtain ⟨hne, hchars, hstart, hreserved⟩ := isSafe_iff.1 hsafe
    exact ⟨spelling, rfl, hsafe, hne, hchars, hstart, hreserved, sanitize_of_isSafe hsafe⟩

/-- A name that starts with a digit gets a dollar sign, and its minus sign an underscore. A point has no spelling, and
stands in front of another character that has none. -/
theorem sanitize_spec_digitInFront :
    (∀ c ∈ "4-in".toList, isSpellable c = true) ∧ sanitize "4-in" = .ok "$4_in" ∧ isSafe "$4_in" = true ∧
      sanitize "$4_in" = .ok "$4_in" ∧ sanitize "a.λ" = .error '.' := by
  have hall : ∀ c ∈ "4-in".toList, isSpellable c = true := List.all_eq_true.1 (by decide)
  obtain ⟨spelling, hspelling, hsafe, -, -, -, -, hagain⟩ := (sanitize_spec "4-in").2.1 hall
  have hspelled : sanitize "4-in" = .ok "$4_in" := by rfl
  obtain rfl : "$4_in" = spelling := by
    rw [hspelled] at hspelling
    exact Except.ok.inj hspelling
  have hpoint := ((sanitize_spec "a.λ").1 '.').2 ⟨['a'], ['λ'], by decide, List.all_eq_true.1 (by decide), by decide⟩
  exact ⟨hall, hspelling, hsafe, hagain, hpoint⟩

/-! ## Numbered spellings -/

theorem isNameChar_of_isDigit {c : Char} (h : c.isDigit = true) : isNameChar c = true := by
  simp [isNameChar, Char.isAlphanum, h]

/-- The characters of a number behind a spelling. -/
theorem toList_numbered (s : String) (n : Nat) :
    (s ++ toString n).toList = s.toList ++ Nat.toDigits 10 n := by
  rw [String.toList_append, Nat.toString_eq_repr, Nat.toList_repr]

/-- **An identifier stays one with a number behind it**: no word of the host ends in a digit. -/
theorem isSafe_numbered {s : String} (h : isSafe s = true) (n : Nat) :
    isSafe (s ++ toString n) = true := by
  simp only [isSafe, isIdentifierName, Bool.and_eq_true] at h
  cases hs : s.toList with
  | nil => rw [hs] at h; simp at h
  | cons c cs =>
    rw [hs] at h
    simp only [Bool.and_eq_true, List.all_eq_true] at h
    have hdig : ∀ d ∈ Nat.toDigits 10 n, d.isDigit = true :=
      fun d hd => Nat.isDigit_of_mem_toDigits (by omega) (by omega) hd
    have hl : s ++ toString n = String.ofList (c :: (cs ++ Nat.toDigits 10 n)) := by
      apply String.toList_injective
      rw [toList_numbered, hs, String.toList_ofList, List.cons_append]
    rw [hl]
    refine isSafe_ofList h.1.1 ?_ ?_
    · intro d hd
      rcases List.mem_append.1 hd with hd | hd
      · exact h.1.2 d hd
      · exact isNameChar_of_isDigit (hdig d hd)
    · by_contra hr
      obtain ⟨d, hd⟩ := List.exists_mem_of_ne_nil _ (Nat.toDigits_ne_nil (n := n) (b := 10))
      have := plain_of_isReserved (by simpa using hr) d (by simp [hd])
      rw [hdig d hd] at this
      exact absurd this.1 (by decide)

theorem numbered_injective (s : String) {m n : Nat} (h : s ++ toString m = s ++ toString n) :
    m = n := by
  have hl := congrArg String.toList h
  rw [toList_numbered, toList_numbered] at hl
  rw [← Nat.ofDigitChars_ten_toDigits (n := m), ← Nat.ofDigitChars_ten_toDigits (n := n),
    List.append_cancel_left hl]

theorem ne_numbered (s : String) (n : Nat) : s ≠ s ++ toString n := by
  intro h
  have hl := congrArg List.length (congrArg String.toList h)
  rw [toList_numbered, List.length_append] at hl
  have := List.length_pos_of_ne_nil (Nat.toDigits_ne_nil (n := n) (b := 10))
  omega

end HostLisp.Host
