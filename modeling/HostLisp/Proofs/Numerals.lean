import HostLisp.Number.Numeral
import HostLisp.Number.Printer
import Mathlib.Data.List.TakeWhile
import Mathlib.Tactic.Ring
import Mathlib.Tactic.Positivity

/-!
# Numbers read back from their texts

The text of a finite number is digits, with a point among them at most and a minus sign in front at most.
Reading rounds the decimal that the digits spell to the nearest magnitude. The text of a magnitude spells
either the magnitude itself or a decimal that was tried and found to round to it, so that reading gives
the magnitude back; only the sign of zero is lost.

* `nearestRank_of_units`: rounding leaves a magnitude as it is.
* `Decimal.rank_exact`, `Decimal.rank_shortest`: the decimals that are written.
* `Numeral.Plain`: digits with a point at most, and the decimal they spell. `Plain.read?`: its number.
* `Number.print_finite`, `Number.exists_read?_print`: **a finite number reads back from its text.**
-/

namespace HostLisp

/-! ## Ranks -/

theorem roundHalfEven_mul (q : Nat) {den : Nat} (h : 0 < den) : roundHalfEven (q * den) den = q := by
  have hq : q * den / den = q := Nat.mul_div_cancel q h
  have hr : q * den % den = 0 := Nat.mul_mod_left q den
  simp only [roundHalfEven, hq, hr, Nat.mul_zero]
  rw [if_pos h]

theorem binade_eq : binade = 2 ^ 52 := Nat.pow_eq

/-- A size in units is a whole number of at most fifty-three bits, with as many zeros behind it as there are
binades below. -/
theorem Number.exists_units_eq (rank : Nat) : ∃ q dropped, units rank = q * 2 ^ dropped ∧
    rank = q + dropped * binade ∧ (units rank).log2 - 52 = dropped := by
  unfold units
  rw [Nat.pow_eq, binade_eq]
  by_cases hlow : rank < 2 * 2 ^ 52
  · rw [if_pos hlow]
    refine ⟨rank, 0, by simp, by simp, ?_⟩
    by_cases hzero : rank = 0
    · rw [hzero]; rfl
    · have hlog : rank.log2 < 53 := (Nat.log2_lt hzero).2 hlow
      omega
  · rw [if_neg hlow]
    refine ⟨2 ^ 52 + rank % 2 ^ 52, rank / 2 ^ 52 - 1, rfl, by omega, ?_⟩
    have hlog : ((2 ^ 52 + rank % 2 ^ 52) * 2 ^ (rank / 2 ^ 52 - 1)).log2 = 52 + (rank / 2 ^ 52 - 1) := by
      have hpos : 0 < 2 ^ (rank / 2 ^ 52 - 1) := Nat.two_pow_pos _
      have hsucc : 52 + (rank / 2 ^ 52 - 1) + 1 = 53 + (rank / 2 ^ 52 - 1) := by omega
      rw [Nat.log2_eq_iff (by positivity), hsucc, Nat.pow_add, Nat.pow_add]
      constructor
      · exact Nat.mul_le_mul_right _ (by omega)
      · exact Nat.mul_lt_mul_of_pos_right (by omega) hpos
    rw [hlog]
    omega

theorem Number.units_pos {rank : Nat} (h : 0 < rank) : 0 < units rank := by
  unfold units
  split
  · exact h
  · rw [Nat.pow_eq, binade_eq]
    positivity

/-- **A quotient that is exactly a magnitude has the rank of that magnitude.** -/
theorem nearestRank_of_units {num den rank : Nat} (hden : 0 < den)
    (h : num * Number.unitsOfOne = Number.units rank * den) : nearestRank num den = rank := by
  obtain ⟨q, dropped, hunits, hrank, hlog⟩ := Number.exists_units_eq rank
  have hdiv : num * Number.unitsOfOne / den = Number.units rank := by
    rw [h, Nat.mul_div_cancel _ hden]
  have hscaled : num * Number.unitsOfOne = q * (den * 2 ^ dropped) := by
    rw [h, hunits]; ring
  have hpos : 0 < den * 2 ^ dropped := Nat.mul_pos hden (Nat.two_pow_pos _)
  simp only [nearestRank, hdiv, hlog, Nat.pow_eq]
  rw [hscaled, roundHalfEven_mul q hpos, ← hrank]

namespace Decimal

/-- A magnitude that is a whole number, as a decimal without places behind the point. -/
theorem rank_of_whole {whole rank : Nat} (h : whole * Number.unitsOfOne = Number.units rank) :
    Decimal.rank ⟨whole, 0⟩ = rank := by
  have hnear : nearestRank whole 1 = rank := nearestRank_of_units Nat.one_pos (by rw [h, Nat.mul_one])
  by_cases hzero : whole = 0
  · subst hzero
    rw [← hnear]
    simp [Decimal.rank, nearestRank, roundHalfEven]
  · simp only [Decimal.rank, if_neg hzero]
    rw [if_neg (by decide), if_neg (by omega), if_pos (by decide)]
    simpa using hnear

/-- Zeros may stand behind the digits or be counted by the exponent. -/
theorem rank_of_zeros {digits zeros : Nat} (h : Decimal.rank ⟨digits, zeros⟩ < infinityRank) :
    Decimal.rank ⟨digits * 10 ^ zeros, 0⟩ = Decimal.rank ⟨digits, zeros⟩ := by
  by_cases hzero : digits = 0
  · simp [Decimal.rank, hzero]
  have hne : digits * 10 ^ zeros ≠ 0 := by positivity
  have hlow : ¬(400 : Int) ≤ (zeros : Int) := by
    intro hge
    simp [Decimal.rank, hzero, hge] at h
  have hmid : ¬(digits.log2 : Int) + 3 * (zeros : Int) < -1080 := by omega
  have hmid' : ¬((digits * 10 ^ zeros).log2 : Int) + 3 * (0 : Int) < -1080 := by omega
  simp only [Decimal.rank, if_neg hzero, if_neg hne, if_neg hlow, if_neg hmid, if_neg hmid',
    if_pos (Int.natCast_nonneg zeros), Int.toNat_natCast, Nat.pow_eq]
  simp

theorem log2_le_log2 {m n : Nat} (hm : m ≠ 0) (h : m ≤ n) : m.log2 ≤ n.log2 := by
  have hn : n ≠ 0 := by omega
  have hpow : 2 ^ m.log2 ≤ m := (Nat.le_log2 hm).1 (Nat.le_refl _)
  exact (Nat.le_log2 hn).2 (Nat.le_trans hpow h)

/-- A magnitude as a decimal with places behind the point, where `factor` units are one unit of the last
place. -/
theorem rank_of_places {rank factor places : Nat} (hten : factor * Number.unitsOfOne = Nat.pow 10 places)
    (hplaces : 0 < places) (hlog : 3 * places ≤ factor.log2 + 1080) (h : 0 < rank) :
    Decimal.rank ⟨Number.units rank * factor, -(places : Int)⟩ = rank := by
  have hunits := Number.units_pos h
  have hpos : 0 < Nat.pow 10 places := Nat.pow_pos (by decide)
  have hfactor : factor ≠ 0 := by
    rintro rfl
    rw [Nat.zero_mul] at hten
    omega
  have hle : factor ≤ Number.units rank * factor := Nat.le_mul_of_pos_left _ hunits
  have hlog' : factor.log2 ≤ (Number.units rank * factor).log2 := log2_le_log2 hfactor hle
  have hne : Number.units rank * factor ≠ 0 := by omega
  have hlow : ¬(400 : Int) ≤ -(places : Int) := by omega
  have hmid : ¬((Number.units rank * factor).log2 : Int) + 3 * -(places : Int) < -1080 := by omega
  have hneg : ¬(0 : Int) ≤ -(places : Int) := by omega
  simp only [Decimal.rank, if_neg hne, if_neg hlow, if_neg hmid, if_neg hneg, Int.neg_neg, Int.toNat_natCast]
  apply nearestRank_of_units hpos
  rw [Nat.mul_assoc, hten]

/-- **A magnitude with all its digits is nearest to itself.** -/
theorem rank_exact {rank : Nat} (h : 0 < rank) : (exact rank).rank = rank := by
  have hrank :=
    @rank_of_places rank (Nat.pow 5 1074) 1074 (by decide +kernel) (by decide) (by decide +kernel) h
  unfold exact
  generalize Nat.pow 5 1074 = factor at hrank ⊢
  exact hrank

/-- **The shortest text stands for the magnitude it was made from.** -/
theorem rank_shortest {rank : Nat} (h : 0 < rank) : (shortest rank).rank = rank := by
  unfold shortest
  dsimp only
  cases hfound : (List.range 17).findSome? fun n =>
      ((exact rank).neighbours (n + 1)).find? fun d => d.rank = rank with
  | none => exact rank_exact h
  | some d =>
    obtain ⟨n, -, hd⟩ := List.exists_of_findSome?_eq_some hfound
    have hrank := List.find?_some hd
    simpa using hrank

end Decimal

/-! ## Texts -/

namespace Numeral

/-- Digits, or digits with a point behind the first of them, and the decimal that they spell. -/
inductive Plain : List Char → Decimal → Prop
  | whole {digits : List Char} (hne : digits ≠ []) (h : ∀ c ∈ digits, c.isDigit = true) :
      Plain digits ⟨Nat.ofDigitChars 10 digits 0, 0⟩
  | point {digits fraction : List Char} (hne : digits ≠ []) (h : ∀ c ∈ digits ++ fraction, c.isDigit = true) :
      Plain (digits ++ '.' :: fraction)
        ⟨Nat.ofDigitChars 10 (digits ++ fraction) 0, -(fraction.length : Int)⟩

namespace Plain

variable {text : List Char} {d : Decimal}

theorem isDigit_or_point (h : Plain text d) : ∀ c ∈ text, c.isDigit = true ∨ c = '.' := by
  intro c hc
  cases h with
  | whole _ h => exact Or.inl (h c hc)
  | point _ h =>
    rcases List.mem_append.1 hc with hc | hc
    · exact Or.inl (h c (List.mem_append_left _ hc))
    · rcases List.mem_cons.1 hc with rfl | hc
      · exact Or.inr rfl
      · exact Or.inl (h c (List.mem_append_right _ hc))

/-- The first character is a digit. -/
theorem exists_cons (h : Plain text d) : ∃ c cs, text = c :: cs ∧ c.isDigit = true := by
  cases h with
  | whole hne h =>
    obtain ⟨c, cs, rfl⟩ := List.exists_cons_of_ne_nil hne
    exact ⟨c, cs, rfl, h c List.mem_cons_self⟩
  | @point digits fraction hne h =>
    obtain ⟨c, cs, rfl⟩ := List.exists_cons_of_ne_nil hne
    exact ⟨c, cs ++ '.' :: fraction, rfl, h c (by simp)⟩

theorem readDecimal? (h : Plain text d) : Numeral.readDecimal? text = some d.nearest := by
  cases h with
  | whole hne h =>
    have htake : text.takeWhile Char.isDigit = text := List.takeWhile_eq_self_iff.2 h
    have hdrop : text.dropWhile Char.isDigit = [] := List.dropWhile_eq_nil_iff.2 h
    simp [Numeral.readDecimal?, htake, hdrop, hne, readExponent?]
  | @point digits fraction hne h =>
    have hd : ∀ c ∈ digits, c.isDigit = true := fun c hc => h c (List.mem_append_left _ hc)
    have hf : ∀ c ∈ fraction, c.isDigit = true := fun c hc => h c (List.mem_append_right _ hc)
    have hpoint : Char.isDigit '.' = false := by decide
    have htake : (digits ++ '.' :: fraction).takeWhile Char.isDigit = digits := by
      rw [List.takeWhile_append_of_pos hd, List.takeWhile_cons_of_neg (by simp [hpoint]), List.append_nil]
    have hdrop : (digits ++ '.' :: fraction).dropWhile Char.isDigit = '.' :: fraction := by
      rw [List.dropWhile_append_of_pos hd, List.dropWhile_cons_of_neg (by simp [hpoint])]
    have htake' : fraction.takeWhile Char.isDigit = fraction := List.takeWhile_eq_self_iff.2 hf
    have hdrop' : fraction.dropWhile Char.isDigit = [] := List.dropWhile_eq_nil_iff.2 hf
    simp [Numeral.readDecimal?, htake, hdrop, htake', hdrop', hne, readExponent?]

/-- A text without letters is decimal. -/
theorem readUnsigned? (h : Plain text d) : Numeral.readUnsigned? text = some d.nearest := by
  have hx : ∀ c ∈ text, c ≠ 'x' ∧ c ≠ 'X' := by
    intro c hc
    rcases h.isDigit_or_point c hc with hd | rfl
    · constructor <;> rintro rfl <;> exact absurd hd (by decide)
    · decide
  unfold Numeral.readUnsigned?
  split
  · exact absurd rfl (hx 'x' (by simp)).1
  · exact absurd rfl (hx 'X' (by simp)).2
  · exact h.readDecimal?

theorem splitSign (h : Plain text d) : Numeral.splitSign text = (false, text) := by
  obtain ⟨c, cs, rfl, hc⟩ := h.exists_cons
  unfold Numeral.splitSign
  split
  · rename_i heq
    cases heq; exact absurd hc (by decide)
  · rename_i heq
    cases heq; exact absurd hc (by decide)
  · rfl

/-- **A plain numeral is read as the number nearest to its decimal.** -/
theorem read? (h : Plain text d) : Numeral.read? text = some d.nearest := by
  simp [Numeral.read?, h.splitSign, h.readUnsigned?]

theorem read?_minus (h : Plain text d) : Numeral.read? ('-' :: text) = some d.nearest.neg := by
  simp [Numeral.read?, Numeral.splitSign, h.readUnsigned?]

theorem looksNumeric (h : Plain text d) : Numeral.looksNumeric text = true := by
  unfold Numeral.looksNumeric
  rw [h.splitSign]
  obtain ⟨c, cs, rfl, hc⟩ := h.exists_cons
  dsimp only
  split
  · rename_i heq
    cases heq; exact absurd hc (by decide)
  · simpa using hc

theorem looksNumeric_minus (h : Plain text d) : Numeral.looksNumeric ('-' :: text) = true := by
  have hplain := h.looksNumeric
  unfold Numeral.looksNumeric at hplain ⊢
  rw [h.splitSign] at hplain
  exact hplain

end Plain

/-- **A decimal in positional notation is a plain numeral** for a magnitude of the same rank, unless it is
too large for any. -/
theorem plain_positional {d : Decimal} (h : d.rank < infinityRank) :
    ∃ d' : Decimal, Plain d.positional.toList d' ∧ d'.rank = d.rank := by
  obtain ⟨digits, exponent⟩ := d
  have hdigits : ∀ c ∈ Nat.toDigits 10 digits, c.isDigit = true :=
    fun c hc => Nat.isDigit_of_mem_toDigits (by decide) (by decide) hc
  unfold Decimal.positional
  by_cases hexp : 0 ≤ exponent
  · -- zeros fill up the places before the point
    obtain ⟨zeros, rfl⟩ := Int.eq_ofNat_of_zero_le hexp
    simp only [if_pos hexp, Int.toNat_natCast, String.toList_ofList]
    have htext : ∀ c ∈ Nat.toDigits 10 digits ++ List.replicate zeros '0', c.isDigit = true := by
      intro c hc
      rcases List.mem_append.1 hc with hc | hc
      · exact hdigits c hc
      · rw [List.eq_of_mem_replicate hc]; decide
    have hvalue : Nat.ofDigitChars 10 (Nat.toDigits 10 digits ++ List.replicate zeros '0') 0 =
        digits * 10 ^ zeros := by
      rw [Nat.ofDigitChars_append, Nat.ofDigitChars_ten_toDigits, Nat.ofDigitChars_replicate_zero,
        Nat.mul_comm]
    refine ⟨_, .whole (by simp [Nat.toDigits_ne_nil]) htext, ?_⟩
    rw [hvalue]
    exact Decimal.rank_of_zeros h
  · -- zeros fill up the places behind the point, with one digit before it
    obtain ⟨places, rfl⟩ : ∃ places : Nat, exponent = -(places : Int) := ⟨(-exponent).toNat, by omega⟩
    simp only [if_neg hexp, Int.neg_neg, Int.toNat_natCast, String.toList_ofList]
    generalize hpadded : List.replicate (places + 1 - (Nat.toDigits 10 digits).length) '0' ++
      Nat.toDigits 10 digits = padded
    have hlen : places < padded.length := by
      rw [← hpadded, List.length_append, List.length_replicate]; omega
    have htext : ∀ c ∈ padded, c.isDigit = true := by
      intro c hc
      rw [← hpadded] at hc
      rcases List.mem_append.1 hc with hc | hc
      · rw [List.eq_of_mem_replicate hc]; decide
      · exact hdigits c hc
    have hvalue : Nat.ofDigitChars 10 padded 0 = digits := by
      rw [← hpadded, Nat.ofDigitChars_append, Nat.ofDigitChars_replicate_zero, Nat.mul_zero,
        Nat.ofDigitChars_ten_toDigits]
    have hwhole : padded.take (padded.length - places) ≠ [] := by
      rw [← List.length_pos_iff, List.length_take]; omega
    have hfraction : (padded.drop (padded.length - places)).length = places := by
      rw [List.length_drop]; omega
    have hplain := Plain.point hwhole (by rw [List.take_append_drop]; exact htext)
    rw [List.take_append_drop, hvalue, hfraction] at hplain
    exact ⟨_, hplain, rfl⟩

end Numeral

namespace Number

open Numeral

/-- **The text of a magnitude is a plain numeral for it.** -/
theorem plain_printMagnitude {rank : Nat} (h : rank < infinityRank) :
    ∃ d : Decimal, Plain (printMagnitude rank).toList d ∧ d.rank = rank := by
  unfold printMagnitude
  dsimp only
  split
  · rename_i hwhole
    have hexact : units rank / unitsOfOne * unitsOfOne = units rank :=
      Nat.div_mul_cancel (Nat.dvd_of_mod_eq_zero hwhole.1)
    have hplain : Plain (Nat.toDigits 10 (units rank / unitsOfOne)) _ :=
      .whole Nat.toDigits_ne_nil fun c hc => Nat.isDigit_of_mem_toDigits (by decide) (by decide) hc
    rw [Nat.ofDigitChars_ten_toDigits] at hplain
    rw [String.toList_ofList]
    exact ⟨_, hplain, Decimal.rank_of_whole hexact⟩
  · rename_i hwhole
    have hpos : 0 < rank := by
      rcases Nat.eq_zero_or_pos rank with rfl | hpos
      · exact absurd (by decide +kernel) hwhole
      · exact hpos
    have hrank := Decimal.rank_shortest hpos
    obtain ⟨d, hplain, hd⟩ := plain_positional (by rw [hrank]; exact h)
    exact ⟨d, hplain, hd.trans hrank⟩

/-- The number nearest to a decimal with the rank of a magnitude is that magnitude. -/
theorem nearest_eq {d : Decimal} {rank : Fin infinityRank} (h : d.rank = rank.val) :
    d.nearest = .finite false rank := by
  simp [Decimal.nearest, ofRank, h]

/-- **The text of a finite number**: a plain numeral for its magnitude, with a minus sign in front if the
number is negative and not zero. -/
theorem print_finite (negative : Bool) (rank : Fin infinityRank) :
    ∃ (text : List Char) (d : Decimal), Plain text d ∧ d.nearest = .finite false rank ∧
      (print (.finite negative rank)).toList = if negative && rank.val ≠ 0 then '-' :: text else text := by
  obtain ⟨d, hplain, hd⟩ := plain_printMagnitude rank.isLt
  refine ⟨_, d, hplain, nearest_eq hd, ?_⟩
  rw [print]
  split
  · rw [String.toList_append]; rfl
  · rfl

/-- **A finite number reads back from its text** as a number equal to it. -/
theorem exists_read?_print {n : Number} (h : n.isFinite = true) :
    ∃ m, Numeral.read? n.print.toList = some m ∧ m.equals n = true := by
  cases n with
  | infinite _ => cases h
  | nan => cases h
  | finite negative rank =>
    obtain ⟨text, d, hplain, hd, htext⟩ := print_finite negative rank
    rw [htext]
    split
    · rename_i hminus
      refine ⟨_, hplain.read?_minus, ?_⟩
      rw [hd]
      simp_all [neg, equals]
    · rename_i hminus
      refine ⟨_, hplain.read?, ?_⟩
      rw [hd]
      cases negative <;> simp_all [equals]

end Number

end HostLisp
