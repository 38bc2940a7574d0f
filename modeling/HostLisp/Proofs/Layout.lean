import HostLisp.Proofs.Concatenation
import HostLisp.Proofs.Tiling

/-!
# Layout does not matter to the lexer

The text of a token gives the same token wherever it stands alone on its line, also where it is malformed. A
string that breaks off at an escape ends in front of the character that did not fit, and a line break fits no
better. A string that is never closed takes all of the source, so that it is the last token and stays the last.

* `EndsToken`: the end of a text, or of a line.
* `scanCodePoint_lexeme`, `scanEscape_lexeme`, `scanString_lexeme`, `scan_lexeme`: **a scanner gives the same for
  what it took** in front of such an end.
* `lexemes`: the texts of tokens. `kinds_intercalate_lexemes`: they give the same tokens on lines of their own.
* `tokenize_onePerLine`: **a source with each token on a line of its own has the same tokens.**
-/

namespace HostLisp.Lexer

open Text

/-! ## What a scanner took -/

/-- A text at which tokens end: it is empty, or starts a new line. -/
def EndsToken (tail : List Char) : Prop :=
  tail = [] ∨ ∃ more, tail = '\n' :: more

theorem EndsToken.takeWhile_eq_nil {tail : List Char} (h : EndsToken tail) {p : Char → Bool}
    (hp : p '\n' = false) : tail.takeWhile p = [] := by
  obtain rfl | ⟨more, rfl⟩ := h
  · rfl
  · exact List.takeWhile_cons_of_neg (by simp [hp])

theorem EndsToken.head?_ne {tail : List Char} (h : EndsToken tail) {c : Char} (hc : c ≠ '\n') :
    tail.head? ≠ some c := by
  obtain rfl | ⟨more, rfl⟩ := h
  · simp
  · simpa using hc.symm

/-- Up to a number of digits, taken off the text they start. -/
theorem take_length_digits (p : Char → Bool) (n : Nat) (cs : List Char) :
    cs.take ((cs.takeWhile p).take n).length = (cs.takeWhile p).take n := by
  have htake : (cs.takeWhile p).take n <+: cs.takeWhile p := List.take_prefix n _
  have hrun : cs.takeWhile p <+: cs := List.takeWhile_prefix p
  exact (List.prefix_iff_eq_take.1 (htake.trans hrun)).symm

/-- Up to a number of digits, put in front of a text that starts with none. -/
theorem digits_append {p : Char → Bool} {tail : List Char} (h : tail.takeWhile p = []) (n : Nat)
    (cs : List Char) : (((cs.takeWhile p).take n ++ tail).takeWhile p).take n = (cs.takeWhile p).take n := by
  have hdigits : ∀ c ∈ (cs.takeWhile p).take n, p c = true :=
    fun c hc => List.mem_takeWhile_imp (List.mem_of_mem_take hc)
  rw [List.takeWhile_append_of_pos hdigits, h, List.append_nil, List.take_take, Nat.min_self]

/-- A run of characters gives the same for what was taken of it. -/
theorem takeWhile_lexeme {p : Char → Bool} {tail : List Char} (h : tail.takeWhile p = []) (cs : List Char) :
    (cs.take (cs.takeWhile p).length ++ tail).takeWhile p = cs.takeWhile p ∧
      (cs.takeWhile p).length ≤ cs.length := by
  have hstart : cs.takeWhile p <+: cs := List.takeWhile_prefix p
  have hrun : cs.take (cs.takeWhile p).length = cs.takeWhile p := (List.prefix_iff_eq_take.1 hstart).symm
  rw [hrun, takeWhile_append_of_stop h, List.takeWhile_idem]
  exact ⟨rfl, hstart.length_le⟩

/-- An escape by code point in braces. -/
theorem scanCodePoint_brace (rest digits : List Char) (h : digits = (rest.takeWhile isHexDigit).take 6) :
    scanCodePoint ('\x7b' :: rest) =
      if (rest.drop digits.length).head? = some '\x7d' then (codePoint digits, digits.length + 2)
      else (.error .malformedBraceEscape, digits.length + 1) := by
  subst h
  rw [scanCodePoint]
  split
  · rename_i hdrop
    rw [hdrop]
    rfl
  · rename_i hdrop
    rw [if_neg]
    intro hhead
    obtain ⟨more, hmore⟩ := List.head?_eq_some_iff.1 hhead
    exact hdrop more hmore

/-- An escape by code point without braces. -/
theorem scanCodePoint_four {cs : List Char} (hbrace : cs.head? ≠ some '\x7b') (digits : List Char)
    (h : digits = (cs.takeWhile isHexDigit).take 4) :
    scanCodePoint cs = (if digits.length = 4 then codePoint digits else .error .shortEscape, digits.length) := by
  subst h
  unfold scanCodePoint
  split
  · exact absurd rfl hbrace
  · dsimp only
    split
    · rename_i hfour
      rw [hfour]
    · rfl

variable {tail : List Char}

theorem scanCodePoint_brace_lexeme (ht : EndsToken tail) (rest : List Char) :
    scanCodePoint (('\x7b' :: rest).take (scanCodePoint ('\x7b' :: rest)).2 ++ tail) =
        scanCodePoint ('\x7b' :: rest) ∧
      (scanCodePoint ('\x7b' :: rest)).2 ≤ rest.length + 1 := by
  obtain ⟨digits, hdigits⟩ : ∃ digits, digits = (rest.takeWhile isHexDigit).take 6 := ⟨_, rfl⟩
  have htake : rest.take digits.length = digits := hdigits ▸ take_length_digits isHexDigit 6 rest
  have hsplit : digits ++ rest.drop digits.length = rest := by
    conv_rhs => rw [← List.take_append_drop digits.length rest, htake]
  have hlength : digits.length + (rest.drop digits.length).length = rest.length := by
    rw [← List.length_append, hsplit]
  rw [scanCodePoint_brace rest digits hdigits]
  split
  · -- the closing brace ends the digits
    rename_i hclose
    obtain ⟨more, hmore⟩ := List.head?_eq_some_iff.1 hclose
    rw [hmore] at hsplit hlength
    have hlexeme : ('\x7b' :: rest).take (digits.length + 2) = '\x7b' :: (digits ++ ['\x7d']) := by
      rw [← hsplit, List.take_succ_cons, List.take_length_add_append]
      rfl
    have hsame : digits = ((digits ++ '\x7d' :: tail).takeWhile isHexDigit).take 6 := by
      have hmark : ('\x7d' :: tail).takeWhile isHexDigit = [] := rfl
      rw [hdigits, digits_append hmark]
    have hopen : ((digits ++ '\x7d' :: tail).drop digits.length).head? = some '\x7d' := by
      rw [List.drop_left]
      rfl
    rw [hlexeme, List.cons_append, List.append_assoc, List.singleton_append,
      scanCodePoint_brace _ digits hsame, if_pos hopen]
    rw [List.length_cons] at hlength
    exact ⟨rfl, by dsimp only; omega⟩
  · have hlexeme : ('\x7b' :: rest).take (digits.length + 1) = '\x7b' :: digits := by
      rw [List.take_succ_cons, htake]
    have hsame : digits = ((digits ++ tail).takeWhile isHexDigit).take 6 := by
      have hstop : tail.takeWhile isHexDigit = [] := ht.takeWhile_eq_nil (by decide)
      rw [hdigits, digits_append hstop]
    rw [hlexeme, List.cons_append, scanCodePoint_brace _ digits hsame, List.drop_left,
      if_neg (ht.head?_ne (by decide))]
    exact ⟨rfl, by dsimp only; omega⟩

theorem scanCodePoint_four_lexeme (ht : EndsToken tail) {cs : List Char} (hbrace : cs.head? ≠ some '\x7b') :
    scanCodePoint (cs.take (scanCodePoint cs).2 ++ tail) = scanCodePoint cs ∧
      (scanCodePoint cs).2 ≤ cs.length := by
  obtain ⟨digits, hdigits⟩ : ∃ digits, digits = (cs.takeWhile isHexDigit).take 4 := ⟨_, rfl⟩
  have htake : cs.take digits.length = digits := hdigits ▸ take_length_digits isHexDigit 4 cs
  have hsame : digits = ((digits ++ tail).takeWhile isHexDigit).take 4 := by
    have hstop : tail.takeWhile isHexDigit = [] := ht.takeWhile_eq_nil (by decide)
    rw [hdigits, digits_append hstop]
  have hbrace' : (digits ++ tail).head? ≠ some '\x7b' := by
    cases digits with
    | nil => exact ht.head?_ne (by decide)
    | cons d ds =>
      have hfirst : cs.head? = some d := by
        rw [← List.take_append_drop (d :: ds).length cs, htake]
        rfl
      rwa [hfirst] at hbrace
  have hle : digits.length ≤ cs.length := by
    rw [← htake, List.length_take]
    omega
  rw [scanCodePoint_four hbrace digits hdigits]
  dsimp only
  rw [htake, scanCodePoint_four hbrace' digits hsame]
  exact ⟨rfl, hle⟩

theorem scanCodePoint_lexeme (ht : EndsToken tail) (cs : List Char) :
    scanCodePoint (cs.take (scanCodePoint cs).2 ++ tail) = scanCodePoint cs ∧
      (scanCodePoint cs).2 ≤ cs.length := by
  by_cases hbrace : cs.head? = some '\x7b'
  · obtain ⟨rest, rfl⟩ := List.head?_eq_some_iff.1 hbrace
    exact scanCodePoint_brace_lexeme ht rest
  · exact scanCodePoint_four_lexeme ht hbrace

/-- An escape that the end of the text cut short is the last of the text. -/
theorem scanEscape_lexeme (ht : EndsToken tail) (cs : List Char)
    (h : tail = [] ∨ (scanEscape cs).2 < cs.length) :
    scanEscape (cs.take (scanEscape cs).2 ++ tail) = scanEscape cs ∧ (scanEscape cs).2 ≤ cs.length := by
  revert h
  fun_cases scanEscape cs with
  | case1 =>
    intro h
    obtain rfl : tail = [] := by simpa using h
    exact ⟨rfl, Nat.le_refl 0⟩
  | case2 | case3 | case4 | case5 | case6 | case7 => exact fun _ => ⟨rfl, by simp⟩
  | case8 rest point used hpoint =>
    intro _
    obtain ⟨hsame, hle⟩ := scanCodePoint_lexeme ht rest
    rw [hpoint] at hsame hle
    dsimp only at hsame hle ⊢
    rw [List.take_succ_cons, List.cons_append, scanEscape, hsame]
    exact ⟨rfl, by rw [List.length_cons]; omega⟩
  | case9 c rest hn hr htab hzero hback hquote hu =>
    intro _
    refine ⟨?_, by simp⟩
    rw [List.take_succ_cons, List.take_zero, List.singleton_append]
    simp [scanEscape]

/-- **A string gives the same for what was taken of it.** Where it was not closed, that is all of the text. -/
theorem scanString_lexeme (ht : EndsToken tail) (cs : List Char)
    (h : tail = [] ∨ (scanString cs).2 < cs.length) :
    scanString (cs.take (scanString cs).2 ++ tail) = scanString cs ∧ (scanString cs).2 ≤ cs.length := by
  fun_induction scanString cs with
  | case1 =>
    obtain rfl : tail = [] := by simpa using h
    simp [scanString]
  | case2 rest => simp [scanString]
  | case3 rest f used hescape =>
    dsimp only at h ⊢
    rw [List.length_cons, Nat.add_lt_add_iff_right] at h
    obtain ⟨hsame, hle⟩ := scanEscape_lexeme ht rest (by rwa [hescape])
    rw [hescape] at hsame hle
    rw [List.take_succ_cons, List.cons_append, scanString, hsame]
    exact ⟨rfl, by rw [List.length_cons]; omega⟩
  | case4 rest c used hescape inner length hrec ih =>
    dsimp only at h ⊢
    rw [List.length_cons] at h
    -- an escape that was understood needs nothing behind it
    obtain ⟨halone, hused⟩ := scanEscape_lexeme (Or.inl rfl) rest (Or.inl rfl)
    rw [hescape, List.append_nil] at halone
    rw [hescape] at hused
    rw [hrec, List.length_drop] at ih
    obtain ⟨hsame, hlength⟩ := ih (h.imp_right fun hlt => by omega)
    dsimp only at hused hlength hsame
    have htext : ('\\' :: rest).take (length + used + 1) ++ tail =
        '\\' :: (rest.take used ++ ((rest.drop used).take length ++ tail)) := by
      rw [List.take_succ_cons, Nat.add_comm length, List.take_add, List.cons_append, List.append_assoc]
    have hdrop : (rest.take used ++ ((rest.drop used).take length ++ tail)).drop used =
        (rest.drop used).take length ++ tail :=
      List.drop_left' (by rw [List.length_take]; omega)
    rw [htext, scanString, (scanEscape_append halone _).1]
    simp only [hdrop, hsame]
    exact ⟨trivial, by rw [List.length_cons]; omega⟩
  | case5 c rest hquote hback inner length hrec ih =>
    dsimp only at h ⊢
    rw [List.length_cons, Nat.add_lt_add_iff_right] at h
    rw [hrec] at ih
    obtain ⟨hsame, hlength⟩ := ih h
    dsimp only at hlength hsame
    refine ⟨?_, by rw [List.length_cons]; omega⟩
    rw [List.take_succ_cons, List.cons_append, scanString, hsame]
    · exact hquote
    · exact hback

/-- **A scanner gives the same for what it took**, in front of the end of a text or of a line. What the end of the
text cut short is the last of the text. -/
theorem scan_lexeme (ht : EndsToken tail) {c : Char} (hblank : isBlank c = false) (rest : List Char)
    (h : tail = [] ∨ (scan c rest).2 < rest.length + 1) :
    scan c (rest.take ((scan c rest).2 - 1) ++ tail) = scan c rest ∧ (scan c rest).2 ≤ rest.length + 1 := by
  by_cases hatom : isAtomChar c = true
  · have hstop : tail.takeWhile isAtomChar = [] := ht.takeWhile_eq_nil (by decide)
    obtain ⟨hsame, hle⟩ := takeWhile_lexeme hstop rest
    rw [scan_of_isAtomChar hatom rest]
    dsimp only
    rw [Nat.add_sub_cancel, scan_of_isAtomChar hatom, hsame]
    exact ⟨rfl, by omega⟩
  · have hdelimiter : c ∈ delimiters := by simpa [isAtomChar, hblank] using hatom
    simp only [delimiters, List.mem_cons, List.not_mem_nil, or_false] at hdelimiter
    rcases hdelimiter with rfl | rfl | rfl | rfl | rfl | rfl | rfl
    · exact ⟨rfl, by simp [scan]⟩
    · exact ⟨rfl, by simp [scan]⟩
    · exact ⟨rfl, by simp [scan]⟩
    · exact ⟨rfl, by simp [scan]⟩
    · -- neither an end nor a line break splices
      have hat : tail.head? ≠ some '@' := ht.head?_ne (by decide)
      by_cases hsplice : rest.head? = some '@'
      · obtain ⟨more, rfl⟩ := List.head?_eq_some_iff.1 hsplice
        exact ⟨rfl, by simp [scan]⟩
      · simp [scan, hsplice, hat]
    · obtain ⟨hsame, hle⟩ := scanString_lexeme ht rest (by
        cases hstring : scanString rest with | mk inner used
        cases inner <;> simpa [scan, hstring] using h)
      cases hstring : scanString rest with | mk inner used
      rw [hstring] at hsame hle
      cases inner <;> simpa [scan, hstring, hsame] using hle
    · have hstop : tail.takeWhile (· ≠ '\n') = [] := ht.takeWhile_eq_nil (by decide)
      obtain ⟨hsame, hle⟩ := takeWhile_lexeme hstop rest
      simp only [scan, List.length_cons, Nat.add_sub_cancel]
      rw [hsame]
      exact ⟨rfl, by omega⟩

/-! ## Texts of tokens -/

/-- The texts of the tokens of a text. -/
def lexemes : List Char → List (List Char)
  | [] => []
  | c :: rest =>
    if isBlank c then lexemes rest
    else (c :: rest).take (scan c rest).2 :: lexemes (rest.drop ((scan c rest).2 - 1))
termination_by cs => cs.length
decreasing_by
  · simp
  · simp only [List.length_drop, List.length_cons]; omega

/-- The spans of the tokens cover their texts. -/
theorem map_text_tokensFrom (source : String) (p : Position) (cs before : List Char) (hp : p = .after .start before)
    (hsource : source.toList = before ++ cs) :
    (tokensFrom p cs).1.map (fun t => t.span.text source) = (lexemes cs).map String.ofList := by
  fun_induction tokensFrom p cs generalizing before with
  | case1 p => simp [lexemes]
  | case2 p c rest hblank ih =>
    rw [lexemes, if_pos hblank]
    refine ih (before ++ [c]) ?_ ?_
    · rw [Position.after_append, hp]
      rfl
    · rw [hsource, List.append_assoc, List.singleton_append]
  | case3 p c rest hblank kind used hscan text tokens finish htokens ih =>
    have hsplit := take_append_drop_scan c rest
    rw [hscan] at hsplit
    have hcovers := Span.covers_of before text
    rw [← hp] at hcovers
    have hwhole : source.toList = before ++ text ++ rest.drop (used - 1) := by
      rw [hsource, List.append_assoc, hsplit]
    rw [lexemes, if_neg hblank, hscan, List.map_cons, List.map_cons, hcovers.text_eq hwhole]
    rw [htokens] at ih
    refine congrArg _ (ih (before ++ text) ?_ hwhole)
    rw [Position.after_append, hp]

/-- A text without tokens has no texts of them. -/
theorem kinds_eq_nil_of_lexemes {cs : List Char} (h : lexemes cs = []) : kinds cs = [] := by
  fun_induction lexemes cs with
  | case1 => exact kinds_nil
  | case2 c rest hblank ih => rw [kinds_blank hblank, ih h]
  | case3 => cases h

/-- **The texts of tokens give the same tokens on lines of their own.** -/
theorem kinds_intercalate_lexemes (cs : List Char) : kinds (['\n'].intercalate (lexemes cs)) = kinds cs := by
  fun_induction lexemes cs with
  | case1 => rfl
  | case2 c rest hblank ih => rw [kinds_blank hblank, ih]
  | case3 c rest hblank ih =>
    have hblank' : isBlank c = false := by simpa using hblank
    obtain ⟨hpos, -⟩ := scan_progress c rest
    have htake : (c :: rest).take (scan c rest).2 = c :: rest.take ((scan c rest).2 - 1) := by
      conv_lhs => rw [← Nat.sub_add_cancel hpos, List.take_succ_cons]
    rw [kinds_scan hblank', htake]
    cases hlater : lexemes (rest.drop ((scan c rest).2 - 1)) with
    | nil =>
      obtain ⟨hsame, hle⟩ := scan_lexeme (Or.inl rfl) hblank' rest (Or.inl rfl)
      rw [List.append_nil] at hsame
      have hdrop : (rest.take ((scan c rest).2 - 1)).drop ((scan c rest).2 - 1) = [] := by simp
      rw [List.intercalate_singleton, kinds_scan hblank', hsame, hdrop, kinds_nil, kinds_eq_nil_of_lexemes hlater]
    | cons next more =>
      rw [hlater] at ih
      -- there is more text, so the token did not take all of it
      have hlt : (scan c rest).2 < rest.length + 1 := by
        apply Nat.lt_of_not_le
        intro hge
        rw [List.drop_of_length_le (by omega), lexemes] at hlater
        cases hlater
      obtain ⟨hsame, hle⟩ := scan_lexeme (Or.inr ⟨['\n'].intercalate (next :: more), rfl⟩) hblank' rest (Or.inr hlt)
      have hdrop : (rest.take ((scan c rest).2 - 1) ++ '\n' :: ['\n'].intercalate (next :: more)).drop
          ((scan c rest).2 - 1) = '\n' :: ['\n'].intercalate (next :: more) :=
        List.drop_left' (by rw [List.length_take]; omega)
      rw [List.intercalate_cons_cons, List.append_assoc, List.singleton_append, List.cons_append,
        kinds_scan hblank', hsame, hdrop, kinds_blank (by decide), ih]

/-! ## Sources -/

/-- The tokens of a source, each as it is written there, on lines of their own. -/
def onePerLine (source : String) : String :=
  "\n".intercalate (((tokenize source).filter fun t => t.kind ≠ .endOfInput).map fun t => t.span.text source)

/-- Only the end mark is left out of the lines. -/
theorem toList_onePerLine (source : String) :
    (onePerLine source).toList = ['\n'].intercalate (lexemes source.toList) := by
  obtain ⟨tokens, finish, htokens, hfinish, -, hkinds⟩ := (tiles_tokenize source).exists_finish
  have hsame : (tokensFrom .start source.toList).1 = tokens := List.append_inj_left' htokens rfl
  have hfilter : (tokenize source).filter (fun t => t.kind ≠ .endOfInput) = tokens := by
    rw [htokens, List.filter_append, List.filter_eq_self.2 (by simpa using hkinds)]
    simp [hfinish]
  have htexts := map_text_tokensFrom source .start source.toList [] rfl rfl
  rw [hsame] at htexts
  rw [onePerLine, hfilter, htexts, String.toList_intercalate, List.map_map]
  simp [Function.comp_def]

theorem map_kind_tokenize (source : String) :
    (tokenize source).map Token.kind = kinds source.toList ++ [.endOfInput] := by
  simp [tokenize, kinds]

/-- **Layout does not matter to the lexer.** A source with each of its tokens on a line of its own has tokens of the
same kinds, with the same values, in the same order; malformed tokens have the same faults. -/
theorem tokenize_onePerLine (source : String) :
    (tokenize (onePerLine source)).map Token.kind = (tokenize source).map Token.kind := by
  rw [map_kind_tokenize, map_kind_tokenize, toList_onePerLine, kinds_intercalate_lexemes]

end HostLisp.Lexer
