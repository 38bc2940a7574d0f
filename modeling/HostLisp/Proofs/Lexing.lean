import HostLisp.Text.Quoted
import HostLisp.Token.Lexer
import Mathlib.Data.List.Forall2
import Mathlib.Data.List.TakeWhile

/-!
# The tokens of a text in front of another

What tokens a text gives depends on what follows it only where its last atom could go on. So a text
spells some tokens if it gives them in front of every text that no atom can run into.

* `kinds`: the kinds of a text's tokens. They do not depend on where the text starts.
* `scanString_flatMap_escape`: **the inside of a quoted string reads back**, whatever its characters.
* `Spells`: the tokens that a text gives in front of any text at which an atom ends.
* `Spells.atom`, `spells_quote`, `spells_list`, `spells_intercalate`: what atoms, quoted strings, lists
  and texts in a row spell.
-/

namespace HostLisp.Text

theorem isHexDigit_hexDigit {n : Nat} (h : n < 16) : isHexDigit (hexDigit n) = true :=
  (by decide : ∀ n : Fin 16, isHexDigit (hexDigit n.val) = true) ⟨n, h⟩

theorem hexDigitValue_hexDigit {n : Nat} (h : n < 16) : hexDigitValue (hexDigit n) = n :=
  (by decide : ∀ n : Fin 16, hexDigitValue (hexDigit n.val) = n.val) ⟨n, h⟩

theorem isHexDigit_hexFour (n : Nat) : ∀ c ∈ hexFour n, isHexDigit c = true := by
  intro c hc
  simp only [hexFour, List.mem_cons, List.not_mem_nil, or_false] at hc
  rcases hc with rfl | rfl | rfl | rfl <;> exact isHexDigit_hexDigit (Nat.mod_lt _ (by decide))

/-- Four digits are enough for a number below `16 ^ 4`. -/
theorem hexValue_hexFour {n : Nat} (h : n < 65536) : hexValue (hexFour n) = n := by
  have hdigit (m : Nat) : hexDigitValue (hexDigit (m % 16)) = m % 16 :=
    hexDigitValue_hexDigit (Nat.mod_lt _ (by decide))
  simp only [hexValue, hexFour, List.foldl_cons, List.foldl_nil, hdigit]
  omega

end HostLisp.Text

namespace HostLisp.Lexer

open Text

/-! ## Quoted strings -/

theorem codePoint_hexFour {c : Char} (h : c.toNat < 65536) : codePoint (hexFour c.toNat) = .ok c := by
  have hvalid : (hexFour c.toNat ≠ []) ∧ (hexValue (hexFour c.toNat)).isValidChar := by
    rw [hexValue_hexFour h]
    exact ⟨List.cons_ne_nil _ _, c.valid⟩
  rw [codePoint, if_pos hvalid, hexValue_hexFour h, Char.ofNat_toNat]

theorem scanCodePoint_hexFour {c : Char} (h : c.toNat < 65536) (tail : List Char) :
    scanCodePoint (hexFour c.toNat ++ tail) = (.ok c, 4) := by
  have hdigits := isHexDigit_hexFour c.toNat
  have htake : ((hexFour c.toNat ++ tail).takeWhile isHexDigit).take 4 = hexFour c.toNat := by
    rw [List.takeWhile_append_of_pos hdigits]
    exact List.take_left' rfl
  unfold scanCodePoint
  split
  · -- the first of four digits is no brace
    rename_i rest heq
    have hbrace : '\x7b' ∈ hexFour c.toNat := by
      have := (List.cons.inj heq).1
      exact this ▸ List.mem_cons_self
    exact absurd (hdigits _ hbrace) (by decide)
  · rw [htake]
    exact congrArg (·, 4) (codePoint_hexFour h)

/-- An escaped character in front of more text is that character in front of what the text gives. -/
theorem scanString_escape (c : Char) (tail : List Char) :
    scanString (escape c ++ tail) =
      ((scanString tail).1.map (c :: ·), (scanString tail).2 + (escape c).length) := by
  unfold escape
  split_ifs with hquote hback hline hreturn htab hcontrol
  · subst hquote; simp [scanString, scanEscape]
  · subst hback; simp [scanString, scanEscape]
  · subst hline; simp [scanString, scanEscape]
  · subst hreturn; simp [scanString, scanEscape]
  · subst htab; simp [scanString, scanEscape]
  · have hsmall : c.toNat < 65536 := by
      simp only [isControl, Bool.or_eq_true, Bool.and_eq_true, decide_eq_true_eq] at hcontrol
      omega
    have hescape : scanEscape ('u' :: (hexFour c.toNat ++ tail)) = (.ok c, 5) := by
      rw [scanEscape, scanCodePoint_hexFour hsmall]
    have hdrop : ('u' :: (hexFour c.toNat ++ tail)).drop 5 = tail := rfl
    rw [List.cons_append, List.cons_append, scanString, hescape]
    simp only [hdrop]
    rfl
  · rw [List.singleton_append, scanString]
    · rfl
    · exact hquote
    · exact hback

/-- **The inside of a quoted string reads back**, up to its closing quote. -/
theorem scanString_flatMap_escape (cs tail : List Char) :
    scanString (cs.flatMap escape ++ '"' :: tail) = (.ok cs, (cs.flatMap escape).length + 1) := by
  induction cs with
  | nil => simp [scanString]
  | cons c cs ih =>
    rw [List.flatMap_cons, List.append_assoc, scanString_escape, ih, List.length_append]
    simp only [Except.map, Prod.mk.injEq, true_and]
    omega

/-! ## Kinds of tokens -/

/-- The kinds of the tokens of a text. -/
def kinds (cs : List Char) : List TokenKind :=
  (tokensFrom .start cs).1.map Token.kind

/-- Where a text starts shows in the places of its tokens only. -/
theorem map_kind_tokensFrom (p q : Position) (cs : List Char) :
    (tokensFrom p cs).1.map Token.kind = (tokensFrom q cs).1.map Token.kind := by
  fun_induction tokensFrom p cs generalizing q with
  | case1 p => simp [tokensFrom]
  | case2 p c rest hblank ih => rw [tokensFrom, if_pos hblank]; exact ih _
  | case3 p c rest hblank kind used hscan text tokens finish htokens ih =>
    rw [tokensFrom, if_neg hblank, hscan]
    rw [htokens] at ih
    simp only [List.map_cons, List.cons.injEq, true_and]
    exact ih _

@[simp] theorem kinds_nil : kinds [] = [] := by
  simp [kinds, tokensFrom]

theorem kinds_blank {c : Char} (h : isBlank c = true) (cs : List Char) : kinds (c :: cs) = kinds cs := by
  rw [kinds, tokensFrom, if_pos h]
  exact map_kind_tokensFrom _ _ _

theorem kinds_scan {c : Char} (h : isBlank c = false) (cs : List Char) :
    kinds (c :: cs) = (scan c cs).1 :: kinds (cs.drop ((scan c cs).2 - 1)) := by
  rw [kinds, tokensFrom, if_neg (by simp [h])]
  exact congrArg _ (map_kind_tokensFrom _ _ _)

theorem kinds_space (cs : List Char) : kinds (' ' :: cs) = kinds cs :=
  kinds_blank (by decide) cs

theorem kinds_open (cs : List Char) : kinds ('(' :: cs) = .openList :: kinds cs :=
  kinds_scan (by decide) cs

theorem kinds_close (cs : List Char) : kinds (')' :: cs) = .closeList :: kinds cs :=
  kinds_scan (by decide) cs

/-! ## Spelling -/

/-- No atom runs on into a text. -/
def EndsAtom (rest : List Char) : Prop :=
  rest.takeWhile isAtomChar = []

theorem endsAtom_nil : EndsAtom [] := rfl

theorem endsAtom_cons {c : Char} (h : isAtomChar c = false) (rest : List Char) : EndsAtom (c :: rest) :=
  List.takeWhile_cons_of_neg (by simp [h])

/-- A text gives these tokens in front of every text into which no atom runs on. -/
def Spells (text : List Char) (ks : List TokenKind) : Prop :=
  ∀ rest, EndsAtom rest → kinds (text ++ rest) = ks ++ kinds rest

theorem Spells.kinds_eq {text : List Char} {ks : List TokenKind} (h : Spells text ks) : kinds text = ks := by
  have := h [] endsAtom_nil
  rwa [List.append_nil, kinds_nil, List.append_nil] at this

theorem isBlank_of_isAtomChar {c : Char} (h : isAtomChar c = true) : isBlank c = false := by
  simp only [isAtomChar, Bool.and_eq_true, Bool.not_eq_true'] at h
  exact h.1

/-- An atom character starts no token of another kind. -/
theorem scan_of_isAtomChar {c : Char} (h : isAtomChar c = true) (rest : List Char) :
    scan c rest = (classify (c :: rest.takeWhile isAtomChar), (rest.takeWhile isAtomChar).length + 1) := by
  have hdelimiter : c ∉ delimiters := by
    simp only [isAtomChar, Bool.and_eq_true, Bool.not_eq_true', List.contains_eq_mem,
      decide_eq_false_iff_not] at h
    exact h.2
  simp only [delimiters, List.mem_cons, List.not_mem_nil, or_false, not_or] at hdelimiter
  obtain ⟨h1, h2, h3, h4, h5, h6, h7⟩ := hdelimiter
  unfold scan
  split <;> first | contradiction | rfl

/-- A run of atom characters spells one token. -/
theorem Spells.atom {text : List Char} (hne : text ≠ []) (h : ∀ c ∈ text, isAtomChar c = true) :
    Spells text [classify text] := by
  intro rest hrest
  obtain ⟨c, cs, rfl⟩ := List.exists_cons_of_ne_nil hne
  obtain ⟨hc, hcs⟩ := List.forall_mem_cons.1 h
  have hrun : (cs ++ rest).takeWhile isAtomChar = cs := by
    rw [List.takeWhile_append_of_pos hcs, hrest, List.append_nil]
  rw [List.cons_append, kinds_scan (isBlank_of_isAtomChar hc), scan_of_isAtomChar hc, hrun,
    Nat.add_sub_cancel, List.drop_left]
  rfl

/-- **A quoted string spells that string.** -/
theorem spells_quote (s : String) : Spells (quote s).toList [.string s] := by
  intro rest _
  have htext : (quote s).toList ++ rest = '"' :: (s.toList.flatMap escape ++ '"' :: rest) := by
    simp [quote]
  have hscan : scan '"' (s.toList.flatMap escape ++ '"' :: rest) =
      (.string s, (s.toList.flatMap escape).length + 2) := by
    simp [scan, scanString_flatMap_escape]
  rw [htext, kinds_scan (by decide), hscan]
  -- the closing quote is the last character of the token
  have hdrop :
      (s.toList.flatMap escape ++ '"' :: rest).drop ((s.toList.flatMap escape).length + 1) = rest := by
    rw [← List.drop_drop, List.drop_left]; rfl
  simpa using congrArg (TokenKind.string s :: kinds ·) hdrop

/-- Parentheses around a text spell the parentheses around its tokens. -/
theorem spells_list {text : List Char} {ks : List TokenKind} (h : Spells text ks) :
    Spells ('(' :: (text ++ [')'])) (.openList :: (ks ++ [.closeList])) := by
  intro rest _
  have hclose : EndsAtom (')' :: rest) := endsAtom_cons (by decide) rest
  have hinner := h _ hclose
  rw [kinds_close] at hinner
  simp [kinds_open, hinner]

/-- Texts with a space between them spell their tokens in a row. -/
theorem spells_intercalate {texts : List (List Char)} {kss : List (List TokenKind)}
    (h : List.Forall₂ Spells texts kss) : Spells ([' '].intercalate texts) kss.flatten := by
  induction h with
  | nil => intro rest _; rfl
  | @cons text ks texts kss hhead htail ih =>
    cases htail with
    | nil => simpa using hhead
    | @cons next _ texts kss =>
      intro rest hrest
      have hspace (more : List Char) : EndsAtom (' ' :: more) := endsAtom_cons (by decide) more
      rw [List.intercalate_cons_cons, List.append_assoc, List.append_assoc, List.singleton_append,
        hhead _ (hspace _), kinds_space, ih _ hrest]
      simp only [List.flatten_cons, List.append_assoc]

end HostLisp.Lexer
