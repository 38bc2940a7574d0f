import HostLisp.Proofs.Recognition

/-!
# Reading texts one after the other

A line break ends everything that a text can leave unfinished but a string: a comment, an atom, a comma that
might go on. So the tokens of a text that has no malformed ones are the same in front of a line break and more
text, and forms that were complete stay so.

* `scanString_append`, `scan_append`: **a scanner does not look beyond its token.**
* `kinds_append_newline`: the tokens of two texts with a line break between them.
* `read_append_newline`: **the forms of two texts with a line break between them.**
-/

namespace HostLisp

namespace Lexer

open Text

/-! ## Scanners in front of more text -/

/-- What stops a run at once stops it behind a text too. -/
theorem takeWhile_append_of_stop {p : Char → Bool} {tail : List Char} (h : tail.takeWhile p = [])
    (cs : List Char) : (cs ++ tail).takeWhile p = cs.takeWhile p := by
  induction cs with
  | nil => exact h
  | cons c cs ih => simp only [List.cons_append, List.takeWhile_cons, ih]

/-- Up to a number of digits: more text adds none if there are as many as wanted, or if something else stands
behind them. -/
theorem take_takeWhile_append {p : Char → Bool} {n : Nat} {cs : List Char}
    (h : ((cs.takeWhile p).take n).length = n ∨ ((cs.takeWhile p).take n).length < cs.length)
    (more : List Char) : ((cs ++ more).takeWhile p).take n = (cs.takeWhile p).take n := by
  induction cs generalizing n with
  | nil =>
    obtain rfl : 0 = n := by simpa using h
    rfl
  | cons c cs ih =>
    cases n with
    | zero => rfl
    | succ n =>
      cases hc : p c with
      | false => simp [hc]
      | true =>
        simp only [List.cons_append, List.takeWhile_cons_of_pos hc, List.take_succ_cons, List.length_cons,
          Nat.add_right_cancel_iff, Nat.add_lt_add_iff_right] at h ⊢
        rw [ih h]

theorem scanCodePoint_append {cs : List Char} {c : Char} {used : Nat} (h : scanCodePoint cs = (.ok c, used))
    (more : List Char) : scanCodePoint (cs ++ more) = (.ok c, used) ∧ used ≤ cs.length := by
  unfold scanCodePoint at h
  split at h
  · rename_i rest
    dsimp only at h
    split at h
    · rename_i tail hdrop
      have hinside : ((rest.takeWhile isHexDigit).take 6).length < rest.length := by
        apply Nat.lt_of_not_le
        intro hle
        rw [List.drop_of_length_le hle] at hdrop
        cases hdrop
      rw [List.cons_append, scanCodePoint]
      simp only [take_takeWhile_append (Or.inr hinside), List.drop_append_of_le_length hinside.le, hdrop,
        List.cons_append]
      have hused := (Prod.mk.inj h).2
      exact ⟨h, by rw [List.length_cons]; omega⟩
    · cases h
  · rename_i hbrace
    dsimp only at h
    split at h
    · rename_i hfour
      have hused := (Prod.mk.inj h).2
      have hlength : 4 ≤ cs.length := by
        have hrun := (List.takeWhile_sublist isHexDigit (l := cs)).length_le
        rw [List.length_take] at hfour
        omega
      -- the first digit stands in front of all the rest
      have hbrace' : ∀ rest, cs ++ more = '\x7b' :: rest → False := by
        intro rest heq
        cases cs with
        | nil => simp at hlength
        | cons d ds =>
          cases heq
          exact hbrace ds rfl
      unfold scanCodePoint
      split
      · rename_i rest heq
        exact (hbrace' rest heq).elim
      · rw [take_takeWhile_append (Or.inl hfour), if_pos hfour]
        exact ⟨h, by omega⟩
    · cases h

theorem scanEscape_append {cs : List Char} {c : Char} {used : Nat} (h : scanEscape cs = (.ok c, used))
    (more : List Char) : scanEscape (cs ++ more) = (.ok c, used) ∧ used ≤ cs.length := by
  revert h
  fun_cases scanEscape cs with
  | case1 | case9 => rintro ⟨⟩
  | case2 | case3 | case4 | case5 | case6 | case7 =>
    rintro ⟨⟩
    exact ⟨rfl, by simp⟩
  | case8 rest point n hpoint =>
    rintro ⟨⟩
    obtain ⟨hmore, hle⟩ := scanCodePoint_append hpoint more
    rw [List.cons_append, scanEscape, hmore]
    exact ⟨rfl, by rw [List.length_cons]; omega⟩

/-- **A string ends with its closing quote**, whatever follows. -/
theorem scanString_append {cs inner : List Char} {used : Nat} (h : scanString cs = (.ok inner, used))
    (more : List Char) : scanString (cs ++ more) = (.ok inner, used) ∧ used ≤ cs.length := by
  fun_induction scanString cs generalizing inner used with
  | case1 => cases h
  | case2 rest =>
    cases h
    simp [scanString]
  | case3 rest f n hescape => cases h
  | case4 rest c n hescape inner' length hrec ih =>
    cases inner' with
    | error f => cases h
    | ok inner' =>
      cases h
      obtain ⟨hescape', hn⟩ := scanEscape_append hescape more
      obtain ⟨hrec', hlength⟩ := ih hrec
      rw [List.length_drop] at hlength
      rw [List.cons_append, scanString, hescape']
      simp only [List.drop_append_of_le_length hn, hrec']
      exact ⟨rfl, by rw [List.length_cons]; omega⟩
  | case5 c rest hquote hback inner' length hrec ih =>
    cases inner' with
    | error f => cases h
    | ok inner' =>
      cases h
      obtain ⟨hrec', hlength⟩ := ih hrec
      refine ⟨?_, by rw [List.length_cons]; omega⟩
      rw [List.cons_append, scanString, hrec']
      · rfl
      · exact hquote
      · exact hback

/-- **A scanner does not look beyond its token**, if a line break ends the text and the token is not malformed. -/
theorem scan_append {c : Char} {rest : List Char} (hblank : isBlank c = false)
    (h : ∀ f, (scan c rest).1 ≠ .fault f) (more : List Char) :
    scan c (rest ++ '\n' :: more) = scan c rest ∧ (scan c rest).2 ≤ rest.length + 1 := by
  by_cases hatom : isAtomChar c = true
  · have hstop : EndsAtom ('\n' :: more) := endsAtom_cons (by decide) more
    have hrun := (List.takeWhile_sublist isAtomChar (l := rest)).length_le
    rw [scan_of_isAtomChar hatom, scan_of_isAtomChar hatom, takeWhile_append_of_stop hstop]
    exact ⟨rfl, by simpa using hrun⟩
  · have hdelimiter : c ∈ delimiters := by simpa [isAtomChar, hblank] using hatom
    simp only [delimiters, List.mem_cons, List.not_mem_nil, or_false] at hdelimiter
    rcases hdelimiter with rfl | rfl | rfl | rfl | rfl | rfl | rfl
    · exact ⟨rfl, by simp [scan]⟩
    · exact ⟨rfl, by simp [scan]⟩
    · exact ⟨rfl, by simp [scan]⟩
    · exact ⟨rfl, by simp [scan]⟩
    · -- whether a comma splices shows in the next character, and a line break is none that does
      cases rest with
      | nil => exact ⟨rfl, by simp [scan]⟩
      | cons d ds =>
        refine ⟨rfl, ?_⟩
        simp only [scan]
        split_ifs <;> simp
    · cases hstring : scanString rest with | mk inner used
      cases inner with
      | error f => exact absurd (by simp [scan, hstring]) (h f)
      | ok inner =>
        obtain ⟨hmore, hused⟩ := scanString_append hstring ('\n' :: more)
        simp only [scan, hstring, hmore]
        exact ⟨trivial, by omega⟩
    · have hstop : ('\n' :: more).takeWhile (· ≠ '\n') = [] := by simp
      have hrun := (List.takeWhile_sublist (· ≠ '\n') (l := rest)).length_le
      simp only [scan, takeWhile_append_of_stop hstop, List.length_cons]
      exact ⟨trivial, by omega⟩

/-- **The tokens of two texts with a line break between them**, if the first text has no malformed ones. -/
theorem kinds_append_newline {cs : List Char} (h : ∀ k ∈ kinds cs, ∀ f, k ≠ .fault f) (more : List Char) :
    kinds (cs ++ '\n' :: more) = kinds cs ++ kinds more := by
  induction hn : cs.length using Nat.strong_induction_on generalizing cs with
  | _ n ih =>
    cases cs with
    | nil =>
      rw [List.nil_append, kinds_blank (by decide), kinds_nil, List.nil_append]
    | cons c rest =>
      rw [List.length_cons] at hn
      cases hblank : isBlank c with
      | true =>
        rw [kinds_blank hblank] at h
        rw [List.cons_append, kinds_blank hblank, kinds_blank hblank, ih rest.length (by omega) h rfl]
      | false =>
        rw [kinds_scan hblank] at h
        obtain ⟨hfirst, hrest⟩ := List.forall_mem_cons.1 h
        obtain ⟨hscan, hused⟩ := scan_append hblank hfirst more
        have hdrop : (rest.drop ((scan c rest).2 - 1)).length < n := by
          rw [List.length_drop]
          omega
        rw [List.cons_append, kinds_scan hblank, kinds_scan hblank, hscan,
          List.drop_append_of_le_length (by omega), ih _ hdrop hrest rfl]
        rfl

end Lexer

/-! ## Forms -/

mutual

/-- Nothing malformed stands for a form. -/
theorem Derives.not_fault {ks : List TokenKind} {f : Form} (h : Derives ks f) :
    ∀ k ∈ ks, ∀ fault, k ≠ .fault fault := by
  match h with
  | .boolean b | .number n | .string s | .symbol name => simp
  | .list hitems =>
    simp only [List.forall_mem_cons, List.forall_mem_append]
    exact ⟨by simp, hitems.not_fault, by simp, List.forall_mem_nil _⟩
  | .mark m hinner => exact List.forall_mem_cons.2 ⟨by simp, hinner.not_fault⟩

theorem DerivesEach.not_fault {ks : List TokenKind} {fs : List Form} (h : DerivesEach ks fs) :
    ∀ k ∈ ks, ∀ fault, k ≠ .fault fault := by
  match h with
  | .nil => exact List.forall_mem_nil _
  | .cons hf hfs => exact List.forall_mem_append.2 ⟨hf.not_fault, hfs.not_fault⟩

end

/-- A text that reads as forms has no malformed tokens: comments apart, all its tokens stand for the forms. -/
theorem not_fault_of_read {source : String} {fs : List Form} (h : read source = .ok fs) :
    ∀ k ∈ Lexer.kinds source.toList, ∀ fault, k ≠ .fault fault := by
  have hderives := derivesEach_of_read h
  rw [significant_tokenize_eq_filter] at hderives
  rintro k hk fault rfl
  exact hderives.not_fault _ (List.mem_filter.2 ⟨hk, rfl⟩) fault rfl

theorem significant_append_newline {s₁ : String} {fs : List Form} (h : read s₁ = .ok fs) (s₂ : String) :
    significant (Lexer.tokenize (s₁ ++ "\n" ++ s₂)) =
      significant (Lexer.tokenize s₁) ++ significant (Lexer.tokenize s₂) := by
  have htext : (s₁ ++ "\n" ++ s₂).toList = s₁.toList ++ '\n' :: s₂.toList := by simp
  simp only [significant_tokenize_eq_filter]
  rw [htext, Lexer.kinds_append_newline (not_fault_of_read h), List.filter_append]

/-- Behind a text that reads as forms and a line break there is a reader that reads as the rest alone does. -/
theorem exists_reader_append_newline {s₁ : String} {fs₁ : List Form} (h : read s₁ = .ok fs₁) (s₂ : String) :
    ∃ r : Reader, read (s₁ ++ "\n" ++ s₂) = r.all.1.map (fs₁ ++ ·) ∧
      ∀ fs₂, r.all.1 = .ok fs₂ ↔ read s₂ = .ok fs₂ := by
  have hkinds := map_kind_trimmed_ofSource (s₁ ++ "\n" ++ s₂)
  rw [significant_append_newline h] at hkinds
  obtain ⟨tokens, rest, hr, htokens, hrest⟩ := List.map_eq_append_iff.1 hkinds
  refine ⟨{ (Reader.ofSource (s₁ ++ "\n" ++ s₂)).trimmed with tokens := rest }, ?_, fun fs₂ => ?_⟩
  · have hopened : (Reader.ofSource (s₁ ++ "\n" ++ s₂)).trimmed.opened = 0 := rfl
    have hdepth := depthEach_le_of_read h
    rw [read, ← Reader.all_trimmed]
    exact Reader.all_of_derivesEach_append (derivesEach_of_read h) hr htokens (by omega)
  · have hsame : significant rest = significant (Reader.ofSource s₂).tokens := by
      rw [significant, hrest, significant_tokenize, significant, List.filter_filter]
      simp only [Bool.and_self]
    rw [Reader.all_eq_ok_iff rfl, read, Reader.all_eq_ok_iff rfl, hsame]

/-- **Forms of a text stay what they are in front of a line break and more text.** What follows is read as if it
stood alone: the whole has its forms behind those of the first text, and reads at all only if it does. -/
theorem read_append_newline {s₁ s₂ : String} {fs₁ : List Form} (h : read s₁ = .ok fs₁) :
    (∀ fs₂, read s₂ = .ok fs₂ → read (s₁ ++ "\n" ++ s₂) = .ok (fs₁ ++ fs₂)) ∧
      ∀ fs, read (s₁ ++ "\n" ++ s₂) = .ok fs → ∃ fs₂, read s₂ = .ok fs₂ ∧ fs = fs₁ ++ fs₂ := by
  obtain ⟨r, hread, hr⟩ := exists_reader_append_newline h s₂
  constructor
  · intro fs₂ h₂
    rw [hread, (hr fs₂).2 h₂]
    rfl
  · intro fs hfs
    rw [hread] at hfs
    cases hall : r.all.1 with
    | error e =>
      rw [hall] at hfs
      cases hfs
    | ok fs₂ =>
      rw [hall] at hfs
      cases hfs
      exact ⟨fs₂, (hr fs₂).1 hall, rfl⟩

/-- A text that ends with an atom and one that ends with a comment: more text would run into both but for the line
break. -/
theorem read_append_newline_openEnds :
    read "a" = .ok [.symbol "a"] ∧ read "b ;c" = .ok [.symbol "b"] ∧
      read ("a" ++ "\n" ++ "b ;c") = .ok [.symbol "a", .symbol "b"] ∧
      read ("b ;c" ++ "\n" ++ "a") = .ok [.symbol "b", .symbol "a"] := by
  have ha : read "a" = .ok [.symbol "a"] := by
    have hkinds : significant (Lexer.tokenize "a") = [.symbol "a"] := by decide +kernel
    refine read_of_significant ?_ (by decide)
    rw [hkinds]
    exact .cons (.symbol _) .nil
  have hb : read "b ;c" = .ok [.symbol "b"] := by
    have hkinds : significant (Lexer.tokenize "b ;c") = [.symbol "b"] := by decide +kernel
    refine read_of_significant ?_ (by decide)
    rw [hkinds]
    exact .cons (.symbol _) .nil
  exact ⟨ha, hb, (read_append_newline ha).1 _ hb, (read_append_newline hb).1 _ ha⟩

end HostLisp
