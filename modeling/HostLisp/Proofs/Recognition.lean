import HostLisp.Proofs.Grammar
import HostLisp.Proofs.Lexing

/-!
# The reader accepts exactly the grammar of forms

A reader that takes derived forms off its tokens is half of the matter (`Reader.all_of_derivesEach`). Here
are the other halves: what a reader returns was derived, and forms that nest too deep fail for that reason
and no other. Comments stand anywhere and take no part.

* `significant`: the kinds of the tokens that take part in forms.
* `Pending`: the tokens that open frames have taken. `Pending.step`: **what one token does keeps them in
  step**; `Reader.derives_of_resume`, `Reader.derivesEach_of_all`: so what is read was derived.
* `Reader.resume_of_tooDeep`, `Reader.all_of_tooDeep`: a derived form that nests too deep is refused with
  the nesting limit.
* `Reader.all_eq_ok_iff`: what a reader with nothing open returns, exactly.
* `read_eq_ok_iff_derivesEach`: **a source reads as some forms exactly if its tokens stand for them and none
  nests too deep.**
-/

namespace HostLisp

/-! ## Tokens that take part -/

/-- The kinds of the tokens that take part in forms: comments and the end mark are left out. -/
def significant (tokens : List Token) : List TokenKind :=
  (tokens.map Token.kind).filter fun k => !k.isTrivia

theorem significant_append (ts us : List Token) : significant (ts ++ us) = significant ts ++ significant us := by
  simp [significant]

theorem significant_of_isTrivia {t : Token} (h : t.kind.isTrivia = true) : significant [t] = [] := by
  simp [significant, h]

/-- The end mark takes no part. -/
theorem significant_tokenize (source : String) :
    significant (Lexer.tokenize source) = significant (Reader.ofSource source).tokens := by
  simp only [Lexer.tokenize, significant_append, Reader.ofSource]
  rw [significant_of_isTrivia rfl, List.append_nil]

theorem significant_tokenize_eq_filter (source : String) :
    significant (Lexer.tokenize source) = (Lexer.kinds source.toList).filter fun k => !k.isTrivia := by
  rw [significant_tokenize]
  rfl

/-! ## What is read was derived -/

theorem DerivesEach.snoc {ks ls : List TokenKind} {fs : List Form} {f : Form} (hs : DerivesEach ks fs)
    (h : Derives ls f) : DerivesEach (ks ++ ls) (fs ++ [f]) := by
  induction fs generalizing ks with
  | nil =>
    cases hs
    simpa using DerivesEach.cons h .nil
  | cons g fs ih =>
    cases hs with | cons hg hs
    rw [List.append_assoc]
    exact .cons hg (ih hs)

/-- The kinds of tokens that open frames have taken: an open list has its parenthesis and its items, a mark
itself. -/
inductive Pending : List Frame → List TokenKind → Prop
  | nil : Pending [] []
  | list {stack : List Frame} {ks ls : List TokenKind} {items : List Form} (place : Text.Span)
      (h : Pending stack ks) (hitems : DerivesEach ls items.reverse) :
      Pending (.list place items :: stack) (ks ++ .openList :: ls)
  | mark {stack : List Frame} {ks : List TokenKind} (m : Mark) (place : Text.Span) (h : Pending stack ks) :
      Pending (.mark m place :: stack) (ks ++ [.mark m])

/-- The kinds of tokens behind what a token leads to: a complete form, or open frames. -/
def Reached (ks : List TokenKind) : Form ⊕ List Frame → Prop
  | .inl f => Derives ks f
  | .inr stack => Pending stack ks

namespace Pending

variable {stack : List Frame} {ks ls : List TokenKind}

theorem deliver (h : Pending stack ks) {f : Form} (hf : Derives ls f) :
    Reached (ks ++ ls) (HostLisp.deliver f stack) := by
  induction h generalizing ls f with
  | nil => exact hf
  | @list stack ks inner items place h hitems _ =>
    have hmore : DerivesEach (inner ++ ls) (f :: items).reverse := by
      rw [List.reverse_cons]
      exact hitems.snoc hf
    have hpending := Pending.list place h hmore
    rw [← List.cons_append, ← List.append_assoc] at hpending
    exact hpending
  | mark m place h ih =>
    -- the mark passes its wrapped form on at once
    have hwrapped := ih (Derives.mark m hf)
    rw [List.append_assoc, List.singleton_append]
    exact hwrapped

/-- **What one token does to open frames.** -/
theorem step {source : String} {opened : Nat} {t : Token} {out : Form ⊕ List Frame} (h : Pending stack ks)
    (hstep : Reader.step source opened stack t = .ok out) : Reached (ks ++ significant [t]) out := by
  obtain ⟨kind, span⟩ := t
  cases kind with
  | openList =>
    simp only [Reader.step] at hstep
    split at hstep
    · cases hstep
    · cases hstep
      exact .list span h .nil
  | mark m =>
    simp only [Reader.step] at hstep
    split at hstep
    · cases hstep
    · cases hstep
      exact .mark m span h
  | closeList =>
    simp only [Reader.step] at hstep
    split at hstep
    · cases hstep
      cases h with | @list below ks ls items place h hitems
      have hclosed := h.deliver (.list hitems)
      rw [← List.cons_append, ← List.append_assoc] at hclosed
      exact hclosed
    · cases hstep
  | fault f => cases hstep
  | comment text | endOfInput =>
    cases hstep
    rw [significant_of_isTrivia rfl, List.append_nil]
    exact h
  | boolean b => cases hstep; exact h.deliver (.boolean b)
  | number n => cases hstep; exact h.deliver (.number n)
  | string s => cases hstep; exact h.deliver (.string s)
  | symbol name => cases hstep; exact h.deliver (.symbol name)

end Pending

namespace Reader

/-- **A form that a reader completes is derived** from what its open frames had taken and the tokens taken
since. -/
theorem derives_of_resume {r r' : Reader} {stack : List Frame} {tokens : List Token} {f : Form}
    {ks : List TokenKind} (hstack : Pending stack ks) (h : r.resume stack tokens = (.ok f, r')) :
    ∃ used, tokens = used ++ r'.tokens ∧ Derives (ks ++ significant used) f := by
  induction tokens generalizing stack ks with
  | nil => simp [resume] at h
  | cons t rest ih =>
    unfold resume at h
    split at h
    · cases h
    · rename_i form hstep
      cases h
      exact ⟨[t], rfl, hstack.step hstep⟩
    · -- the token has gone over to the open frames
      rename_i stack' hstep
      obtain ⟨used, rfl, hderives⟩ := ih (hstack.step hstep) h
      rw [List.append_assoc, ← significant_append] at hderives
      exact ⟨t :: used, rfl, hderives⟩

theorem significant_eq_nil_of_atEnd {r : Reader} (h : r.atEnd = true) : significant r.tokens = [] := by
  simp only [atEnd, List.all_eq_true] at h
  simpa [significant] using h

/-- **All forms that a reader returns are derived from its tokens.** -/
theorem derivesEach_of_all {r : Reader} {fs : List Form} (h : r.all.1 = .ok fs) :
    DerivesEach (significant r.tokens) fs := by
  fun_induction all r generalizing fs with
  | case1 r hend =>
    cases h
    rw [significant_eq_nil_of_atEnd hend]
    exact .nil
  | case2 => cases h
  | case3 r hend f r' hnext _ forms r'' hall ih =>
    rw [hall] at ih
    cases forms with
    | error e => cases h
    | ok gs =>
      cases h
      obtain ⟨used, htokens, hf⟩ := derives_of_resume .nil hnext
      rw [htokens, significant_append]
      exact .cons hf (ih rfl)

/-! ## Comments -/

/-- A reader without the tokens that take no part. -/
def trimmed (r : Reader) : Reader :=
  { r with tokens := r.tokens.filter fun t => !t.kind.isTrivia }

theorem map_kind_trimmed (r : Reader) : r.trimmed.tokens.map Token.kind = significant r.tokens := by
  simp [trimmed, significant, List.filter_map, Function.comp_def]

theorem atEnd_trimmed (r : Reader) : r.trimmed.atEnd = r.atEnd := by
  simp [atEnd, trimmed, List.all_filter]

theorem step_of_isTrivia {t : Token} (h : t.kind.isTrivia = true) (source : String) (opened : Nat)
    (stack : List Frame) : step source opened stack t = .ok (.inr stack) := by
  obtain ⟨kind, span⟩ := t
  cases kind <;> first | rfl | cases h

/-- Comments change nothing about the form that is read, or about the failure. -/
theorem resume_trimmed (r : Reader) (stack : List Frame) (tokens : List Token) :
    (r.trimmed.resume stack (tokens.filter fun t => !t.kind.isTrivia)).1 = (r.resume stack tokens).1 ∧
      ∀ f r', r.resume stack tokens = (.ok f, r') →
        r.trimmed.resume stack (tokens.filter fun t => !t.kind.isTrivia) = (.ok f, r'.trimmed) := by
  induction tokens generalizing stack with
  | nil => simp [resume, trimmed]
  | cons t rest ih =>
    cases htrivia : t.kind.isTrivia with
    | true =>
      rw [List.filter_cons_of_neg (by simp [htrivia]), resume, step_of_isTrivia htrivia]
      exact ih stack
    | false =>
      rw [List.filter_cons_of_pos (by simp [htrivia]), resume, resume]
      simp only [trimmed]
      cases hstep : step r.source r.opened stack t with
      | error e => simp
      | ok out =>
        cases out with
        | inl f =>
          refine ⟨rfl, ?_⟩
          rintro _ _ ⟨⟩
          rfl
        | inr stack' => exact ih stack'

theorem next_trimmed {r r' : Reader} {f : Form} (h : r.next = (.ok f, r')) :
    r.trimmed.next = (.ok f, r'.trimmed) :=
  (resume_trimmed r [] r.tokens).2 f r' h

theorem all_of_next_error {r : Reader} {e : Error} (hend : r.atEnd = false) (h : r.next.1 = .error e) :
    r.all.1 = .error e := by
  rw [all, if_neg (by simp [hend])]
  split
  · rename_i heq
    rw [heq] at h
    cases h
    rfl
  · rename_i heq
    rw [heq] at h
    cases h

/-- **Comments change nothing about what is read.** -/
theorem all_trimmed (r : Reader) : r.trimmed.all.1 = r.all.1 := by
  fun_induction all r with
  | case1 r hend => rw [all, if_pos (by rw [atEnd_trimmed]; exact hend)]
  | case2 r hend e r' hnext =>
    have hfailed : r.trimmed.next.1 = .error e :=
      (resume_trimmed r [] r.tokens).1.trans (congrArg Prod.fst hnext)
    exact all_of_next_error (by rw [atEnd_trimmed]; simpa using hend) hfailed
  | case3 r hend f r' hnext _ forms r'' hall ih =>
    have hend' : r.trimmed.atEnd = false := by rw [atEnd_trimmed]; simpa using hend
    rw [all_of_next hend' (next_trimmed hnext), ih, hall]

/-! ## Forms that nest too deep -/

/-- The failure of forms that nest too deep. -/
def tooDeep : Error := .plain (.limitExceeded (.nesting Form.nestingLimit))

theorem resume_full {r : Reader} {stack : List Frame} {t : Token}
    (hkind : t.kind = .openList ∨ ∃ m, t.kind = .mark m) (h : Form.nestingLimit ≤ r.opened + stack.length)
    (rest : List Token) : (r.resume stack (t :: rest)).1 = .error tooDeep := by
  obtain hkind | ⟨m, hkind⟩ := hkind <;> simp only [resume, step, hkind, if_pos h, tooDeep]

mutual

/-- **A reader refuses a derived form that nests too deep** for the frames that are open. -/
theorem resume_of_tooDeep {ks : List TokenKind} {f : Form} (h : Derives ks f) {r : Reader}
    {stack : List Frame} {tokens : List Token} (htokens : tokens.map Token.kind = ks)
    (hroom : r.opened + stack.length ≤ Form.nestingLimit)
    (hdeep : Form.nestingLimit < r.opened + stack.length + f.depth) (rest : List Token) :
    (r.resume stack (tokens ++ rest)).1 = .error tooDeep := by
  match h with
  | .boolean b | .number n | .string s | .symbol name =>
    -- an atom adds no level
    simp only [Form.depth] at hdeep
    omega
  | @Derives.list _ items hitems =>
    obtain ⟨t, inner, rfl, ht, hinner⟩ := List.map_eq_cons_iff.1 htokens
    obtain ⟨body, last, rfl, hbody, -⟩ := List.map_eq_append_iff.1 hinner
    rw [Form.depth] at hdeep
    rw [List.cons_append, List.append_assoc]
    by_cases hfull : Form.nestingLimit ≤ r.opened + stack.length
    · exact resume_full (.inl ht) hfull _
    · rw [resume_push (.inl ⟨ht, rfl⟩) (by omega)]
      exact resume_of_tooDeepEach hitems hbody (by omega) (by omega) _
  | @Derives.mark m _ inner hinner =>
    obtain ⟨t, body, rfl, ht, hbody⟩ := List.map_eq_cons_iff.1 htokens
    have hwrap : (Form.wrap m.keyword inner).depth = inner.depth + 1 := by
      simp [Form.wrap, Form.depth, Form.depthEach]
    rw [hwrap] at hdeep
    rw [List.cons_append]
    by_cases hfull : Form.nestingLimit ≤ r.opened + stack.length
    · exact resume_full (.inr ⟨m, ht⟩) hfull _
    · have hlevel : (Frame.mark m t.span :: stack).length = stack.length + 1 := rfl
      rw [resume_push (.inr ⟨m, ht, rfl⟩) (by omega)]
      exact resume_of_tooDeep hinner hbody (by omega) (by omega) rest

/-- Of forms in a row, the first that nests too deep is refused. Those before it become items. -/
theorem resume_of_tooDeepEach {ks : List TokenKind} {fs : List Form} (h : DerivesEach ks fs) {r : Reader}
    {place : Text.Span} {items : List Form} {stack : List Frame} {tokens : List Token}
    (htokens : tokens.map Token.kind = ks) (hroom : r.opened + (stack.length + 1) ≤ Form.nestingLimit)
    (hdeep : Form.nestingLimit < r.opened + (stack.length + 1) + Form.depthEach fs) (rest : List Token) :
    (r.resume (.list place items :: stack) (tokens ++ rest)).1 = .error tooDeep := by
  match h with
  | .nil =>
    rw [Form.depthEach] at hdeep
    omega
  | @DerivesEach.cons _ _ f fs hf hfs =>
    obtain ⟨first, more, rfl, hfirst, hmore⟩ := List.map_eq_append_iff.1 htokens
    have hlevel : (Frame.list place items :: stack).length = stack.length + 1 := rfl
    rw [Form.depthEach] at hdeep
    rw [List.append_assoc]
    by_cases hfits : r.opened + (stack.length + 1) + f.depth ≤ Form.nestingLimit
    · rw [resume_of_derives hf hfirst (by rw [hlevel]; exact hfits), proceed, deliver]
      exact resume_of_tooDeepEach hfs hmore hroom (by omega) rest
    · exact resume_of_tooDeep hf hfirst (by omega) (by omega) _

end

/-- **A reader refuses derived forms of which one nests too deep.** -/
theorem all_of_tooDeep {ks : List TokenKind} {fs : List Form} (h : DerivesEach ks fs) {r : Reader}
    (htokens : r.tokens.map Token.kind = ks) (hroom : r.opened ≤ Form.nestingLimit)
    (hdeep : Form.nestingLimit < r.opened + Form.depthEach fs) : r.all.1 = .error tooDeep := by
  induction fs generalizing r ks with
  | nil =>
    rw [Form.depthEach] at hdeep
    omega
  | cons f fs ih =>
    cases h with | cons hf hfs
    obtain ⟨tokens, rest, hr, hfirst, hrest⟩ := List.map_eq_append_iff.1 htokens
    rw [Form.depthEach] at hdeep
    have hend := atEnd_of_derives hf hr hfirst
    by_cases hfits : r.opened + f.depth ≤ Form.nestingLimit
    · have hnext := next_of_derives hf hr hfirst hfits
      have hfailed : ({ r with tokens := rest } : Reader).all.1 = .error tooDeep :=
        ih hfs hrest hroom (by show Form.nestingLimit < r.opened + Form.depthEach fs; omega)
      rw [all_of_next hend hnext, hfailed]
      rfl
    · have hempty : r.opened + ([] : List Frame).length = r.opened := rfl
      refine all_of_next_error hend ?_
      rw [next, hr]
      exact resume_of_tooDeep hf hfirst (by omega) (by omega) rest

/-- **A reader with nothing open returns exactly the forms that its tokens stand for**, if none nests too deep. -/
theorem all_eq_ok_iff {r : Reader} (hopened : r.opened = 0) (fs : List Form) :
    r.all.1 = .ok fs ↔ DerivesEach (significant r.tokens) fs ∧ Form.depthEach fs ≤ Form.nestingLimit := by
  have hopened' : r.trimmed.opened = 0 := hopened
  constructor
  · intro h
    have hderives := derivesEach_of_all h
    refine ⟨hderives, ?_⟩
    by_contra hdeep
    -- a form that was derived and nests too deep would have been refused
    rw [← all_trimmed, all_of_tooDeep hderives (map_kind_trimmed r) (by omega) (by omega)] at h
    cases h
  · rintro ⟨hderives, hdepth⟩
    rw [← all_trimmed]
    exact all_of_derivesEach hderives (map_kind_trimmed r) (by omega)

end Reader

/-! ## Sources -/

section

variable {source : String} {fs : List Form}

theorem read_eq_ok_iff : read source = .ok fs ↔
    DerivesEach (significant (Lexer.tokenize source)) fs ∧ Form.depthEach fs ≤ Form.nestingLimit := by
  rw [significant_tokenize]
  exact Reader.all_eq_ok_iff rfl fs

theorem derivesEach_of_read (h : read source = .ok fs) :
    DerivesEach (significant (Lexer.tokenize source)) fs :=
  (read_eq_ok_iff.1 h).1

/-- What is read stays within the nesting limit. -/
theorem depthEach_le_of_read (h : read source = .ok fs) : Form.depthEach fs ≤ Form.nestingLimit :=
  (read_eq_ok_iff.1 h).2

theorem read_of_significant (h : DerivesEach (significant (Lexer.tokenize source)) fs)
    (hdepth : Form.depthEach fs ≤ Form.nestingLimit) : read source = .ok fs :=
  read_eq_ok_iff.2 ⟨h, hdepth⟩

theorem map_kind_trimmed_ofSource (source : String) :
    (Reader.ofSource source).trimmed.tokens.map Token.kind = significant (Lexer.tokenize source) := by
  rw [Reader.map_kind_trimmed, significant_tokenize]

theorem read_of_tooDeep (h : DerivesEach (significant (Lexer.tokenize source)) fs)
    (hdeep : Form.nestingLimit < Form.depthEach fs) : read source = .error Reader.tooDeep := by
  have hopened : (Reader.ofSource source).trimmed.opened = 0 := rfl
  rw [read, ← Reader.all_trimmed]
  exact Reader.all_of_tooDeep h (map_kind_trimmed_ofSource source) (by omega) (by omega)

end

/-- **A source reads as some forms exactly if its tokens stand for them and none nests too deep.** Where one
does, the nesting limit is what reading fails with. -/
theorem read_eq_ok_iff_derivesEach (source : String) (fs : List Form) :
    (read source = .ok fs ↔ DerivesEach (significant (Lexer.tokenize source)) fs ∧
        ∀ f ∈ fs, f.nestingDepth ≤ Form.nestingLimit) ∧
      (DerivesEach (significant (Lexer.tokenize source)) fs →
        (∃ f ∈ fs, Form.nestingLimit < f.nestingDepth) →
          read source = .error (.plain (.limitExceeded (.nesting Form.nestingLimit)))) := by
  have hfits : (∀ f ∈ fs, f.nestingDepth ≤ Form.nestingLimit) ↔ Form.depthEach fs ≤ Form.nestingLimit := by
    simp only [Form.depthEach_le_iff, Form.nestingDepth_eq_depth]
  refine ⟨⟨fun h => ?_, fun ⟨hderives, hdepth⟩ => ?_⟩, fun hderives ⟨f, hf, hdeep⟩ => ?_⟩
  · exact ⟨derivesEach_of_read h, hfits.2 (depthEach_le_of_read h)⟩
  · exact read_of_significant hderives (hfits.1 hdepth)
  · refine read_of_tooDeep hderives (Nat.lt_of_not_le fun hall => ?_)
    have := hfits.2 hall f hf
    omega

/-- The empty list inside a number of lists. -/
def nested : Nat → Form
  | 0 => .list []
  | n + 1 => .list [nested n]

/-- As many parentheses around a pair of them. -/
def nestedText : Nat → List Char
  | 0 => ['(', ')']
  | n + 1 => '(' :: (nestedText n ++ [')'])

/-- The same behind a comment. -/
def nestedSource (n : Nat) : String :=
  String.ofList (';' :: '\n' :: nestedText n)

theorem depth_nested (n : Nat) : (nested n).nestingDepth = n + 1 := by
  rw [Form.nestingDepth_eq_depth]
  induction n with
  | zero => rfl
  | succ n ih => simp [nested, Form.depth, Form.depthEach, ih]

theorem exists_derives_nested (n : Nat) :
    ∃ ks, Lexer.Spells (nestedText n) ks ∧ Derives ks (nested n) ∧ ∀ k ∈ ks, k.isTrivia = false := by
  induction n with
  | zero =>
    have hinner : Lexer.Spells [] [] := fun rest _ => rfl
    exact ⟨_, Lexer.spells_list hinner, .list .nil, by simp [TokenKind.isTrivia]⟩
  | succ n ih =>
    obtain ⟨ks, hspells, hderives, hks⟩ := ih
    refine ⟨_, Lexer.spells_list hspells, ?_, ?_⟩
    · have hitems := DerivesEach.cons hderives .nil
      rw [List.append_nil] at hitems
      exact .list hitems
    · simp only [List.forall_mem_cons, List.forall_mem_append]
      exact ⟨rfl, hks, rfl, List.forall_mem_nil _⟩

theorem derivesEach_nested (n : Nat) :
    DerivesEach (significant (Lexer.tokenize (nestedSource n))) [nested n] := by
  obtain ⟨ks, hspells, hderives, hks⟩ := exists_derives_nested n
  have hkinds : Lexer.kinds (';' :: '\n' :: nestedText n) = .comment ";" :: ks := by
    rw [Lexer.kinds_scan (by decide)]
    have hscan : Lexer.scan ';' ('\n' :: nestedText n) = (.comment ";", 1) := by simp [Lexer.scan]
    rw [hscan]
    simp only [Nat.sub_self, List.drop_zero]
    rw [Lexer.kinds_blank (by decide), hspells.kinds_eq]
  have hsignificant : significant (Lexer.tokenize (nestedSource n)) = ks := by
    rw [significant_tokenize_eq_filter, nestedSource, String.toList_ofList, hkinds,
      List.filter_cons_of_neg (by simp [TokenKind.isTrivia])]
    exact List.filter_eq_self.2 fun k hk => by simp [hks k hk]
  have hrow := DerivesEach.cons hderives .nil
  rw [List.append_nil] at hrow
  rw [hsignificant]
  exact hrow

/-- The limit is exact: lists nest as deep as it says, and not one level deeper. -/
theorem read_eq_ok_iff_derivesEach_nested :
    read (nestedSource 255) = .ok [nested 255] ∧
      read (nestedSource 256) = .error (.plain (.limitExceeded (.nesting Form.nestingLimit))) := by
  constructor
  · refine (read_eq_ok_iff_derivesEach _ _).1.2 ⟨derivesEach_nested 255, ?_⟩
    simp [depth_nested, Form.nestingLimit]
  · refine (read_eq_ok_iff_derivesEach _ [nested 256]).2 (derivesEach_nested 256) ?_
    simp [depth_nested, Form.nestingLimit]

end HostLisp
