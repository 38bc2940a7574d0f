import HostLisp.Proofs.Recognition
import HostLisp.Proofs.Tiling
import Mathlib.Data.List.DropRight

/-!
# Where reading errors point

A reading error has a line, a column and the text of the line. They come from the span of a token: the one that
could not be taken, or one that opened a list or a mark which the end of the source left open. Line and column
were counted on the way to the token, and the text of the line is searched for in the source from its byte
offset, so that they are tied together only by what stands in front of the token.

* `Span.Covers.lineText_eq`: the text of a span's line is the line with that number.
* `Balanced`, `Unmatched`: parentheses that match, and tokens in which none matches one in front.
* `Opened`: where the open frames were opened, and that all is balanced since. `Opened.step`: **what one token
  does keeps this.**
* `Reader.pointsAt_of_resume`, `Reader.pointsAt_of_all`: so an error points at a token.
* `diagnostics_point_at_tokens`: **what line, column, context and an unterminated list say about the source.**
-/

namespace HostLisp

/-! ## Lines -/

namespace Text

theorem length_splitOn_newline (cs : List Char) : (cs.splitOn '\n').length = cs.count '\n' + 1 := by
  induction cs with
  | nil => rfl
  | cons c cs ih =>
    rw [List.splitOn, List.splitOnP_cons_eq_if_modifyHead]
    rw [List.splitOn] at ih
    by_cases hc : c = '\n'
    · simp [hc, ih]
    · simp [hc, ih]

/-- The first line ends with the first line end. -/
theorem head?_splitOn_newline (cs : List Char) : (cs.splitOn '\n').head? = some (cs.takeWhile (· ≠ '\n')) := by
  induction cs with
  | nil => rfl
  | cons c cs ih =>
    rw [List.splitOn, List.splitOnP_cons_eq_if_modifyHead]
    rw [List.splitOn] at ih
    by_cases hc : c = '\n'
    · simp [hc]
    · simp [hc, List.head?_modifyHead, ih]

/-- A text without line ends in front of another is the start of its first line. -/
theorem takeWhile_newline_append {last : List Char} (h : '\n' ∉ last) (rest : List Char) :
    (last ++ rest).takeWhile (· ≠ '\n') = last ++ rest.takeWhile (· ≠ '\n') :=
  List.takeWhile_append_of_pos fun c hc => by simpa using ne_of_mem_of_not_mem hc h

/-- **The line around a place** has as many lines in front of it as there are line ends. -/
theorem splitOn_newline_getElem? (before rest : List Char) :
    ((before ++ rest).splitOn '\n')[before.count '\n']? =
      some ((before.reverse.takeWhile (· ≠ '\n')).reverse ++ rest.takeWhile (· ≠ '\n')) := by
  by_cases hmem : '\n' ∈ before
  · -- the last line end in front starts the line
    obtain ⟨last, ahead, hbefore, hlast⟩ := List.eq_append_cons_of_mem (List.mem_reverse.2 hmem)
    obtain rfl : before = ahead.reverse ++ '\n' :: last.reverse := by simpa using congrArg List.reverse hbefore
    have hcount : last.reverse.count '\n' = 0 := by simpa [List.count_eq_zero] using hlast
    have hsplit : ((ahead.reverse ++ '\n' :: last.reverse) ++ rest).splitOn '\n' =
        ahead.reverse.splitOn '\n' ++ (last.reverse ++ rest).splitOn '\n' := by
      rw [List.append_assoc, List.cons_append]
      exact List.splitOnP_append_cons _ _ (by simp)
    have hahead := length_splitOn_newline ahead.reverse
    have hindex : (ahead.reverse ++ '\n' :: last.reverse).count '\n' = (ahead.reverse.splitOn '\n').length := by
      rw [hahead, List.count_append, List.count_cons_self, hcount]
    have hline : (ahead.reverse ++ '\n' :: last.reverse).reverse.takeWhile (· ≠ '\n') = last := by
      rw [hbefore, takeWhile_newline_append hlast]
      simp
    rw [hsplit, hindex, List.getElem?_append_right (Nat.le_refl _), Nat.sub_self, ← List.head?_eq_getElem?,
      head?_splitOn_newline, takeWhile_newline_append (by simpa using hlast), hline]
  · have hcount : before.count '\n' = 0 := List.count_eq_zero.2 hmem
    have hline : before.reverse.takeWhile (· ≠ '\n') = before.reverse := by
      have hnone : '\n' ∉ before.reverse := by simpa using hmem
      simpa using takeWhile_newline_append hnone []
    rw [hcount, ← List.head?_eq_getElem?, head?_splitOn_newline, takeWhile_newline_append hmem, hline,
      List.reverse_reverse]

/-- **The text of a span's line** is the line of the source that has as many line ends in front as the span, without
the carriage returns at its end. -/
theorem Span.Covers.lineText_eq {s : Span} {source : String} {before text after : List Char}
    (h : s.Covers before text) (hsource : source.toList = before ++ text ++ after) :
    ∃ line, (source.toList.splitOn '\n')[before.count '\n']? = some line ∧
      s.lineText source = String.ofList (line.rdropWhile (· = '\r')) := by
  have hline := splitOn_newline_getElem? before (text ++ after)
  rw [← List.append_assoc, ← hsource] at hline
  refine ⟨_, hline, ?_⟩
  rw [Span.lineText, h.start_eq, hsource, List.append_assoc, takeBytes_append, dropBytes_append]
  rfl

/-- The characters in front of a span. -/
theorem Span.Covers.takeBytes_eq {s : Span} {source : String} {before text after : List Char}
    (h : s.Covers before text) (hsource : source.toList = before ++ text ++ after) :
    takeBytes s.start source.toList = before := by
  rw [h.start_eq, hsource, List.append_assoc, takeBytes_append]

end Text

/-! ## Parentheses -/

/-- Tokens in which every parenthesis has its match. -/
inductive Balanced : List TokenKind → Prop
  | nil : Balanced []
  | other {k : TokenKind} {ks : List TokenKind} (hopen : k ≠ .openList) (hclose : k ≠ .closeList)
      (h : Balanced ks) : Balanced (k :: ks)
  | group {inner ks : List TokenKind} (hinner : Balanced inner) (h : Balanced ks) :
      Balanced (.openList :: (inner ++ .closeList :: ks))

/-- No closing parenthesis matches one that was opened in front of the tokens. -/
def Unmatched (ks : List TokenKind) : Prop :=
  ∀ inner rest, ks = inner ++ .closeList :: rest → ¬Balanced inner

namespace Balanced

variable {ks ls : List TokenKind}

theorem append (h : Balanced ks) (h' : Balanced ls) : Balanced (ks ++ ls) := by
  induction h with
  | nil => exact h'
  | other hopen hclose _ ih => exact .other hopen hclose ih
  | group hinner _ _ ih =>
    rw [List.cons_append, List.append_assoc, List.cons_append]
    exact .group hinner ih

theorem token {t : Token} (hopen : t.kind ≠ .openList) (hclose : t.kind ≠ .closeList) :
    Balanced ([t].map Token.kind) :=
  .other hopen hclose .nil

theorem count_eq (h : Balanced ks) : ks.count .closeList = ks.count .openList := by
  induction h with
  | nil => rfl
  | other hopen hclose _ ih => rw [List.count_cons_of_ne hopen, List.count_cons_of_ne hclose, ih]
  | group _ _ ihinner ih =>
    simp only [List.count_cons, List.count_append, ihinner, ih]
    simp
    omega

/-- Nothing is closed before it was opened. -/
theorem count_le (h : Balanced ks) {first rest : List TokenKind} (hsplit : ks = first ++ rest) :
    first.count .closeList ≤ first.count .openList := by
  induction h generalizing first rest with
  | nil => simp [(List.append_eq_nil_iff.1 hsplit.symm).1]
  | other hopen hclose _ ih =>
    cases first with
    | nil => rfl
    | cons k first =>
      obtain ⟨rfl, hrest⟩ := List.cons.inj hsplit
      rw [List.count_cons_of_ne hopen, List.count_cons_of_ne hclose]
      exact ih hrest
  | @group inner ks hinner _ ihinner ih =>
    cases first with
    | nil => rfl
    | cons k first =>
      obtain ⟨rfl, htail⟩ := List.cons.inj hsplit
      rw [List.count_cons_self, List.count_cons_of_ne (by decide)]
      -- the first tokens end inside the group or behind it
      rcases List.append_eq_append_iff.1 htail with ⟨first', rfl, hrest⟩ | ⟨more, hinside, -⟩
      · cases first' with
        | nil =>
          rw [List.append_nil, hinner.count_eq]
          omega
        | cons k first' =>
          obtain ⟨rfl, hbehind⟩ := List.cons.inj hrest
          have hle := ih hbehind
          have heq := hinner.count_eq
          simp only [List.count_append, List.count_cons]
          simp
          omega
      · have hle := ihinner hinside
        omega

/-- **What is balanced has no match for what was opened in front.** -/
theorem unmatched (h : Balanced ks) : Unmatched ks := by
  rintro inner rest rfl hinner
  have hsplit : inner ++ .closeList :: rest = (inner ++ [.closeList]) ++ rest := by simp
  have hle := h.count_le hsplit
  rw [List.count_append, List.count_append, hinner.count_eq] at hle
  simp at hle

end Balanced

/-! ## Open frames -/

/-- The tokens that were taken in front of a place, and the frames that are open there: each was opened by one of
the tokens, and what follows up to the next is balanced. -/
inductive Opened : List Frame → List Token → Prop
  | none (taken : List Token) : Opened [] taken
  | list {stack : List Frame} {taken inside : List Token} {t : Token} (items : List Form) (h : Opened stack taken)
      (ht : t.kind = .openList) (hinside : Balanced (inside.map Token.kind)) :
      Opened (.list t.span items :: stack) (taken ++ t :: inside)
  | mark {stack : List Frame} {taken inside : List Token} {t : Token} {m : Mark} (h : Opened stack taken)
      (ht : t.kind = .mark m) (hinside : Balanced (inside.map Token.kind)) :
      Opened (.mark m t.span :: stack) (taken ++ t :: inside)

namespace Opened

variable {stack : List Frame} {taken more : List Token}

/-- More tokens that are balanced go into the innermost frame. -/
theorem append (h : Opened stack taken) (hmore : Balanced (more.map Token.kind)) : Opened stack (taken ++ more) := by
  cases h with
  | none => exact .none _
  | list items h ht hinside =>
    rw [List.append_assoc, List.cons_append]
    refine .list items h ht ?_
    rw [List.map_append]
    exact hinside.append hmore
  | mark h ht hinside =>
    rw [List.append_assoc, List.cons_append]
    refine .mark h ht ?_
    rw [List.map_append]
    exact hinside.append hmore

theorem deliver (h : Opened stack taken) (hmore : Balanced (more.map Token.kind)) {f : Form}
    {stack' : List Frame} (hdeliver : HostLisp.deliver f stack = .inr stack') : Opened stack' (taken ++ more) := by
  induction h generalizing more f with
  | none => cases hdeliver
  | list items h ht hinside _ =>
    cases hdeliver
    exact (Opened.list _ h ht hinside).append hmore
  | @mark stack taken inside t m h ht hinside ih =>
    -- the mark and what it took go to the frame below
    rw [List.append_assoc, List.cons_append]
    refine ih ?_ hdeliver
    rw [List.map_cons, List.map_append, ht]
    exact .other (by simp) (by simp) (hinside.append hmore)

/-- **What one token does to open frames.** -/
theorem step {source : String} {opened : Nat} {t : Token} {stack' : List Frame} (h : Opened stack taken)
    (hstep : Reader.step source opened stack t = .ok (.inr stack')) : Opened stack' (taken ++ [t]) := by
  obtain ⟨kind, span⟩ := t
  cases kind with
  | openList =>
    simp only [Reader.step] at hstep
    split at hstep
    · cases hstep
    · cases hstep
      exact @Opened.list _ _ [] ⟨.openList, span⟩ [] h rfl .nil
  | mark m =>
    simp only [Reader.step] at hstep
    split at hstep
    · cases hstep
    · cases hstep
      exact @Opened.mark _ _ [] ⟨.mark m, span⟩ m h rfl .nil
  | closeList =>
    simp only [Reader.step] at hstep
    split at hstep
    · rename_i opener items below
      cases h with | @list _ taken inside t _ h ht hinside
      rw [List.append_assoc, List.cons_append]
      refine h.deliver ?_ (Except.ok.inj hstep)
      rw [List.map_cons, List.map_append, ht]
      exact .group hinside .nil
    · cases hstep
  | fault f => cases hstep
  | comment text | endOfInput =>
    cases hstep
    exact h.append (.token (by simp) (by simp))
  | boolean b | number n | string s | symbol name =>
    exact h.deliver (.token (by simp) (by simp)) (Except.ok.inj hstep)

end Opened

/-! ## Errors -/

/-- A reading error at a token of some tokens. Where it is a list without an end, the token opened the list, and all
is balanced behind it. -/
def PointsAt (source : String) (tokens : List Token) (e : Error) : Prop :=
  ∀ f line column context, e.cause = .unreadable f line column context → ∃ before t after,
    tokens = before ++ t :: after ∧ e = .unreadable source t.span f ∧
      (f = .unterminatedList → t.kind = .openList ∧ Balanced (after.map Token.kind))

namespace Reader

/-- The mark behind the tokens of a reader. -/
def endMark (r : Reader) : Token := ⟨.endOfInput, r.finish⟩

theorem pointsAt_of_eq {source : String} {before after : List Token} {t : Token} {f : ReadFault}
    (h : f = .unterminatedList → t.kind = .openList ∧ Balanced (after.map Token.kind)) :
    PointsAt source (before ++ t :: after) (.unreadable source t.span f) := by
  rintro f' line column context ⟨⟩
  exact ⟨before, t, after, rfl, rfl, h⟩

/-- **A token that cannot be taken is named by the error.** -/
theorem pointsAt_of_step {source : String} {opened : Nat} {stack : List Frame} {t : Token} {e : Error}
    (h : step source opened stack t = .error e) (before after : List Token) :
    PointsAt source (before ++ t :: after) e := by
  obtain ⟨kind, span⟩ := t
  cases kind with
  | openList | mark m =>
    simp only [step] at h
    split at h
    · -- the nesting limit is no reading error
      cases h
      rintro f line column context ⟨⟩
    · cases h
  | closeList =>
    simp only [step] at h
    split at h
    · cases h
    · cases h
      exact pointsAt_of_eq (by simp)
  | fault f =>
    cases h
    exact pointsAt_of_eq (by simp)
  | comment text | endOfInput | boolean b | number n | string s | symbol name => cases h

/-- At the end of the source the error names what opened the innermost frame. -/
theorem pointsAt_of_endFault {r : Reader} {stack : List Frame} {taken : List Token} (hstack : Opened stack taken) :
    PointsAt r.source (taken ++ [r.endMark])
      (.unreadable r.source (endFault r.finish stack).2 (endFault r.finish stack).1) := by
  have hend : Balanced ([r.endMark].map Token.kind) := .token (by simp [endMark]) (by simp [endMark])
  cases hstack with
  | none =>
    exact @pointsAt_of_eq _ taken [] r.endMark .unexpectedEnd (by simp)
  | @list stack taken inside t items h ht hinside =>
    rw [List.append_assoc, List.cons_append]
    refine pointsAt_of_eq fun _ => ⟨ht, ?_⟩
    rw [List.map_append]
    exact hinside.append hend
  | mark h ht hinside =>
    rw [List.append_assoc, List.cons_append]
    exact pointsAt_of_eq (by simp [endFault])

/-- **A failure with frames open points at a token**, taken before or still ahead. -/
theorem pointsAt_of_resume {r r' : Reader} {stack : List Frame} {taken tokens : List Token} {e : Error}
    (hstack : Opened stack taken) (h : r.resume stack tokens = (.error e, r')) :
    PointsAt r.source (taken ++ tokens ++ [r.endMark]) e := by
  induction tokens generalizing stack taken with
  | nil =>
    cases h
    rw [List.append_nil]
    exact pointsAt_of_endFault hstack
  | cons t rest ih =>
    unfold resume at h
    split at h
    · rename_i hstep
      cases h
      rw [List.append_assoc, List.cons_append]
      exact pointsAt_of_step hstep _ _
    · cases h
    · rename_i stack' hstep
      have hpoints := ih (hstack.step hstep) h
      rwa [List.append_assoc taken, List.singleton_append] at hpoints

theorem source_finish_of_resume {r r' : Reader} {stack : List Frame} {tokens : List Token} {f : Form}
    (h : r.resume stack tokens = (.ok f, r')) : r'.source = r.source ∧ r'.finish = r.finish := by
  induction tokens generalizing stack with
  | nil => simp [resume] at h
  | cons t rest ih =>
    unfold resume at h
    split at h
    · cases h
    · cases h
      exact ⟨rfl, rfl⟩
    · exact ih h

/-- What a reader leaves behind a form are the last of its tokens. -/
theorem exists_used_of_next {r r' : Reader} {f : Form} (h : r.next = (.ok f, r')) :
    r'.source = r.source ∧ r'.finish = r.finish ∧ ∃ used, r.tokens = used ++ r'.tokens := by
  obtain ⟨used, hused, -⟩ := derives_of_resume .nil h
  exact ⟨(source_finish_of_resume h).1, (source_finish_of_resume h).2, used, hused⟩

/-- **A failure to read all forms points at a token.** -/
theorem pointsAt_of_all {r : Reader} {e : Error} (taken : List Token) (h : r.all.1 = .error e) :
    PointsAt r.source (taken ++ r.tokens ++ [r.endMark]) e := by
  fun_induction all r generalizing taken with
  | case1 => cases h
  | case2 r hend e' r' hnext =>
    cases h
    exact pointsAt_of_resume (.none taken) hnext
  | case3 r hend f r' hnext _ forms r'' hall ih =>
    cases forms with
    | ok fs => cases h
    | error e' =>
      cases h
      obtain ⟨hsource, hfinish, used, hused⟩ := exists_used_of_next hnext
      have hpoints := ih (taken ++ used) (by rw [hall])
      rwa [endMark, hsource, hfinish, List.append_assoc taken, ← hused] at hpoints

/-- A reader that is not at its end has a token where the next form would start. -/
theorem pointsAt_place (r : Reader) (taken : List Token) :
    PointsAt r.source (taken ++ r.tokens ++ [r.endMark]) (.unreadable r.source r.place .extraForm) := by
  unfold place
  split
  · rename_i t ht
    obtain ⟨before, after, hsplit⟩ := List.append_of_mem (List.mem_of_find?_eq_some ht)
    rw [hsplit, ← List.append_assoc, List.append_assoc _ (t :: after), List.cons_append]
    exact pointsAt_of_eq (by simp)
  · exact @pointsAt_of_eq _ (taken ++ r.tokens) [] r.endMark .extraForm (by simp)

end Reader

theorem pointsAt_of_read {source : String} {e : Error} (h : read source = .error e) :
    PointsAt source (Lexer.tokenize source) e :=
  Reader.pointsAt_of_all [] h

theorem pointsAt_of_readOne {source : String} {e : Error} (h : readOne source = .error e) :
    PointsAt source (Lexer.tokenize source) e := by
  unfold readOne at h
  split at h
  · rename_i hnext
    cases h
    exact Reader.pointsAt_of_resume (.none []) hnext
  · rename_i f r hnext
    split at h
    · cases h
    · cases h
      obtain ⟨hsource, hfinish, used, hused⟩ := Reader.exists_used_of_next hnext
      have hpoints := r.pointsAt_place used
      rw [Reader.endMark, hsource, hfinish, ← hused] at hpoints
      exact hpoints

/-- **Reading errors point at the right place.** Where a source or the one form of a source cannot be read, a token of
the source starts at the line and column of the error. The context is the line on which the token starts, without the
carriage returns at its end. The number of that line, counted from one, is the line of the error, up to multiples of
the size of the counters. Where a list has no end, the token opened it, and no token behind matches. -/
theorem diagnostics_point_at_tokens {source : String} {e : Error} {f : ReadFault} {line column : UInt32}
    {context : String} (h : read source = .error e ∨ readOne source = .error e)
    (hcause : e.cause = .unreadable f line column context) : ∃ before t after,
      Lexer.tokenize source = before ++ t :: after ∧ t.span.line = line ∧ t.span.column = column ∧
        (∃ n text, n = (Text.takeBytes t.span.start source.toList).count '\n' ∧
          line.toNat = (n + 1) % UInt32.size ∧ (source.toList.splitOn '\n')[n]? = some text ∧
          context = String.ofList (text.rdropWhile (· = '\r'))) ∧
        (f = .unterminatedList → t.kind = .openList ∧ Unmatched (after.map Token.kind)) := by
  have hpoints : PointsAt source (Lexer.tokenize source) e := h.elim pointsAt_of_read pointsAt_of_readOne
  obtain ⟨before, t, after, htokens, rfl, hlist⟩ := hpoints f line column context hcause
  cases hcause
  have hmem : t ∈ Lexer.tokenize source := by simp [htokens]
  obtain ⟨ahead, text, behind, hsource, hcovers, -⟩ := (Lexer.tiles_tokenize source).covers t hmem
  rw [List.nil_append] at hsource
  refine ⟨before, t, after, htokens, rfl, rfl, ?_, fun hf => ?_⟩
  · obtain ⟨context, hline, hcontext⟩ := hcovers.lineText_eq hsource
    exact ⟨_, context, by rw [hcovers.takeBytes_eq hsource], by rw [hcovers.line_eq, Nat.add_comm], hline, hcontext⟩
  · obtain ⟨hopen, hbalanced⟩ := hlist hf
    exact ⟨hopen, hbalanced.unmatched⟩

/-- A list inside another, on a second line: neither is closed, and the error is about the inner one. -/
def openLists : String := "(a ()\r\n (b\r\r"

theorem diagnostics_point_at_tokens_openLists : ∃ e, read openLists = .error e ∧
    e.cause = .unreadable .unterminatedList 2 2 " (b" ∧ ∃ before t after,
      Lexer.tokenize openLists = before ++ t :: after ∧ t.span.line = 2 ∧ t.span.column = 2 ∧
        (∃ n text, n = (Text.takeBytes t.span.start openLists.toList).count '\n' ∧
          (2 : UInt32).toNat = (n + 1) % UInt32.size ∧ (openLists.toList.splitOn '\n')[n]? = some text ∧
          " (b" = String.ofList (text.rdropWhile (· = '\r'))) ∧
        (ReadFault.unterminatedList = .unterminatedList →
          t.kind = .openList ∧ Unmatched (after.map Token.kind)) := by
  -- only the number of forms is compared: forms have no decidable equality
  have hfails : ((read openLists).mapError Error.cause).map List.length =
      .error (.unreadable .unterminatedList 2 2 " (b") := by decide +kernel
  cases hread : read openLists with
  | ok fs =>
    rw [hread] at hfails
    cases hfails
  | error e =>
    rw [hread] at hfails
    have hcause := Except.error.inj hfails
    exact ⟨e, rfl, hcause, diagnostics_point_at_tokens (Or.inl hread) hcause⟩

/-! ## More lines than there are numbers for them -/

theorem takeWhile_replicate_newline (n : Nat) :
    (List.replicate n '\n').takeWhile (fun c => decide (c ≠ '\n')) = [] := by
  cases n <;> simp [List.replicate_succ]

/-- A parenthesis that closes nothing, behind line ends: the context is what stands on its line. -/
theorem read_behindLines (n : Nat) : ∃ e, read (Lexer.behindLines n ')') = .error e ∧
    e.cause = .unreadable .unexpectedClose (.ofNat (1 + n)) 1 ")" := by
  have htokens : (Reader.ofSource (Lexer.behindLines n ')')).tokens = _ :=
    Lexer.tokensFrom_behindLines (by decide) rfl n
  refine ⟨.unreadable (Lexer.behindLines n ')') (.of (.after .start (List.replicate n '\n')) [')']) .unexpectedClose,
    ?_, ?_⟩
  · rw [read, Reader.all, if_neg (by simp [Reader.atEnd, htokens, TokenKind.isTrivia])]
    split
    · rename_i e r hnext
      rw [Reader.next, htokens] at hnext
      cases hnext
      rfl
    · rename_i form r hnext
      rw [Reader.next, htokens] at hnext
      cases hnext
  · have hline := Lexer.line_behindLines n [')']
    have hcolumn : (Text.Span.of (.after .start (List.replicate n '\n')) [')']).column = 1 := by
      rw [Text.Span.of, Text.Position.after_start, List.reverse_replicate, takeWhile_replicate_newline]
      rfl
    have hcontext : (Text.Span.of (.after .start (List.replicate n '\n')) [')']).lineText
        (Lexer.behindLines n ')') = ")" := by
      rw [Text.Span.lineText, (Text.Span.covers_of _ _).start_eq, Lexer.behindLines, String.toList_ofList,
        Text.takeBytes_append, Text.dropBytes_append, List.reverse_replicate, takeWhile_replicate_newline]
      rfl
    rw [Error.unreadable, Error.plain, hline, hcolumn, hcontext]

/-- Behind line ends the first line is empty. -/
theorem head?_splitOn_behindLines {n : Nat} (hn : 0 < n) (c : Char) :
    ((Lexer.behindLines n c).toList.splitOn '\n').head? = some [] := by
  obtain ⟨k, rfl⟩ := Nat.exists_eq_add_of_lt hn
  rw [Text.head?_splitOn_newline, Lexer.behindLines, String.toList_ofList, List.replicate_succ]
  rfl

/-- **Behind as many line ends as there are numbers, an error is on the first line again**, with a line for context
that is not the first. -/
theorem exists_context_of_later_line : ∃ e, read (Lexer.behindLines UInt32.size ')') = .error e ∧
    e.cause = .unreadable .unexpectedClose 1 1 ")" ∧
    ((Lexer.behindLines UInt32.size ')').toList.splitOn '\n').head? = some [] := by
  obtain ⟨e, hread, hcause⟩ := read_behindLines UInt32.size
  exact ⟨e, hread, hcause, head?_splitOn_behindLines (by decide) ')'⟩

end HostLisp
