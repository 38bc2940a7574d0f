import HostLisp.Token.Lexer
import Mathlib.Data.List.Chain
import Mathlib.Data.String.Basic

/-!
# Tokens tile the source

Every character of a source stands in exactly one token or in a blank gap in front of one, also where a token
is malformed: a scanner takes at least one character, and the next one goes on where it stopped. Offsets, lines
and columns are counted along the way, one character at a time. What they amount to can be read off the text in
front, up to multiples of the size of the counters.

* `Position.after_start`: **the place behind a text**, by its bytes and its line ends.
* `Tiles`: gaps and tokens in turn, up to the end mark.
* `tiles_tokensFrom`: the tokens of a text tile it.
* `tokens_tile_source`: **what a tiling means for the spans of all tokens.** A source with more line ends than the
  counters have numbers has tokens on its first line again (`exists_token_on_first_line`).
-/

namespace HostLisp

open String (utf8Len)

namespace Text

/-! ## Places -/

namespace Position

theorem after_append (p : Position) (cs ds : List Char) : p.after (cs ++ ds) = (p.after cs).after ds :=
  List.foldl_append

/-- **The place behind a text**: its bytes, its line ends, and the characters behind the last of these. -/
theorem after_start (cs : List Char) : start.after cs =
    ⟨utf8Len cs, .ofNat (1 + cs.count '\n'), .ofNat (1 + (cs.reverse.takeWhile (· ≠ '\n')).length)⟩ := by
  induction cs using List.reverseRecOn with
  | nil => rfl
  | append_singleton cs c ih =>
    rw [after_append, ih]
    by_cases hc : c = '\n'
    · subst hc
      simp [after, advance, UInt32.ofNat_add, UInt32.add_assoc]
    · have hcount : (cs ++ [c]).count '\n' = cs.count '\n' := by simp [List.count_append, hc]
      rw [hcount]
      simp [after, advance, hc, UInt32.ofNat_add, UInt32.add_comm]

end Position

/-- A span covers the characters of a text that stand behind others. Line and column are those of the place where
the characters start, as far as the counters go. -/
structure Span.Covers (s : Span) (before text : List Char) : Prop where
  start_eq : s.start = utf8Len before
  stop_eq : s.stop = utf8Len (before ++ text)
  line_eq : s.line.toNat = (1 + before.count '\n') % UInt32.size
  column_eq : s.column.toNat = (1 + (before.reverse.takeWhile (· ≠ '\n')).length) % UInt32.size

/-- The span of a run of characters covers it. -/
theorem Span.covers_of (before text : List Char) : (Span.of (.after .start before) text).Covers before text := by
  have hstop : ((Position.start.after before).after text).offset = utf8Len (before ++ text) := by
    rw [← Position.after_append, Position.after_start]
  rw [Span.of, hstop, Position.after_start]
  exact ⟨rfl, rfl, UInt32.toNat_ofNat', UInt32.toNat_ofNat'⟩

/-! ## Pieces of a text -/

theorem dropBytes_append (before rest : List Char) : dropBytes (utf8Len before) (before ++ rest) = rest := by
  induction before with
  | nil => rw [String.utf8Len_nil, List.nil_append, dropBytes]
  | cons c before ih =>
    have hpos := c.utf8Size_pos
    obtain ⟨n, hn⟩ : ∃ n, utf8Len (c :: before) = n + 1 := ⟨utf8Len (c :: before) - 1, by simp; omega⟩
    have hrest : n + 1 - c.utf8Size = utf8Len before := by rw [← hn, String.utf8Len_cons]; omega
    rw [hn, List.cons_append, dropBytes, hrest, ih]

theorem takeBytes_append (text rest : List Char) : takeBytes (utf8Len text) (text ++ rest) = text := by
  induction text with
  | nil => rw [String.utf8Len_nil, takeBytes]
  | cons c text ih =>
    have hpos := c.utf8Size_pos
    obtain ⟨n, hn⟩ : ∃ n, utf8Len (c :: text) = n + 1 := ⟨utf8Len (c :: text) - 1, by simp; omega⟩
    have hrest : n + 1 - c.utf8Size = utf8Len text := by rw [← hn, String.utf8Len_cons]; omega
    rw [hn, List.cons_append, takeBytes, hrest, ih]

/-- The text of a span is what it covers. -/
theorem Span.Covers.text_eq {s : Span} {source : String} {before text after : List Char} (h : s.Covers before text)
    (hsource : source.toList = before ++ text ++ after) : s.text source = String.ofList text := by
  have hlength : s.stop - s.start = utf8Len text := by
    rw [h.start_eq, h.stop_eq, String.utf8Len_append]
    omega
  rw [Span.text, hlength, h.start_eq, hsource, List.append_assoc, dropBytes_append, takeBytes_append]

end Text

namespace Lexer

open Text

/-! ## One token -/

theorem classify_ne_endOfInput (text : List Char) : classify text ≠ .endOfInput := by
  unfold classify
  split
  · simp
  · simp
  · simp
  · split
    · split <;> simp
    · simp

/-- A scanner takes at least one character, and gives no end mark. -/
theorem scan_progress (c : Char) (rest : List Char) : 0 < (scan c rest).2 ∧ (scan c rest).1 ≠ .endOfInput := by
  unfold scan
  split
  · simp
  · simp
  · simp
  · simp
  · split <;> simp
  · simp
  · split <;> simp
  · exact ⟨by simp, classify_ne_endOfInput _⟩

/-- What a scanner takes and what it leaves make up the text. -/
theorem take_append_drop_scan (c : Char) (rest : List Char) :
    (c :: rest).take (scan c rest).2 ++ rest.drop ((scan c rest).2 - 1) = c :: rest := by
  obtain ⟨used, hused⟩ := Nat.exists_eq_add_of_lt (scan_progress c rest).1
  rw [hused]
  simp

/-! ## All tokens -/

/-- **Tokens that tile a text behind another**: a gap of blanks in front of each, one in front of the end mark,
and nothing else. -/
inductive Tiles : List Char → List Char → List Token → Prop
  | finish {before gap : List Char} {s : Span} (hgap : ∀ c ∈ gap, isBlank c = true)
      (hs : s.Covers (before ++ gap) []) : Tiles before gap [⟨.endOfInput, s⟩]
  | token {before gap text rest : List Char} {t : Token} {ts : List Token}
      (hgap : ∀ c ∈ gap, isBlank c = true) (ht : t.span.Covers (before ++ gap) text) (hne : text ≠ [])
      (hkind : t.kind ≠ .endOfInput) (h : Tiles (before ++ gap ++ text) rest ts) :
      Tiles before (gap ++ text ++ rest) (t :: ts)

/-- A blank in front makes the first gap longer. -/
theorem Tiles.blank {before rest : List Char} {c : Char} {ts : List Token} (hc : isBlank c = true)
    (h : Tiles (before ++ [c]) rest ts) : Tiles before (c :: rest) ts := by
  cases h with
  | @finish _ gap s hgap hs =>
    rw [List.append_assoc, List.singleton_append] at hs
    exact .finish (List.forall_mem_cons.2 ⟨hc, hgap⟩) hs
  | @token _ gap text rest t ts hgap ht hne hkind h =>
    rw [List.append_assoc before, List.singleton_append] at ht h
    exact @Tiles.token _ (c :: gap) _ _ _ _ (List.forall_mem_cons.2 ⟨hc, hgap⟩) ht hne hkind h

/-- **The tokens of a text tile it**, wherever it starts. -/
theorem tiles_tokensFrom (p : Position) (cs : List Char) (before : List Char) (hp : p = .after .start before) :
    Tiles before cs ((tokensFrom p cs).1 ++ [⟨.endOfInput, .of (tokensFrom p cs).2 []⟩]) := by
  fun_induction tokensFrom p cs generalizing before with
  | case1 p =>
    refine .finish (List.forall_mem_nil _) ?_
    rw [List.append_nil, hp]
    exact Span.covers_of before []
  | case2 p c rest hblank ih =>
    refine Tiles.blank hblank (ih _ ?_)
    rw [Position.after_append, hp]
    rfl
  | case3 p c rest hblank kind used hscan text tokens finish htokens ih =>
    obtain ⟨hused, hkind⟩ := scan_progress c rest
    have hsplit := take_append_drop_scan c rest
    rw [hscan] at hused hkind hsplit
    have hne : text ≠ [] := by
      simp only [text, ne_eq, List.take_eq_nil_iff, reduceCtorEq, or_false]
      omega
    have hrest : Tiles (before ++ text) (rest.drop (used - 1)) (tokens ++ [⟨.endOfInput, .of finish []⟩]) := by
      rw [htokens] at ih
      exact ih _ (by rw [Position.after_append, hp])
    rw [← hsplit, hp]
    refine @Tiles.token _ [] _ _ _ _ (List.forall_mem_nil _) ?_ hne hkind ?_
    · rw [List.append_nil]
      exact Span.covers_of before text
    · rw [List.append_nil]
      exact hrest

/-! ## What a tiling means -/

/-- There are only blanks between two spans of a source. -/
def BlankBetween (source : List Char) (s s' : Span) : Prop :=
  ∃ before gap after, source = before ++ gap ++ after ∧ s.stop = utf8Len before ∧
    s'.start = utf8Len (before ++ gap) ∧ ∀ c ∈ gap, isBlank c = true

namespace Tiles

variable {before rest : List Char} {ts : List Token}

/-- There is one end mark, behind all of the text. -/
theorem exists_finish (h : Tiles before rest ts) : ∃ tokens finish, ts = tokens ++ [finish] ∧
    finish.kind = .endOfInput ∧ finish.span.Covers (before ++ rest) [] ∧
      ∀ t ∈ tokens, t.kind ≠ .endOfInput := by
  induction h with
  | finish hgap hs => exact ⟨[], _, rfl, rfl, hs, List.forall_mem_nil _⟩
  | token hgap ht hne hkind h ih =>
    obtain ⟨tokens, finish, rfl, hfinish, hs, hkinds⟩ := ih
    refine ⟨_ :: tokens, finish, rfl, hfinish, ?_, List.forall_mem_cons.2 ⟨hkind, hkinds⟩⟩
    simpa only [List.append_assoc] using hs

/-- Each token covers a piece of the text, and no token but the end mark an empty one. -/
theorem covers (h : Tiles before rest ts) : ∀ t ∈ ts, ∃ ahead text after,
    before ++ rest = ahead ++ text ++ after ∧ t.span.Covers ahead text ∧ (t.kind ≠ .endOfInput → text ≠ []) := by
  induction h with
  | @finish before gap s hgap hs =>
    rw [List.forall_mem_singleton]
    exact ⟨before ++ gap, [], [], by simp, hs, fun hkind => absurd rfl hkind⟩
  | @token before gap text rest t ts hgap ht hne hkind h ih =>
    refine List.forall_mem_cons.2 ⟨⟨before ++ gap, text, rest, by simp, ht, fun _ => hne⟩, ?_⟩
    simpa only [List.append_assoc] using ih

theorem le_start (h : Tiles before rest ts) : ∀ t ∈ ts, utf8Len before ≤ t.span.start := by
  induction h with
  | finish hgap hs => simp [hs.start_eq]
  | token hgap ht hne hkind h ih =>
    refine List.forall_mem_cons.2 ⟨by simp [ht.start_eq], fun t hmem => ?_⟩
    have hlater := ih t hmem
    simp only [String.utf8Len_append] at hlater
    omega

/-- The spans are in order, and no two of them overlap. -/
theorem pairwise (h : Tiles before rest ts) : ts.Pairwise fun t t' => t.span.stop ≤ t'.span.start := by
  induction h with
  | finish hgap hs => exact List.pairwise_singleton _ _
  | token hgap ht hne hkind h ih =>
    refine List.pairwise_cons.2 ⟨fun t' hmem => ?_, ih⟩
    rw [ht.stop_eq]
    exact h.le_start t' hmem

/-- Between each span and the next there are only blanks. -/
theorem blankBetween (h : Tiles before rest ts) {s : Span} (hs : s.stop = utf8Len before) :
    (s :: ts.map Token.span).IsChain (BlankBetween (before ++ rest)) := by
  induction h generalizing s with
  | @finish before gap s' hgap hs' =>
    refine List.isChain_cons_cons.2 ⟨⟨before, gap, [], by simp, hs, hs'.start_eq, hgap⟩, ?_⟩
    exact List.isChain_singleton _
  | @token before gap text rest t ts hgap ht hne hkind h ih =>
    rw [List.map_cons]
    refine List.isChain_cons_cons.2 ⟨⟨before, gap, text ++ rest, by simp, hs, ht.start_eq, hgap⟩, ?_⟩
    simpa only [List.append_assoc] using ih ht.stop_eq

end Tiles

theorem tiles_tokenize (source : String) : Tiles [] source.toList (tokenize source) :=
  tiles_tokensFrom _ _ [] rfl

/-- **The tokens of a source tile it.** The last one is the only end mark, and empty, behind the last byte. Every
other token covers some characters of the source; line and column are those of the place where it starts, up to
multiples of the size of the counters. The spans are in order and do not overlap, and all characters in front of the
first and between one and the next are blanks. -/
theorem tokens_tile_source (source : String) : ∃ tokens finish,
    tokenize source = tokens ++ [finish] ∧ finish.kind = .endOfInput ∧
      finish.span.start = source.utf8ByteSize ∧ finish.span.stop = source.utf8ByteSize ∧
      (∀ t ∈ tokens, t.kind ≠ .endOfInput) ∧
      (∀ t ∈ tokenize source, ∃ before text after, source.toList = before ++ text ++ after ∧
        t.span.Covers before text ∧ t.span.text source = String.ofList text ∧
        (t.kind ≠ .endOfInput → text ≠ [])) ∧
      (tokenize source).Pairwise (fun t t' => t.span.stop ≤ t'.span.start) ∧
      (Span.of .start [] :: (tokenize source).map Token.span).IsChain (BlankBetween source.toList) := by
  have htiles := tiles_tokenize source
  obtain ⟨tokens, finish, htokens, hkind, hfinish, hkinds⟩ := htiles.exists_finish
  have hsize : source.utf8ByteSize = utf8Len source.toList := by
    rw [← String.utf8ByteSize_ofList, String.ofList_toList]
  rw [List.nil_append] at hfinish
  refine ⟨tokens, finish, htokens, hkind, ?_, ?_, hkinds, ?_, htiles.pairwise, htiles.blankBetween rfl⟩
  · rw [hfinish.start_eq, hsize]
  · rw [hfinish.stop_eq, hsize, List.append_nil]
  · intro t ht
    obtain ⟨before, text, after, hsource, hcovers, hne⟩ := htiles.covers t ht
    exact ⟨before, text, after, hsource, hcovers, hcovers.text_eq hsource, hne⟩

/-! ## More lines than there are numbers for them -/

/-- A character behind a number of line ends. -/
def behindLines (n : Nat) (c : Char) : String := String.ofList (List.replicate n '\n' ++ [c])

/-- Line ends are passed over and counted. -/
theorem tokensFrom_replicate (p : Position) (n : Nat) (cs : List Char) :
    tokensFrom p (List.replicate n '\n' ++ cs) = tokensFrom (p.after (List.replicate n '\n')) cs := by
  induction n generalizing p with
  | zero => rfl
  | succ n ih =>
    rw [List.replicate_succ, List.cons_append, tokensFrom, if_pos (by decide), ih]
    rfl

/-- A character behind line ends that is a token on its own. -/
theorem tokensFrom_behindLines {c : Char} {kind : TokenKind} (hc : isBlank c = false) (hscan : scan c [] = (kind, 1))
    (n : Nat) : (tokensFrom .start (behindLines n c).toList).1 =
      [⟨kind, .of (.after .start (List.replicate n '\n')) [c]⟩] := by
  rw [behindLines, String.toList_ofList, tokensFrom_replicate]
  simp [tokensFrom, hc, hscan]

theorem line_behindLines (n : Nat) (cs : List Char) :
    (Span.of (.after .start (List.replicate n '\n')) cs).line = .ofNat (1 + n) := by
  rw [Span.of, Position.after_start, List.count_replicate_self]

/-- A name behind line ends, and where it is. -/
theorem exists_token_behindLines (n : Nat) : ∃ t ∈ tokenize (behindLines n 'x'), ∃ before,
    (behindLines n 'x').toList = before ++ ['x'] ∧ t.span.Covers before ['x'] ∧ t.span.line = .ofNat (1 + n) ∧
      before.count '\n' = n := by
  have hscan : scan 'x' [] = (.symbol "x", 1) := rfl
  have htokens := tokensFrom_behindLines (by decide) hscan n
  have hmem : ⟨.symbol "x", .of (.after .start (List.replicate n '\n')) ['x']⟩ ∈ tokenize (behindLines n 'x') := by
    simp [tokenize, htokens]
  exact ⟨_, hmem, List.replicate n '\n', String.toList_ofList, Span.covers_of _ _, line_behindLines n _,
    List.count_replicate_self⟩

/-- **Behind as many line ends as there are numbers, tokens are on the first line again.** -/
theorem exists_token_on_first_line : ∃ t ∈ tokenize (behindLines UInt32.size 'x'), ∃ before,
    (behindLines UInt32.size 'x').toList = before ++ ['x'] ∧ t.span.start = utf8Len before ∧ t.span.line = 1 ∧
      t.span.line.toNat ≠ 1 + before.count '\n' := by
  obtain ⟨t, ht, before, hsource, hcovers, hline, hcount⟩ := exists_token_behindLines UInt32.size
  refine ⟨t, ht, before, hsource, hcovers.start_eq, hline, ?_⟩
  rw [hline, hcount]
  decide

end Lexer

end HostLisp
