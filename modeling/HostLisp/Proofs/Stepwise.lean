import HostLisp.Proofs.Recognition

/-!
# Reading step by step

Forms can be taken off a reader one at a time, all that are left at once, or both in turn. As long as nothing
fails this agrees with reading the whole source. A reader that failed stays in front of the token that it could
not take, with the levels counted that were open there, and never gets past it.

* `Reader.answers`: what a reader answers to requests in a row.
* `Reader.Stuck`: the next token fails with nothing open. `Reader.Stuck.answer`: **a stuck reader stays as it is**;
  `Reader.stuck_of_failed`: what fails leaves one behind.
* `Reader.all_of_answers`: forms taken one at a time are the first of all forms.
* `Reader.stepwise_agrees_with_read`: **steps agree with reading at once, and nothing is read behind a failure.**
-/

namespace HostLisp.Reader

/-! ## Requests -/

/-- What a reader can be asked for. -/
inductive Request where
  | next
  | all
  | atEnd

/-- What a reader answers. -/
inductive Answer where
  | form (result : Except Error Form)
  | forms (result : Except Error (List Form))
  | ended (yes : Bool)

/-- What came of a request for one form. -/
def Answer.form? : Answer → Option (Except Error Form)
  | .form result => some result
  | _ => none

/-- Forms were asked for, and the reader failed. -/
def Answer.failed : Answer → Bool
  | .form result => !result.isOk
  | .forms result => !result.isOk
  | .ended _ => false

/-- No form was read: a request for one failed, and one for all of them failed or found none. -/
def Answer.barren : Answer → Bool
  | .form result => !result.isOk
  | .forms (.error _) => true
  | .forms (.ok fs) => fs.isEmpty
  | .ended _ => true

/-- The answer of a reader, and the reader behind it. -/
def answer (r : Reader) : Request → Answer × Reader
  | .next => (.form r.next.1, r.next.2)
  | .all => (.forms r.all.1, r.all.2)
  | .atEnd => (.ended r.atEnd, r)

/-- **The answers of a reader to requests in a row**, and the reader behind them. -/
def answers (r : Reader) : List Request → List Answer × Reader
  | [] => ([], r)
  | q :: qs => ((r.answer q).1 :: ((r.answer q).2.answers qs).1, ((r.answer q).2.answers qs).2)

/-! ## Failed readers -/

/-- A reader that cannot take its next token, even with nothing open. -/
def Stuck (r : Reader) : Prop :=
  ∀ t ∈ r.tokens.head?, ∃ e, step r.source r.opened [] t = .error e

/-- **What fails with frames open fails without them**, if their levels stay counted. -/
theorem step_error_of_step_error {source : String} {opened : Nat} {stack : List Frame} {t : Token} {e : Error}
    (h : step source opened stack t = .error e) : ∃ e', step source (opened + stack.length) [] t = .error e' := by
  obtain ⟨kind, span⟩ := t
  cases kind with
  | openList | mark m =>
    simp only [step] at h ⊢
    split at h
    · rename_i hfull
      exact ⟨_, if_pos hfull⟩
    · cases h
  | closeList => exact ⟨_, rfl⟩
  | fault f => exact ⟨_, rfl⟩
  | comment text | endOfInput | boolean b | number n | string s | symbol name => cases h

theorem stuck_of_resume {r r' : Reader} {stack : List Frame} {tokens : List Token} {e : Error}
    (h : r.resume stack tokens = (.error e, r')) : r'.Stuck := by
  induction tokens generalizing stack with
  | nil =>
    cases h
    intro t ht
    cases ht
  | cons t rest ih =>
    unfold resume at h
    split at h
    · rename_i hstep
      cases h
      rintro _ ⟨⟩
      exact step_error_of_step_error hstep
    · cases h
    · exact ih h

theorem stuck_of_all {r r' : Reader} {e : Error} (h : r.all = (.error e, r')) : r'.Stuck := by
  fun_induction all r generalizing e r' with
  | case1 => cases h
  | case2 r hend e' r'' hnext =>
    cases h
    exact stuck_of_resume hnext
  | case3 r hend f r'' hnext _ forms r''' hall ih =>
    cases forms with
    | ok fs => cases h
    | error e' =>
      cases h
      exact ih hall

/-- **What fails leaves a stuck reader behind.** -/
theorem stuck_of_failed {r : Reader} {q : Request} (h : (r.answer q).1.failed = true) : (r.answer q).2.Stuck := by
  cases q with
  | next =>
    cases hresult : r.next.1 with
    | ok f => simp [answer, Answer.failed, hresult, Except.isOk, Except.toBool] at h
    | error e => exact stuck_of_resume (Prod.ext hresult rfl)
  | all =>
    cases hresult : r.all.1 with
    | ok fs => simp [answer, Answer.failed, hresult, Except.isOk, Except.toBool] at h
    | error e => exact stuck_of_all (Prod.ext hresult rfl)
  | atEnd => cases h

namespace Stuck

variable {r : Reader}

theorem next (h : r.Stuck) : ∃ e, r.next = (.error e, r) := by
  obtain ⟨source, tokens, finish, opened⟩ := r
  cases tokens with
  | nil => exact ⟨_, rfl⟩
  | cons t rest =>
    obtain ⟨e, hstep⟩ := h t rfl
    refine ⟨e, ?_⟩
    rw [Reader.next, resume, hstep]
    rfl

theorem all (h : r.Stuck) : r.all = (.ok [], r) ∨ ∃ e, r.all = (.error e, r) := by
  obtain ⟨e, hnext⟩ := h.next
  rw [Reader.all]
  split
  · exact Or.inl rfl
  · split
    · rename_i heq
      rw [hnext] at heq
      cases heq
      exact Or.inr ⟨_, rfl⟩
    · rename_i heq
      rw [hnext] at heq
      cases heq

/-- **A stuck reader reads nothing and stays as it is.** -/
theorem answer (h : r.Stuck) (q : Request) : (r.answer q).1.barren = true ∧ (r.answer q).2 = r := by
  cases q with
  | next =>
    obtain ⟨e, hnext⟩ := h.next
    simp only [Reader.answer, hnext]
    exact ⟨rfl, trivial⟩
  | all =>
    rcases h.all with hall | ⟨e, hall⟩
    all_goals
      simp only [Reader.answer, hall]
      exact ⟨rfl, trivial⟩
  | atEnd => exact ⟨rfl, rfl⟩

theorem answers (h : r.Stuck) (qs : List Request) : ∀ a ∈ (r.answers qs).1, a.barren = true := by
  induction qs with
  | nil => exact List.forall_mem_nil _
  | cons q qs ih =>
    obtain ⟨hbarren, hsame⟩ := h.answer q
    simp only [Reader.answers, hsame]
    exact List.forall_mem_cons.2 ⟨hbarren, ih⟩

end Stuck

/-- Behind an answer that failed there are only barren ones. -/
theorem pairwise_answers (r : Reader) (qs : List Request) :
    (r.answers qs).1.Pairwise fun a b => a.failed = true → b.barren = true := by
  induction qs generalizing r with
  | nil => exact List.Pairwise.nil
  | cons q qs ih =>
    refine List.pairwise_cons.2 ⟨fun b hb hfailed => ?_, ih _⟩
    exact (stuck_of_failed hfailed).answers qs b hb

/-! ## Forms taken one at a time -/

/-- A reader at its end has no next form. -/
theorem atEnd_of_next {r r' : Reader} {f : Form} (h : r.next = (.ok f, r')) : r.atEnd = false := by
  cases hend : r.atEnd with
  | false => rfl
  | true =>
    obtain ⟨used, htokens, hderives⟩ := derives_of_resume .nil h
    have hnone := significant_eq_nil_of_atEnd hend
    rw [htokens, significant_append] at hnone
    obtain ⟨k, more, hk, -⟩ := hderives.exists_cons
    rw [List.nil_append, (List.append_eq_nil_iff.1 hnone).1] at hk
    cases hk

theorem all_eq_ok_nil_iff (r : Reader) : r.all.1 = .ok [] ↔ r.atEnd = true := by
  constructor
  · intro h
    by_contra hend
    rw [Bool.not_eq_true] at hend
    cases hnext : r.next with | mk result r'
    cases result with
    | error e =>
      rw [all_of_next_error hend (congrArg Prod.fst hnext)] at h
      cases h
    | ok f =>
      rw [all_of_next hend hnext] at h
      cases hall : r'.all.1 with
      | error e => rw [hall] at h; cases h
      | ok fs => rw [hall] at h; cases h
  · intro h
    rw [all, if_pos h]

/-- **Forms taken one at a time are the first of all forms.** -/
theorem all_of_answers {r : Reader} {qs : List Request} {fs : List Form} (hqs : Request.all ∉ qs)
    (h : (r.answers qs).1.filterMap Answer.form? = fs.map .ok) :
    r.all.1 = (r.answers qs).2.all.1.map (fs ++ ·) := by
  induction qs generalizing r fs with
  | nil =>
    obtain rfl : fs = [] := List.map_eq_nil_iff.1 h.symm
    simp only [answers]
    cases r.all.1 <;> rfl
  | cons q qs ih =>
    obtain ⟨hq, hrest⟩ := not_or.1 (List.mem_cons.not.1 hqs)
    cases q with
    | all => exact absurd rfl hq
    | atEnd => exact ih hrest h
    | next =>
      obtain ⟨f, fs', rfl, hf, hfs⟩ := List.map_eq_cons_iff.1 h.symm
      have hnext : r.next = (.ok f, r.next.2) := Prod.ext hf.symm rfl
      have hlater : r.next.2.all.1 = (r.next.2.answers qs).2.all.1.map (fs' ++ ·) := ih hrest hfs.symm
      rw [all_of_next (atEnd_of_next hnext) hnext, hlater]
      simp only [answers, answer]
      cases (r.next.2.answers qs).2.all.1 <;> rfl

/-! ## Sources -/

theorem readOne_eq_ok_iff (source : String) (f : Form) : readOne source = .ok f ↔ read source = .ok [f] := by
  cases hnext : (ofSource source).next with | mk result r
  cases result with
  | error e =>
    have hone : readOne source = .error e := by rw [readOne, hnext]
    have hread : read source ≠ .ok [f] := by
      cases hend : (ofSource source).atEnd with
      | true => rw [read, (all_eq_ok_nil_iff _).2 hend]; simp
      | false => rw [read, all_of_next_error hend (congrArg Prod.fst hnext)]; simp
    simp [hone, hread]
  | ok g =>
    have hread : read source = r.all.1.map (g :: ·) := all_of_next (atEnd_of_next hnext) hnext
    cases hend : r.atEnd with
    | true =>
      have hone : readOne source = .ok g := by rw [readOne, hnext]; exact if_pos hend
      rw [hone, hread, (all_eq_ok_nil_iff r).2 hend]
      simp [Except.map]
    | false =>
      have hone : readOne source = .error (.unreadable source r.place .extraForm) := by
        rw [readOne, hnext]
        exact if_neg (by simp [hend])
      have hmore : r.all.1 ≠ .ok [] := by simp [all_eq_ok_nil_iff, hend]
      rw [hone, hread]
      cases hall : r.all.1 with
      | error e => simp [Except.map]
      | ok fs =>
        have hne : fs ≠ [] := fun h => hmore (by rw [hall, h])
        simp [Except.map, hne]

/-- **Steps agree with reading at once, and nothing is read behind a failure.** Where forms were taken one at a
time, the forms of the source are these and all that are left, and it fails as the rest does. Of any requests in a
row, those behind one that failed get no form. A source is one form exactly if that is all it reads as. -/
theorem stepwise_agrees_with_read (source : String) :
    (∀ qs fs, Request.all ∉ qs → ((ofSource source).answers qs).1.filterMap Answer.form? = fs.map .ok →
        (∀ rest, ((ofSource source).answers qs).2.all.1 = .ok rest ↔ read source = .ok (fs ++ rest)) ∧
        ∀ e, ((ofSource source).answers qs).2.all.1 = .error e ↔ read source = .error e) ∧
      (∀ qs, ((ofSource source).answers qs).1.Pairwise fun a b => a.failed = true → b.barren = true) ∧
      ∀ f, readOne source = .ok f ↔ read source = .ok [f] := by
  refine ⟨fun qs fs hqs h => ?_, pairwise_answers _, readOne_eq_ok_iff source⟩
  rw [read, all_of_answers hqs h]
  cases ((ofSource source).answers qs).2.all.1 with
  | error e => simp [Except.map]
  | ok rest => simp [Except.map]

/-- Two names, and a comment between them. -/
def commentedSource : String := "a ;b\nc"

/-- One form taken with a comment behind it leaves the other; and an open list leaves nothing to be read. -/
theorem stepwise_agrees_with_read_commentedSource :
    read commentedSource = .ok [.symbol "a", .symbol "c"] ∧
      ((ofSource commentedSource).answers [.atEnd, .next, .atEnd]).2.all.1 = .ok [.symbol "c"] ∧
      ((ofSource "a (b").answer .all).1.failed = true ∧
      ∀ a ∈ (((ofSource "a (b").answer .all).2.answers [.next, .atEnd, .all]).1, a.barren = true := by
  have hread : read commentedSource = .ok [.symbol "a", .symbol "c"] := by
    have hkinds : significant (Lexer.tokenize commentedSource) = [.symbol "a", .symbol "c"] := by decide +kernel
    refine read_of_significant ?_ (by decide)
    rw [hkinds]
    exact .cons (.symbol _) (.cons (.symbol _) .nil)
  have htokens : (ofSource commentedSource).tokens = [⟨.symbol "a", ⟨0, 1, 1, 1⟩⟩,
      ⟨.comment ";b", ⟨2, 4, 1, 3⟩⟩, ⟨.symbol "c", ⟨5, 6, 2, 1⟩⟩] := by decide +kernel
  have hanswers : ((ofSource commentedSource).answers [.atEnd, .next, .atEnd]).1.filterMap Answer.form? =
      [Form.symbol "a"].map .ok := by
    simp only [answers, answer, next, htokens]
    rfl
  obtain ⟨hagrees, -, -⟩ := stepwise_agrees_with_read commentedSource
  obtain ⟨-, hpairwise, -⟩ := stepwise_agrees_with_read "a (b"
  have hfailed : ((ofSource "a (b").answer .all).1.failed = true := by decide +kernel
  refine ⟨hread, ((hagrees _ _ (by simp) hanswers).1 _).2 hread, hfailed, fun a ha => ?_⟩
  exact (List.pairwise_cons.1 (hpairwise [.all, .next, .atEnd, .all])).1 a ha hfailed

end HostLisp.Reader
