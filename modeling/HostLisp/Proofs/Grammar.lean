import HostLisp.Proofs.Measuring
import HostLisp.Reader

/-!
# The grammar of forms

* `Derives`, `DerivesEach`: which kinds of tokens stand for a form, and for forms in a row.
* `Reader.resume_of_derives`: **a reader with frames open hands a derived form to them**, if the form
  stays within the nesting limit there. It takes exactly the tokens of the form.
* `Reader.all_of_derivesEach_append`, `Reader.all_of_derivesEach`: a reader takes derived forms off its tokens,
  and goes on behind them.
-/

namespace HostLisp

/-! ## Derivations -/

mutual

/-- Kinds of tokens that stand for a form. -/
inductive Derives : List TokenKind → Form → Prop
  | boolean (b : Bool) : Derives [.boolean b] (.literal (.boolean b))
  | number (n : Number) : Derives [.number n] (.literal (.number n))
  | string (s : String) : Derives [.string s] (.literal (.string s))
  | symbol (name : String) : Derives [.symbol name] (.symbol name)
  | list {ks : List TokenKind} {items : List Form} (h : DerivesEach ks items) :
      Derives (.openList :: (ks ++ [.closeList])) (.list items)
  | mark (m : Mark) {ks : List TokenKind} {f : Form} (h : Derives ks f) :
      Derives (.mark m :: ks) (.wrap m.keyword f)

/-- Kinds of tokens that stand for forms in a row. -/
inductive DerivesEach : List TokenKind → List Form → Prop
  | nil : DerivesEach [] []
  | cons {ks ls : List TokenKind} {f : Form} {fs : List Form} (h : Derives ks f) (hs : DerivesEach ls fs) :
      DerivesEach (ks ++ ls) (f :: fs)

end

/-- A form starts with a token that takes part in it. -/
theorem Derives.exists_cons {ks : List TokenKind} {f : Form} (h : Derives ks f) :
    ∃ k rest, ks = k :: rest ∧ k.isTrivia = false := by
  cases h <;> exact ⟨_, _, rfl, rfl⟩

namespace Reader

/-! ## Reading derived forms -/

/-- Goes on behind a form that the tokens so far have completed. -/
def proceed (r : Reader) (form : Form) (stack : List Frame) (rest : List Token) :
    Except Error Form × Reader :=
  match deliver form stack with
  | .inl form => (.ok form, { r with tokens := rest })
  | .inr stack => r.resume stack rest

theorem resume_atom {r : Reader} {stack : List Frame} {t : Token} {f : Form}
    (h : step r.source r.opened stack t = .ok (deliver f stack)) (rest : List Token) :
    r.resume stack (t :: rest) = r.proceed f stack rest := by
  rw [resume, h, proceed]
  cases deliver f stack <;> rfl

theorem resume_push {r : Reader} {stack : List Frame} {t : Token} {frame : Frame}
    (hframe : t.kind = .openList ∧ frame = .list t.span [] ∨ ∃ m, t.kind = .mark m ∧ frame = .mark m t.span)
    (h : r.opened + stack.length < Form.nestingLimit) (rest : List Token) :
    r.resume stack (t :: rest) = r.resume (frame :: stack) rest := by
  have hroom : ¬ Form.nestingLimit ≤ r.opened + stack.length := Nat.not_le_of_lt h
  obtain ⟨hkind, rfl⟩ | ⟨m, hkind, rfl⟩ := hframe <;>
    simp only [resume, step, hkind, if_neg hroom]

theorem resume_close {r : Reader} {place : Text.Span} {items : List Form} {stack : List Frame} {t : Token}
    (h : t.kind = .closeList) (rest : List Token) :
    r.resume (.list place items :: stack) (t :: rest) = r.proceed (.list items.reverse) stack rest := by
  rw [resume, step, h, proceed]
  simp only
  cases deliver (.list items.reverse) stack <;> rfl

mutual

/-- **A reader with frames open hands a derived form to them.** The frames count against the nesting
limit, and so does each level of the form. -/
theorem resume_of_derives {ks : List TokenKind} {f : Form} (h : Derives ks f) {r : Reader}
    {stack : List Frame} {tokens : List Token} (htokens : tokens.map Token.kind = ks)
    (hdepth : r.opened + stack.length + f.depth ≤ Form.nestingLimit) (rest : List Token) :
    r.resume stack (tokens ++ rest) = r.proceed f stack rest := by
  match h with
  | .boolean b | .number n | .string s | .symbol name =>
    obtain ⟨t, rfl, ht⟩ := List.map_eq_singleton_iff.1 htokens
    refine resume_atom ?_ rest
    simp only [step, ht]
  | @Derives.list _ items hitems =>
    obtain ⟨t, inner, rfl, ht, hinner⟩ := List.map_eq_cons_iff.1 htokens
    obtain ⟨body, last, rfl, hbody, hlast⟩ := List.map_eq_append_iff.1 hinner
    obtain ⟨close, rfl, hclose⟩ := List.map_eq_singleton_iff.1 hlast
    rw [Form.depth] at hdepth
    rw [List.cons_append, List.append_assoc, resume_push (.inl ⟨ht, rfl⟩) (by omega),
      resume_of_derivesEach hitems hbody (by omega), List.singleton_append, resume_close hclose]
    simp
  | @Derives.mark m _ inner hinner =>
    obtain ⟨t, body, rfl, ht, hbody⟩ := List.map_eq_cons_iff.1 htokens
    have hwrap : (Form.wrap m.keyword inner).depth = inner.depth + 1 := by
      simp [Form.wrap, Form.depth, Form.depthEach]
    rw [hwrap] at hdepth
    -- the mark's own frame takes the place of the level that its list adds
    have hframe : r.opened + (Frame.mark m t.span :: stack).length + inner.depth ≤ Form.nestingLimit := by
      rw [List.length_cons]; omega
    rw [List.cons_append, resume_push (.inr ⟨m, ht, rfl⟩) (by omega), resume_of_derives hinner hbody hframe]
    rfl

/-- Forms in a row become items of the list that is open. -/
theorem resume_of_derivesEach {ks : List TokenKind} {fs : List Form} (h : DerivesEach ks fs) {r : Reader}
    {place : Text.Span} {items : List Form} {stack : List Frame} {tokens : List Token}
    (htokens : tokens.map Token.kind = ks)
    (hdepth : r.opened + (stack.length + 1) + Form.depthEach fs ≤ Form.nestingLimit) (rest : List Token) :
    r.resume (.list place items :: stack) (tokens ++ rest) =
      r.resume (.list place (fs.reverse ++ items) :: stack) rest := by
  match h with
  | .nil =>
    obtain rfl := List.map_eq_nil_iff.1 htokens
    rfl
  | @DerivesEach.cons _ _ f fs hf hfs =>
    obtain ⟨first, more, rfl, hfirst, hmore⟩ := List.map_eq_append_iff.1 htokens
    rw [Form.depthEach] at hdepth
    have hhead : r.opened + (Frame.list place items :: stack).length + f.depth ≤ Form.nestingLimit := by
      rw [List.length_cons]; omega
    rw [List.append_assoc, resume_of_derives hf hfirst hhead, proceed, deliver]
    simp only
    rw [resume_of_derivesEach hfs hmore (by omega), List.reverse_cons, List.append_assoc,
      List.singleton_append]

end

theorem next_of_derives {ks : List TokenKind} {f : Form} (h : Derives ks f) {r : Reader}
    {tokens rest : List Token} (hr : r.tokens = tokens ++ rest) (htokens : tokens.map Token.kind = ks)
    (hdepth : r.opened + f.depth ≤ Form.nestingLimit) : r.next = (.ok f, { r with tokens := rest }) := by
  have hempty : r.opened + ([] : List Frame).length + f.depth ≤ Form.nestingLimit := hdepth
  rw [next, hr, resume_of_derives h htokens hempty]
  rfl

theorem all_of_next {r r' : Reader} {f : Form} (hend : r.atEnd = false) (h : r.next = (.ok f, r')) :
    r.all.1 = r'.all.1.map (f :: ·) := by
  rw [all, if_neg (by simp [hend])]
  split
  · rename_i heq; rw [h] at heq; cases heq
  · rename_i heq
    rw [h] at heq
    cases heq
    rfl

/-- A reader in front of a derived form is not at its end. -/
theorem atEnd_of_derives {ks : List TokenKind} {f : Form} (h : Derives ks f) {r : Reader}
    {tokens rest : List Token} (hr : r.tokens = tokens ++ rest) (htokens : tokens.map Token.kind = ks) :
    r.atEnd = false := by
  obtain ⟨k, more, rfl, hk⟩ := h.exists_cons
  obtain ⟨t, tail, rfl, ht, -⟩ := List.map_eq_cons_iff.1 htokens
  simp [atEnd, hr, ht, hk]

/-- **A reader takes derived forms off the front of its tokens**, and goes on as if it started there. -/
theorem all_of_derivesEach_append {ks : List TokenKind} {fs : List Form} (h : DerivesEach ks fs) {r : Reader}
    {tokens rest : List Token} (hr : r.tokens = tokens ++ rest) (htokens : tokens.map Token.kind = ks)
    (hdepth : r.opened + Form.depthEach fs ≤ Form.nestingLimit) :
    r.all.1 = ({ r with tokens := rest } : Reader).all.1.map (fs ++ ·) := by
  induction fs generalizing r ks tokens with
  | nil =>
    cases h
    have hnil : tokens = [] := List.map_eq_nil_iff.1 htokens
    have hsame : r = { r with tokens := rest } := by rw [hnil, List.nil_append] at hr; rw [← hr]
    rw [← hsame]
    cases r.all.1 <;> rfl
  | cons f fs ih =>
    cases h with | cons hf hfs
    obtain ⟨first, more, rfl, hfirst, hmore⟩ := List.map_eq_append_iff.1 htokens
    rw [List.append_assoc] at hr
    rw [Form.depthEach] at hdepth
    have hend := atEnd_of_derives hf hr hfirst
    have hnext := next_of_derives hf hr hfirst (by omega)
    have hdepth' : r.opened + Form.depthEach fs ≤ Form.nestingLimit := by omega
    rw [all_of_next hend hnext, ih (r := { r with tokens := more ++ rest }) hfs rfl hmore hdepth']
    cases ({ r with tokens := rest } : Reader).all.1 <;> rfl

/-- A reader takes all derived forms off its tokens. -/
theorem all_of_derivesEach {ks : List TokenKind} {fs : List Form} (h : DerivesEach ks fs) {r : Reader}
    (htokens : r.tokens.map Token.kind = ks) (hdepth : r.opened + Form.depthEach fs ≤ Form.nestingLimit) :
    r.all.1 = .ok fs := by
  have hnone : ({ r with tokens := [] } : Reader).all.1 = .ok [] := by
    rw [all, if_pos (by simp [atEnd])]
  rw [all_of_derivesEach_append h (List.append_nil _).symm htokens hdepth, hnone]
  exact congrArg Except.ok (List.append_nil fs)

end Reader

end HostLisp
