import HostLisp.Form.Depth
import HostLisp.Token.Lexer

/-!
# From tokens to forms

A reader takes forms off the front of its tokens. It keeps a stack of what is open: lists with the items
read so far, and quotation marks that wait for their form. An atom, or a list that closes, is delivered
to what is open; a form that nothing waits for is the result.

* `Reader.next`: the next form.
* `Reader.all`: all forms that are left.
* `read`, `readOne`: the forms of a source, and the form of a source that holds exactly one.

Lists and marks may be open `Form.nestingLimit` deep. A reader that failed stays where it stopped, and
what was open stays counted.
-/

namespace HostLisp

/-- Something that waits for forms. -/
inductive Frame where
  /-- a list opened at a place, with its items so far, the last one first -/
  | list (opened : Text.Span) (items : List Form)
  /-- a mark at a place, which takes the next form -/
  | mark (m : Mark) (place : Text.Span)

/-- Hands a form to the innermost open frame. A mark is complete at once and passes the wrapped form on. A
form that nothing waits for comes out on the left. -/
def deliver (form : Form) : List Frame → Form ⊕ List Frame
  | [] => .inl form
  | .list opened items :: stack => .inr (.list opened (form :: items) :: stack)
  | .mark m _ :: stack => deliver (.wrap m.keyword form) stack

/-- A source on its way to forms: the tokens that are left, where the source ends, and how many levels
failed attempts have left open. -/
structure Reader where
  source : String
  tokens : List Token
  finish : Text.Span
  opened : Nat

namespace Reader

/-- A reader at the start of a source. -/
def ofSource (source : String) : Reader :=
  let (tokens, finish) := Lexer.tokensFrom .start source.toList
  ⟨source, tokens, .of finish [], 0⟩

/-- What is missing where the source ends. -/
def endFault (finish : Text.Span) : List Frame → ReadFault × Text.Span
  | [] => (.unexpectedEnd, finish)
  | .list opened _ :: _ => (.unterminatedList, opened)
  | .mark m place :: _ => (.missingForm m.keyword, place)

/-- What one token does to the open frames: it completes a form, leaves frames open, or fails. -/
def step (source : String) (opened : Nat) (stack : List Frame) (token : Token) :
    Except Error (Form ⊕ List Frame) :=
  let push (frame : Frame) : Except Error (Form ⊕ List Frame) :=
    if Form.nestingLimit ≤ opened + stack.length then
      .error (.plain (.limitExceeded (.nesting Form.nestingLimit)))
    else .ok (.inr (frame :: stack))
  match token.kind with
  | .openList => push (.list token.span [])
  | .mark m => push (.mark m token.span)
  | .closeList =>
    match stack with
    | .list _ items :: below => .ok (deliver (.list items.reverse) below)
    | _ => .error (.unreadable source token.span .unexpectedClose)
  | .fault f => .error (.unreadable source token.span (.lexical f))
  | .comment _ | .endOfInput => .ok (.inr stack)
  | .boolean b => .ok (deliver (.literal (.boolean b)) stack)
  | .number n => .ok (deliver (.literal (.number n)) stack)
  | .string s => .ok (deliver (.literal (.string s)) stack)
  | .symbol name => .ok (deliver (.symbol name) stack)

/-- Reads on with some frames open until a form is complete. -/
def resume (r : Reader) (stack : List Frame) : List Token → Except Error Form × Reader
  | [] =>
    let (fault, place) := endFault r.finish stack
    (.error (.unreadable r.source place fault), { r with tokens := [], opened := r.opened + stack.length })
  | token :: rest =>
    match step r.source r.opened stack token with
    | .error e => (.error e, { r with tokens := token :: rest, opened := r.opened + stack.length })
    | .ok (.inl form) => (.ok form, { r with tokens := rest })
    | .ok (.inr stack) => resume r stack rest

/-- **The next form of a reader**, and the reader behind it. -/
def next (r : Reader) : Except Error Form × Reader :=
  r.resume [] r.tokens

/-- Whether no form is left. -/
def atEnd (r : Reader) : Bool :=
  r.tokens.all fun t => t.kind.isTrivia

theorem resume_length_lt {r r' : Reader} {stack : List Frame} {tokens : List Token} {form : Form}
    (h : r.resume stack tokens = (.ok form, r')) : r'.tokens.length < tokens.length := by
  induction tokens generalizing stack with
  | nil => simp [resume] at h
  | cons token rest ih =>
    unfold resume at h
    split at h
    · simp at h
    · obtain ⟨-, rfl⟩ := Prod.mk.inj h
      simp
    · have := ih h
      simp only [List.length_cons]; omega

/-- Reading a form takes at least one token. -/
theorem next_length_lt {r r' : Reader} {form : Form} (h : r.next = (.ok form, r')) :
    r'.tokens.length < r.tokens.length :=
  resume_length_lt h

/-- **All forms that are left**, or the first failure. -/
def all (r : Reader) : Except Error (List Form) × Reader :=
  if r.atEnd then (.ok [], r)
  else
    match h : r.next with
    | (.error e, r') => (.error e, r')
    | (.ok form, r') =>
      have := next_length_lt h
      let (forms, r'') := all r'
      (forms.map (form :: ·), r'')
termination_by r.tokens.length

/-- Where the next form would start. -/
def place (r : Reader) : Text.Span :=
  match r.tokens.find? fun t => !t.kind.isTrivia with
  | some token => token.span
  | none => r.finish

end Reader

/-- **The forms of a source.** -/
def read (source : String) : Except Error (List Form) :=
  (Reader.ofSource source).all.1

/-- **The form of a source that holds exactly one.** -/
def readOne (source : String) : Except Error Form :=
  match (Reader.ofSource source).next with
  | (.error e, _) => .error e
  | (.ok form, r) =>
    if r.atEnd then .ok form else .error (.unreadable source r.place .extraForm)

end HostLisp
