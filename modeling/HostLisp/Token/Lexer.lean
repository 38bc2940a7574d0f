import HostLisp.Number.Numeral
import HostLisp.Text.Blank
import HostLisp.Token.Basic

/-!
# From text to tokens

Each scanner gives what stands at the start of some characters, and how many of them it took. Blanks
stand between tokens; every other character belongs to exactly one token. Scanning never fails: where a
token is malformed it ends, and scanning goes on behind it.

* `scanEscape`, `scanString`: the inside of a string literal.
* `classify`: a run of atom characters as a truth value, a number, a symbol or a fault.
* `scan`: the token at the start of a text.
* `tokenize`: all tokens of a source, comments and the end mark included.
-/

namespace HostLisp.Lexer

open Text

/-- The characters that end an atom and start a token of another kind. -/
def delimiters : List Char := ['(', ')', '\x27', '\x60', ',', '"', ';']

/-- Whether a character can stand in a symbol, a number or a truth value. -/
def isAtomChar (c : Char) : Bool :=
  !isBlank c && !delimiters.contains c

/-- The character that hexadecimal digits spell. -/
def codePoint (digits : List Char) : Except LexicalFault Char :=
  let n := hexValue digits
  if digits ≠ [] ∧ n.isValidChar then .ok (Char.ofNat n)
  else .error (.invalidCodePoint (String.ofList digits))

/-- An escape by code point, from behind its `u`: up to six hexadecimal digits in braces, or exactly
four without. A malformed one ends before the first character that does not fit. -/
def scanCodePoint : List Char → Except LexicalFault Char × Nat
  | '\x7b' :: rest =>
    let digits := (rest.takeWhile isHexDigit).take 6
    match rest.drop digits.length with
    | '\x7d' :: _ => (codePoint digits, digits.length + 2)
    | _ => (.error .malformedBraceEscape, digits.length + 1)
  | rest =>
    let digits := (rest.takeWhile isHexDigit).take 4
    if digits.length = 4 then (codePoint digits, 4) else (.error .shortEscape, digits.length)

/-- An escape in a string, from behind its backslash. -/
def scanEscape : List Char → Except LexicalFault Char × Nat
  | [] => (.error .escapeAtEnd, 0)
  | 'n' :: _ => (.ok '\n', 1)
  | 'r' :: _ => (.ok '\r', 1)
  | 't' :: _ => (.ok '\t', 1)
  | '0' :: _ => (.ok '\x00', 1)
  | '\\' :: _ => (.ok '\\', 1)
  | '"' :: _ => (.ok '"', 1)
  | 'u' :: rest =>
    let (c, used) := scanCodePoint rest
    (c, used + 1)
  | c :: _ => (.error (.unknownEscape c), 1)

/-- The characters of a string literal, from behind its opening quote to its closing quote. -/
def scanString : List Char → Except LexicalFault (List Char) × Nat
  | [] => (.error .unterminatedString, 0)
  | '"' :: _ => (.ok [], 1)
  | '\\' :: rest =>
    match scanEscape rest with
    | (.error f, used) => (.error f, used + 1)
    | (.ok c, used) =>
      let (inner, length) := scanString (rest.drop used)
      (inner.map (c :: ·), length + used + 1)
  | c :: rest =>
    let (inner, length) := scanString rest
    (inner.map (c :: ·), length + 1)
termination_by cs => cs.length
decreasing_by
  · simp only [List.length_drop, List.length_cons]; omega
  · simp

/-- What a run of atom characters is. -/
def classify (text : List Char) : TokenKind :=
  match text with
  | ['#', 't'] => .boolean true
  | ['#', 'f'] => .boolean false
  | '#' :: _ => .fault (.unknownLiteral (String.ofList text))
  | _ =>
    if Numeral.looksNumeric text then
      match Numeral.read? text with
      | some n => .number n
      | none => .fault (.invalidNumber (String.ofList text))
    else .symbol (String.ofList text)

/-- **The token at the start of a text** that starts with no blank, and how many characters it takes. -/
def scan (first : Char) (rest : List Char) : TokenKind × Nat :=
  match first with
  | '(' => (.openList, 1)
  | ')' => (.closeList, 1)
  | '\x27' => (.mark .quote, 1)
  | '\x60' => (.mark .quasiquote, 1)
  | ',' => if rest.head? = some '@' then (.mark .unquoteSplicing, 2) else (.mark .unquote, 1)
  | ';' =>
    let text := first :: rest.takeWhile (· ≠ '\n')
    (.comment (String.ofList text), text.length)
  | '"' =>
    match scanString rest with
    | (.ok cs, used) => (.string (String.ofList cs), used + 1)
    | (.error f, used) => (.fault f, used + 1)
  | _ =>
    let text := first :: rest.takeWhile isAtomChar
    (classify text, text.length)

/-- The tokens of a text that starts at a position, and the position behind it. -/
def tokensFrom (p : Position) : List Char → List Token × Position
  | [] => ([], p)
  | c :: rest =>
    if isBlank c then tokensFrom (p.advance c) rest
    else
      let (kind, used) := scan c rest
      let text := (c :: rest).take used
      let (tokens, finish) := tokensFrom (p.after text) (rest.drop (used - 1))
      (⟨kind, .of p text⟩ :: tokens, finish)
termination_by cs => cs.length
decreasing_by
  · simp
  · simp only [List.length_drop, List.length_cons]; omega

/-- **All tokens of a source**, in order, with an end mark behind the last character. -/
def tokenize (source : String) : List Token :=
  let (tokens, finish) := tokensFrom .start source.toList
  tokens ++ [⟨.endOfInput, .of finish []⟩]

end HostLisp.Lexer
