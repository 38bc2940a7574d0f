import HostLisp.Form.Depth
import HostLisp.Form.Printer
import HostLisp.Special.Fault
import HostLisp.Text.Span

/-!
# Errors

An error is a cause, and the form at which it was raised if there is one. The causes are data; their
words are in `Cause.message`, and `Error.message` adds the form.
-/

namespace HostLisp

/-- What is wrong with the characters of a token. -/
inductive LexicalFault where
  | unterminatedString
  | escapeAtEnd
  | unknownEscape (c : Char)
  | malformedBraceEscape
  | shortEscape
  | invalidCodePoint (digits : String)
  | unknownLiteral (text : String)
  | invalidNumber (text : String)
deriving DecidableEq

/-- The words for a fault in a token. -/
def LexicalFault.message : LexicalFault → String
  | .unterminatedString => "unterminated string literal"
  | .escapeAtEnd => "unexpected end of input in string escape"
  | .unknownEscape c => "invalid escape sequence: \\" ++ String.singleton c
  | .malformedBraceEscape => "malformed \\u\x7b...\x7d escape"
  | .shortEscape => "\\u escape needs four hex digits"
  | .invalidCodePoint digits => "invalid code point: \\u\x7b" ++ digits ++ "\x7d"
  | .unknownLiteral text => "unknown literal: " ++ text
  | .invalidNumber text => "invalid number: " ++ text

/-- Why a text cannot be read as forms. -/
inductive ReadFault where
  | lexical (f : LexicalFault)
  | unexpectedEnd
  | unexpectedClose
  | unterminatedList
  /-- a quotation mark with nothing behind it -/
  | missingForm (k : Keyword)
  /-- more than the one form asked for -/
  | extraForm
deriving DecidableEq

/-- The words for a reading fault. -/
def ReadFault.message : ReadFault → String
  | .lexical f => f.message
  | .unexpectedEnd => "unexpected end of input"
  | .unexpectedClose => "unexpected ')'"
  | .unterminatedList => "unterminated list"
  | .missingForm k => "expected form after " ++ k.name
  | .extraForm => "expected a single form"

/-- A value of the wrong type. -/
inductive TypeFault where
  | spliceNotList (typeName : String)
  | notFunction (typeName : String)
deriving DecidableEq

/-- The words for a type fault. -/
def TypeFault.message : TypeFault → String
  | .spliceNotList t => "unquote-splicing: expects argument of type list, got " ++ t
  | .notFunction t => "Non-function application (" ++ t ++ ")"

/-- A construct where it has no meaning. -/
inductive ScopeFault where
  /-- an unquotation outside a template -/
  | outsideTemplate (k : Keyword)
  /-- a splice that is not an item of a list -/
  | outsideList
  /-- an import below the top of a program -/
  | importInside
  /-- a construct of the host, met by the evaluator -/
  | hostObject (construct : String)
  | unexpandedInEvaluation (k : Keyword)
  | unexpandedInCompilation (k : Keyword)
deriving DecidableEq

/-- The words for a scope fault. -/
def ScopeFault.message : ScopeFault → String
  | .outsideTemplate k => k.name ++ ": not in quasiquote"
  | .outsideList => "unquote-splicing: not in list"
  | .importInside => "import: not valid here"
  | .hostObject construct => construct ++ ": host objects are not available here"
  | .unexpandedInEvaluation k => k.name ++ ": macros must be expanded before evaluation"
  | .unexpandedInCompilation k => k.name ++ ": macros must be expanded before compilation"

/-- A bound on how deep a program may go. -/
inductive Limit where
  /-- levels of evaluation or compilation -/
  | depth (bound : Nat)
  /-- levels of lists in a form -/
  | nesting (bound : Nat)
deriving DecidableEq

/-- The words for a limit. -/
def Limit.message : Limit → String
  | .depth bound => "max depth (" ++ toString bound ++ ") exceeded"
  | .nesting bound => "max nesting depth (" ++ toString bound ++ ") exceeded"

/-- A breach of the rules between the parts of the library. -/
inductive InternalFault where
  /-- a cell that the store does not have -/
  | foreignCell (index : Nat)
  /-- no number left for a new cell -/
  | cellsExhausted
  /-- the name of the symbol table is already a target -/
  | tableNameTaken (target : String)
deriving DecidableEq

/-- The words for an internal fault. -/
def InternalFault.message : InternalFault → String
  | .foreignCell index => "cell " ++ toString index ++ " does not belong to this evaluator"
  | .cellsExhausted => "cell store exhausted"
  | .tableNameTaken target => "symbol table name '" ++ target ++ "' is already bound"

/-- Why an operation failed. -/
inductive Cause where
  | malformed (f : SyntaxFault)
  | undefinedIdentifier (name : String)
  | uninitialized (name : String)
  | emptyApplication
  | arityMismatch (expected actual : Nat)
  | wrongType (f : TypeFault)
  | unsupportedCharacter (c : Char)
  | misplaced (f : ScopeFault)
  | unreadable (f : ReadFault) (line column : UInt32) (context : String)
  | moduleUnavailable (module : String) (reason : String)
  | limitExceeded (l : Limit)
  | internal (f : InternalFault)
deriving DecidableEq

/-- The words for a cause. -/
def Cause.message : Cause → String
  | .malformed f => f.message
  | .undefinedIdentifier name => "Undefined identifier '" ++ name ++ "'"
  | .uninitialized name => "Identifier '" ++ name ++ "' used before initialization"
  | .emptyApplication => "Empty application"
  | .arityMismatch expected actual =>
    "Argument count mismatch (expected " ++ toString expected ++ ", received " ++ toString actual ++ ")"
  | .wrongType f => f.message
  | .unsupportedCharacter c => "Unsupported identifier character '" ++ String.singleton c ++ "'"
  | .misplaced f => f.message
  | .unreadable f line column _ =>
    "parse error at " ++ toString line ++ ":" ++ toString column ++ ": " ++ f.message
  | .moduleUnavailable module reason => "import '" ++ module ++ "' failed: " ++ reason
  | .limitExceeded l => "limit exceeded: " ++ l.message
  | .internal f => "internal error: " ++ f.message

/-- A failure: its cause, and the form at which it was raised. -/
structure Error where
  cause : Cause
  site : Option Form

namespace Error

/-- An error without a form. -/
def plain (cause : Cause) : Error := ⟨cause, none⟩

/-- An error raised at a form. -/
def raised (form : Form) (cause : Cause) : Error := ⟨cause, some form⟩

/-- A reading error at a place of a source. -/
def unreadable (source : String) (place : Text.Span) (f : ReadFault) : Error :=
  plain (.unreadable f place.line place.column (place.lineText source))

/-- The words for an error, with the form at which it was raised. -/
def message (e : Error) : String :=
  match e.site with
  | none => e.cause.message
  | some form => e.cause.message ++ " @ " ++ form.print

end Error

/-- Refuses a form that nests deeper than a bound. -/
def Form.checkNesting (form : Form) (bound : Nat) : Except Error Unit :=
  if bound < form.nestingDepth then .error (.plain (.limitExceeded (.nesting bound))) else .ok ()

end HostLisp
