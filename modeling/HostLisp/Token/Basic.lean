import HostLisp.Error

/-!
# Tokens

The pieces into which source text falls: parentheses, quotation marks, atoms, comments, and an end mark
behind the last of them. A piece that is malformed is a token too; its fault is reported when something
is read from it.
-/

namespace HostLisp

/-- The marks that quote the form behind them. -/
inductive Mark where
  | quote
  | quasiquote
  | unquote
  | unquoteSplicing
deriving DecidableEq

/-- The keyword that a mark stands for. -/
def Mark.keyword : Mark → Keyword
  | .quote => .quote
  | .quasiquote => .quasiquote
  | .unquote => .unquote
  | .unquoteSplicing => .unquoteSplicing

/-- What a token is, with the value it stands for. -/
inductive TokenKind where
  | openList
  | closeList
  | mark (m : Mark)
  | boolean (b : Bool)
  | number (n : Number)
  | string (s : String)
  | symbol (name : String)
  /-- a comment, with its semicolon and without its line end -/
  | comment (text : String)
  | fault (f : LexicalFault)
  | endOfInput
deriving DecidableEq

namespace TokenKind

/-- The name of a kind of token. -/
def name : TokenKind → String
  | .openList => "'('"
  | .closeList => "')'"
  | .mark m => m.keyword.name
  | .boolean true => "#t"
  | .boolean false => "#f"
  | .number _ => "number"
  | .string _ => "string"
  | .symbol _ => "symbol"
  | .comment _ => "comment"
  | .fault _ => "error"
  | .endOfInput => "end of input"

/-- Whether a token takes no part in any form. -/
def isTrivia : TokenKind → Bool
  | .comment _ | .endOfInput => true
  | _ => false

end TokenKind

/-- A token and the stretch of source text it was read from. -/
structure Token where
  kind : TokenKind
  span : Text.Span
deriving DecidableEq

end HostLisp
