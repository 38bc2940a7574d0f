/-!
# Keywords

The names that head a special form. A symbol is a keyword by its exact name, wherever it stands.
-/

namespace HostLisp

/-- The heads of the special forms. -/
inductive Keyword where
  | var
  | fn
  | assign
  | conditional
  | quote
  | quasiquote
  | unquote
  | unquoteSplicing
  | member
  | object
  | importModules
  | list
  | defineSyntax
  | syntaxRules
deriving DecidableEq

namespace Keyword

/-- All keywords, in the order of their declaration. -/
def all : List Keyword :=
  [.var, .fn, .assign, .conditional, .quote, .quasiquote, .unquote, .unquoteSplicing, .member, .object,
    .importModules, .list, .defineSyntax, .syntaxRules]

/-- The name of a keyword in source text. -/
def name : Keyword → String
  | .var => "var"
  | .fn => "fn"
  | .assign => "set!"
  | .conditional => "if"
  | .quote => "quote"
  | .quasiquote => "quasiquote"
  | .unquote => "unquote"
  | .unquoteSplicing => "unquote-splicing"
  | .member => "."
  | .object => "obj"
  | .importModules => "import"
  | .list => "list"
  | .defineSyntax => "define-syntax"
  | .syntaxRules => "syntax-rules"

/-- The keyword of a given name. -/
def ofName? (s : String) : Option Keyword :=
  all.find? fun k => k.name = s

end Keyword

end HostLisp
