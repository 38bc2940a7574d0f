import HostLisp.Form.Basic

/-!
# Which programs need the symbol table

A quoted symbol compiles to a look-up in the symbol table. The scan looks for one before anything is
compiled, by the places of quotations alone.
-/

namespace HostLisp.SymbolTable

/-- How a form is met by the scan. -/
inductive Context where
  | code
  | quoted
  | template
deriving DecidableEq

mutual

/-- Whether a form has a quoted symbol in it. -/
def scan (c : Context) : Form → Bool
  | .literal _ => false
  | .symbol _ => c ≠ .code
  | .list (.symbol name :: args) =>
    match c, Keyword.ofName? name, args with
    | .code, some .quote, [datum] => scan .quoted datum
    | .code, some .quasiquote, [template] => scan .template template
    | .code, _, args => scanAny .code args
    | .template, some .unquote, args => scanAny .code args
    | .template, some .unquoteSplicing, args => scanAny .code args
    | .template, _, _ => true
    | .quoted, _, _ => true
  | .list items => scanAny c items

/-- Whether any of some forms has a quoted symbol in it. -/
def scanAny (c : Context) : List Form → Bool
  | [] => false
  | f :: fs => scan c f || scanAny c fs

end

/-- **Whether forms need the symbol table.** -/
def needed (forms : List Form) : Bool :=
  scanAny .code forms

end HostLisp.SymbolTable
