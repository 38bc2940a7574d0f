import HostLisp.Value.Basic

/-!
# The text of a value

Lists of values stand in brackets, which tells them from forms. A quoted or unquoted value has its mark
in front. A closure shows its parameters and not its body.
-/

namespace HostLisp

/-- The text of a closure. -/
def Closure.print (c : Closure) : String :=
  match c.params with
  | .fixed names => "(fn (" ++ " ".intercalate names ++ ") ...)"
  | .rest name => "(fn " ++ name ++ " ...)"

namespace Value

/-- The mark in front of a value that is quoted or unquoted. -/
def mark? (head : String) : Option String :=
  match Keyword.ofName? head with
  | some .quote => some "'"
  | some .unquote => some ","
  | _ => none

mutual

/-- **The text of a value.** -/
def print : Value → String
  | .literal l => l.print
  | .symbol name => name
  | .closure c => c.print
  | .list [.symbol head, inner] =>
    match mark? head with
    | some mark => mark ++ print inner
    | none => "[" ++ head ++ " " ++ print inner ++ "]"
  | .list items => "[" ++ " ".intercalate (printEach items) ++ "]"

/-- The texts of values. -/
def printEach : List Value → List String
  | [] => []
  | v :: vs => print v :: printEach vs

end

end Value

end HostLisp
