import HostLisp.Form.Printer
import HostLisp.Host.Identifier
import HostLisp.Special.Basic

/-!
# Host code

Expressions of the host script language, and their text. A declaration is an expression here, since one
can stand wherever a form can; a function holds the expressions it runs and the one it returns.

* `Expr`: host expressions.
* `Expr.render`: the text of an expression, with function bodies indented.
* `Program`: statements, with the symbol table in front if they need it.
-/

namespace HostLisp.Host

/-- A host expression. -/
inductive Expr where
  | literal (l : Literal)
  | identifier (target : String)
  /-- the symbol of a given name, from the symbol table -/
  | intern (name : String)
  | array (items : List Expr)
  /-- arrays joined into one -/
  | concat (pieces : List Expr)
  | object (fields : List (String × Expr))
  | conditional (test consequent alternative : Expr)
  /-- a function that runs some expressions and returns one; the parameters are targets -/
  | function (params : Parameters) (leading : List Expr) (result : Expr)
  | call (callee : Expr) (args : List Expr)
  /-- the property of an object under a computed key -/
  | index (target key : Expr)
  /-- the property of an object under a fixed key -/
  | member (target : Expr) (key : String)
  | assign (place value : Expr)
  | declare (target : String) (init : Expr)

instance : Inhabited Expr := ⟨.array []⟩

/-- The text of a literal in the host. -/
def literalText : Literal → String
  | .number n => n.print
  | .string s => Text.quote s
  | .boolean true => "true"
  | .boolean false => "false"

/-- The name of the symbol table in the host. -/
def tableName : String := "symbol"

/-- The statement that defines the symbol table: equal names give the same object. -/
def tableDefinition : String :=
  "var symbol = (function () \x7b var table = \x7b\x7d; " ++
    "return function (id) \x7b return table.hasOwnProperty(id) ? table[id] : " ++
    "table[id] = \x7b toString: function () \x7b return id; \x7d \x7d; \x7d; \x7d());"

/-- Texts with commas between them. -/
def commas (texts : List String) : String := ", ".intercalate texts

/-- The text of an object whose property is taken. Brackets keep a point behind a number apart from the
number's own. -/
def targetText (text : String) : String :=
  if text.toList.head?.any fun c => c.isDigit || c = '-' then "(" ++ text ++ ")" else text

/-- A property name as a key of an object. -/
def keyText (key : String) : String :=
  if isIdentifierName key then key else Text.quote key

/-- The text of a property with a fixed key. -/
def memberText (target key : String) : String :=
  if isIdentifierName key then targetText target ++ "." ++ key
  else targetText target ++ "[" ++ Text.quote key ++ "]"

/-- A text with each line after the first indented. -/
def indentLines (indent text : String) : String :=
  String.ofList (text.toList.flatMap fun c => if c = '\n' then '\n' :: indent.toList else [c])

/-- The parameter list of a function. All arguments together are not a parameter: the body collects
them. -/
def parameterText : Parameters → String
  | .fixed targets => commas targets
  | .rest _ => ""

/-- The lines in front of a function body. -/
def preamble : Parameters → List String
  | .fixed _ => []
  | .rest target => ["var " ++ target ++ " = [].slice.call(arguments);"]

/-- The text of a function with the given lines in its body. -/
def functionText (indent : String) (params : Parameters) (lines : List String) : String :=
  "(function (" ++ parameterText params ++ ") \x7b\n" ++ indent ++
    indentLines indent ("\n".intercalate (preamble params ++ lines)) ++ "\n\x7d)"

namespace Expr

mutual

/-- **The text of an expression.** -/
def render (indent : String) : Expr → String
  | .literal l => literalText l
  | .identifier target => target
  | .intern name => tableName ++ "(" ++ Text.quote name ++ ")"
  | .array items => "[" ++ commas (renderEach indent items) ++ "]"
  | .concat pieces => "(" ++ ").concat(".intercalate (renderEach indent pieces) ++ ")"
  | .object fields => "(\x7b" ++ commas (renderFields indent fields) ++ "\x7d)"
  | .conditional test consequent alternative =>
    "(" ++ render indent test ++ " ? " ++ render indent consequent ++ " : " ++
      render indent alternative ++ ")"
  | .function params leading result =>
    functionText indent params
      ((renderEach indent leading).map (· ++ ";") ++ ["return " ++ render indent result ++ ";"])
  | .call callee args => render indent callee ++ "(" ++ commas (renderEach indent args) ++ ")"
  | .index target key => targetText (render indent target) ++ "[" ++ render indent key ++ "]"
  | .member target key => memberText (render indent target) key
  | .assign place value => render indent place ++ " = " ++ render indent value
  | .declare target init => "var " ++ target ++ " = " ++ render indent init

/-- The texts of expressions. -/
def renderEach (indent : String) : List Expr → List String
  | [] => []
  | e :: es => render indent e :: renderEach indent es

/-- The texts of the fields of an object. -/
def renderFields (indent : String) : List (String × Expr) → List String
  | [] => []
  | (key, e) :: fields => (keyText key ++ ": " ++ render indent e) :: renderFields indent fields

end

/-- Whether an expression is written as the empty array. The text of such an expression has no function in
it, so indentation makes no difference. -/
def isEmptyArray (e : Expr) : Bool :=
  e.render "" = "[]"

end Expr

/-- Statements in order, and whether they need the symbol table. -/
structure Program where
  table : Bool
  statements : List Expr

/-- **The text of a program**, one statement after another. -/
def Program.render (indent : String) (p : Program) : String :=
  let statements := p.statements.map fun e => e.render indent ++ ";"
  "\n".intercalate (if p.table then tableDefinition :: statements else statements)

end HostLisp.Host
