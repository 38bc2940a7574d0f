import HostLisp.Keyword
import HostLisp.Number.Basic

/-!
# Forms

A program is a list of forms: literals, symbols, and lists of forms. Reading produces forms, and the
evaluator and the compiler both work on them directly.

* `Form.special?`: a list whose head is a keyword, with its arguments.
* `Form.standardName?`: the name of a symbol that can be bound.
* `Form.isPropertyAccess`: `(. target key)` and `(.key target)`, which can be assigned to.
* `Form.equals`: equality up to equality of numbers.
* `Form.shape`: what a form is to the evaluator and to the compiler.
-/

namespace HostLisp

/-- A number, a string or a truth value. -/
inductive Literal where
  | number (n : Number)
  | string (s : String)
  | boolean (b : Bool)
deriving DecidableEq

namespace Literal

/-- Numbers other than zero and `nan`, strings other than the empty one, and `#t` count as true. -/
def isTruthy : Literal → Bool
  | .number n => n.isTruthy
  | .string s => s ≠ ""
  | .boolean b => b

/-- The name of a literal's type. -/
def typeName : Literal → String
  | .number _ => "number"
  | .string _ => "string"
  | .boolean _ => "boolean"

/-- Equality of literals, where numbers compare as numbers. -/
def equals : Literal → Literal → Bool
  | .number m, .number n => m.equals n
  | .string s, .string t => s = t
  | .boolean a, .boolean b => a = b
  | _, _ => false

end Literal

/-- A node of a program. -/
inductive Form where
  | literal (l : Literal)
  | symbol (name : String)
  | list (items : List Form)

namespace Form

instance : Inhabited Form := ⟨.list []⟩

/-- The name of a form's type. -/
def typeName : Form → String
  | .literal l => l.typeName
  | .symbol _ => "symbol"
  | .list _ => "list"

/-- A keyword and one argument as a list: `'x` is `(quote x)`. -/
def wrap (k : Keyword) (inner : Form) : Form :=
  .list [.symbol k.name, inner]

/-- The keyword that heads a list, and the arguments after it. -/
def special? : Form → Option (Keyword × List Form)
  | .list (.symbol name :: args) => (Keyword.ofName? name).map fun k => (k, args)
  | _ => none

/-- Whether a form is a list headed by the given keyword. -/
def isSpecial (f : Form) (k : Keyword) : Bool :=
  f.special?.any fun s => s.1 = k

mutual

/-- Equality of forms, where numbers compare as numbers: `nan` differs from itself and the two zeros are
equal. -/
def equals : Form → Form → Bool
  | .literal l, .literal m => l.equals m
  | .symbol a, .symbol b => a = b
  | .list xs, .list ys => equalsEach xs ys
  | _, _ => false

/-- Equality of lists of forms, item by item. -/
def equalsEach : List Form → List Form → Bool
  | [], [] => true
  | x :: xs, y :: ys => equals x y && equalsEach xs ys
  | _, _ => false

end

end Form

/-- Whether a symbol names a property: it starts with a point. -/
def isPropertyName (name : String) : Bool :=
  name.toList.head? = some '.'

/-- The key that a property name stands for: what follows the point, if anything does. -/
def propertyKey? (name : String) : Option String :=
  match name.toList with
  | '.' :: c :: rest => some (String.ofList (c :: rest))
  | _ => none

namespace Form

/-- The name of a symbol that can be bound: one that names no property. -/
def standardName? : Form → Option String
  | .symbol name => if isPropertyName name then none else some name
  | _ => none

/-- `(. target key)` or `(.key target)`: a place inside a host object. -/
def isPropertyAccess : Form → Bool
  | .list (.symbol name :: args) =>
    if Keyword.ofName? name = some .member then args.length = 2
    else (propertyKey? name).isSome && args.length = 1
  | _ => false

/-- What a form is to the evaluator and to the compiler. -/
inductive Shape where
  | literal (l : Literal)
  | name (name : String)
  | empty
  | special (k : Keyword) (args : List Form)
  /-- a property of an object, `(.key target ...)` -/
  | access (key : String) (args : List Form)
  | application (head : Form) (args : List Form)

/-- The shape of a list with a given head. Keywords come first, then property names. -/
def headedShape (head : Form) (args : List Form) : Shape :=
  match head with
  | .symbol name =>
    match Keyword.ofName? name, propertyKey? name with
    | some k, _ => .special k args
    | none, some key => .access key args
    | none, none => .application head args
  | _ => .application head args

/-- **What a form is to the evaluator and to the compiler.** -/
def shape : Form → Shape
  | .literal l => .literal l
  | .symbol name => .name name
  | .list [] => .empty
  | .list (head :: args) => headedShape head args

end Form

end HostLisp
