import HostLisp.Scope
import HostLisp.Special.Basic

/-!
# Values

What evaluation produces: literals, symbols, lists of values, and closures. Quoted forms are values
(`Value.ofForm`). Each closure has a stamp of its own, and closures are equal when their stamps are.
-/

namespace HostLisp

/-- The number of arguments that parameters take, if it is fixed. -/
def Parameters.arity? : Parameters → Option Nat
  | .fixed names => some names.length
  | .rest _ => none

/-- A function with the scope it was made in. -/
structure Closure where
  /-- tells closures apart that were made at different times -/
  stamp : Nat
  params : Parameters
  body : Body
  scope : Scope

/-- A result of evaluation. -/
inductive Value where
  | literal (l : Literal)
  | symbol (name : String)
  | list (items : List Value)
  | closure (c : Closure)

namespace Value

instance : Inhabited Value := ⟨.list []⟩

mutual

/-- A form as quoted data. -/
def ofForm : Form → Value
  | .literal l => .literal l
  | .symbol name => .symbol name
  | .list items => .list (ofForms items)

/-- Forms as quoted data. -/
def ofForms : List Form → List Value
  | [] => []
  | f :: fs => ofForm f :: ofForms fs

end

/-- Every value is true but the literals that are not. -/
def isTruthy : Value → Bool
  | .literal l => l.isTruthy
  | _ => true

/-- The name of a value's type. -/
def typeName : Value → String
  | .literal l => l.typeName
  | .symbol _ => "symbol"
  | .list _ => "list"
  | .closure _ => "function"

mutual

/-- Equality of values: numbers compare as numbers, closures by their stamps. -/
def equals : Value → Value → Bool
  | .literal l, .literal m => l.equals m
  | .symbol a, .symbol b => a = b
  | .list xs, .list ys => equalsEach xs ys
  | .closure c, .closure d => c.stamp = d.stamp
  | _, _ => false

/-- Equality of lists of values, item by item. -/
def equalsEach : List Value → List Value → Bool
  | [], [] => true
  | x :: xs, y :: ys => equals x y && equalsEach xs ys
  | _, _ => false

end

end Value

end HostLisp
