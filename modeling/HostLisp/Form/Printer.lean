import HostLisp.Form.Basic
import HostLisp.Number.Printer
import HostLisp.Text.Quoted

/-!
# The text of a form

Lists stand in parentheses with one space between items; symbols stand for themselves; quotes have no
short form. The text of a readable form reads back as that form.
-/

namespace HostLisp

/-- The text of a literal. -/
def Literal.print : Literal → String
  | .number n => n.print
  | .string s => Text.quote s
  | .boolean true => "#t"
  | .boolean false => "#f"

namespace Form

mutual

/-- **The text of a form.** -/
def print : Form → String
  | .literal l => l.print
  | .symbol name => name
  | .list items => "(" ++ " ".intercalate (printEach items) ++ ")"

/-- The texts of forms. -/
def printEach : List Form → List String
  | [] => []
  | f :: fs => print f :: printEach fs

end

theorem printEach_eq_map (fs : List Form) : printEach fs = fs.map print := by
  induction fs with
  | nil => rfl
  | cons f fs ih => simp [printEach, ih]

/-- The text of forms in a row, one space between them. -/
def printAll (fs : List Form) : String :=
  " ".intercalate (fs.map print)

end Form

end HostLisp
