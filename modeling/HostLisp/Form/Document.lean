import HostLisp.Form.Basic

/-!
# Forms as documents

A document is a tree of plain data, as formats for data interchange have it. A form is kept in one as an
object with a single field whose name tells the kind of form, and a literal likewise inside it.

* `Form.toDocument`: the document of a form. Infinite numbers and `nan` have no place in documents and
  become `null`.
* `Form.ofDocument?`: the form of a document; every other shape is refused.
-/

namespace HostLisp

/-- A tree of plain data. -/
inductive Document where
  | null
  | boolean (b : Bool)
  | number (n : Number)
  | text (s : String)
  | array (items : List Document)
  | object (fields : List (String × Document))

instance : Inhabited Document := ⟨.null⟩

namespace Literal

/-- The document of a literal. -/
def toDocument : Literal → Document
  | .number n => .object [("Number", if n.isFinite then .number n else .null)]
  | .string s => .object [("String", .text s)]
  | .boolean b => .object [("Bool", .boolean b)]

/-- The literal of a document. -/
def ofDocument? : Document → Option Literal
  | .object [("Number", .number n)] => some (.number n)
  | .object [("String", .text s)] => some (.string s)
  | .object [("Bool", .boolean b)] => some (.boolean b)
  | _ => none

end Literal

namespace Form

mutual

/-- The document of a form. -/
def toDocument : Form → Document
  | .literal l => .object [("Literal", l.toDocument)]
  | .symbol name => .object [("Symbol", .text name)]
  | .list items => .object [("List", .array (toDocuments items))]

/-- The documents of forms. -/
def toDocuments : List Form → List Document
  | [] => []
  | f :: fs => toDocument f :: toDocuments fs

end

mutual

/-- The form of a document. -/
def ofDocument? : Document → Option Form
  | .object [("Literal", l)] => (Literal.ofDocument? l).map .literal
  | .object [("Symbol", .text name)] => some (.symbol name)
  | .object [("List", .array items)] => (ofDocuments? items).map .list
  | _ => none

/-- The forms of documents, if all of them are forms. -/
def ofDocuments? : List Document → Option (List Form)
  | [] => some []
  | d :: ds =>
    match ofDocument? d, ofDocuments? ds with
    | some f, some fs => some (f :: fs)
    | _, _ => none

end

end Form

end HostLisp
