/-!
# Host identifiers

Names in source text may hold characters that identifiers of the host must not have. Each such character
has a fixed spelling or makes the name unusable.

* `isIdentifierName`, `isReserved`, `isSafe`: what the host takes for an identifier.
* `sanitize`: the identifier that a name is spelled as.
-/

namespace HostLisp.Host

/-- The words that the host keeps for itself. -/
def reservedWords : List String :=
  ["arguments", "await", "break", "case", "catch", "class", "const", "continue", "debugger", "default",
    "delete", "do", "else", "enum", "eval", "export", "extends", "false", "finally", "for", "function",
    "if", "implements", "import", "in", "Infinity", "instanceof", "interface", "let", "NaN", "new",
    "null", "package", "private", "protected", "public", "return", "static", "super", "switch", "this",
    "throw", "true", "try", "typeof", "undefined", "var", "void", "while", "with", "yield"]

/-- Whether the host keeps a word for itself. -/
def isReserved (word : String) : Bool :=
  reservedWords.contains word

/-- A character that can start an identifier. -/
def isNameStart (c : Char) : Bool :=
  c.isAlpha || c = '_' || c = '$'

/-- A character that can stand in an identifier. -/
def isNameChar (c : Char) : Bool :=
  c.isAlphanum || c = '_' || c = '$'

/-- Whether a text has the form of an identifier. -/
def isIdentifierName (s : String) : Bool :=
  match s.toList with
  | [] => false
  | c :: cs => isNameStart c && cs.all isNameChar

/-- Whether a text can be used as an identifier. -/
def isSafe (s : String) : Bool :=
  isIdentifierName s && !isReserved s

/-- The spelling of a character that identifiers must not have. -/
def substitute? : Char → Option String
  | '-' => some "_"
  | '=' => some "$eq"
  | '>' => some "$gt"
  | '<' => some "$lt"
  | '!' => some "$excl"
  | '?' => some "$quest"
  | '%' => some "$perc"
  | ':' => some "$colon"
  | '&' => some "$amp"
  | '~' => some "$tilde"
  | '*' => some "$star"
  | '+' => some "$plus"
  | '/' => some "$slash"
  | '\\' => some "$bslash"
  | _ => none

/-- How a character is spelled in an identifier. A character without a spelling is the failure. -/
def spell (c : Char) : Except Char (List Char) :=
  if isNameChar c then .ok [c]
  else
    match substitute? c with
    | some s => .ok s.toList
    | none => .error c

/-- The characters of an identifier that is not empty, starts with no digit, and is no word of the host: a
dollar sign goes in front where one of these would fail. -/
def guardStart (spelled : List Char) : List Char :=
  if spelled.head?.all Char.isDigit || isReserved (String.ofList spelled) then '$' :: spelled
  else spelled

/-- **The identifier that a name is spelled as**, or its first character without a spelling. -/
def sanitize (name : String) : Except Char String := do
  let spelled ← name.toList.mapM spell
  return String.ofList (guardStart spelled.flatten)

end HostLisp.Host
