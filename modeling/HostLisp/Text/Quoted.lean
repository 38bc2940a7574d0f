import HostLisp.Text.Blank
import HostLisp.Text.Hex

/-!
# Quoted strings

The text of a string literal, valid in source text and in host text alike. Quotes, backslashes,
line ends and tabs have short escapes. Control characters and the two Unicode line separators are
written as `\u` and four digits, since a host refuses them raw. All else stands for itself.
-/

namespace HostLisp.Text

/-- One character inside a quoted string. -/
def escape (c : Char) : List Char :=
  if c = '"' then ['\\', '"']
  else if c = '\\' then ['\\', '\\']
  else if c = '\n' then ['\\', 'n']
  else if c = '\r' then ['\\', 'r']
  else if c = '\t' then ['\\', 't']
  else if isControl c || c.toNat = 0x2028 || c.toNat = 0x2029 then '\\' :: 'u' :: hexFour c.toNat
  else [c]

/-- A text between double quotes, with its special characters escaped. -/
def quote (s : String) : String :=
  String.ofList ('"' :: (s.toList.flatMap escape ++ ['"']))

end HostLisp.Text
