/-!
# Places in a text

A `Position` is a place between characters: a byte offset in UTF-8, a line and a column, both from 1. A
`Span` is a stretch of the text between two byte offsets, with the line and column where it starts. Lines
and columns are counted with 32 bits: behind the largest number the count starts again at 0.

* `Position.advance`, `Position.after`: the place behind a character, and behind several.
* `Span.text`: the characters of a span.
* `Span.lineText`: the whole line on which a span starts.
-/

namespace HostLisp.Text

/-- A place between two characters of a text. -/
structure Position where
  offset : Nat
  line : UInt32
  column : UInt32
deriving DecidableEq

namespace Position

/-- The start of a text. -/
def start : Position := ⟨0, 1, 1⟩

/-- The place behind one character. -/
def advance (p : Position) (c : Char) : Position :=
  if c = '\n' then ⟨p.offset + c.utf8Size, p.line + 1, 1⟩
  else ⟨p.offset + c.utf8Size, p.line, p.column + 1⟩

/-- The place behind a run of characters. -/
def after (p : Position) (cs : List Char) : Position :=
  cs.foldl advance p

end Position

/-- A stretch of a text, given by byte offsets, and where it starts. -/
structure Span where
  start : Nat
  stop : Nat
  line : UInt32
  column : UInt32
deriving DecidableEq

/-- The characters from a byte offset on. -/
def dropBytes : Nat → List Char → List Char
  | 0, cs => cs
  | _ + 1, [] => []
  | n + 1, c :: cs => dropBytes (n + 1 - c.utf8Size) cs

/-- The characters before a byte offset. -/
def takeBytes : Nat → List Char → List Char
  | 0, _ => []
  | _ + 1, [] => []
  | n + 1, c :: cs => c :: takeBytes (n + 1 - c.utf8Size) cs

namespace Span

/-- The span of a run of characters that starts at a position. -/
def of (p : Position) (cs : List Char) : Span :=
  ⟨p.offset, (p.after cs).offset, p.line, p.column⟩

/-- The part of a source that a span covers. -/
def text (s : Span) (source : String) : String :=
  String.ofList (takeBytes (s.stop - s.start) (dropBytes s.start source.toList))

/-- The line of a source on which a span starts, without its line end. -/
def lineText (s : Span) (source : String) : String :=
  let before := (takeBytes s.start source.toList).reverse.takeWhile (· ≠ '\n')
  let behind := (dropBytes s.start source.toList).takeWhile (· ≠ '\n')
  String.ofList ((before.reverse ++ behind).reverse.dropWhile (· = '\r')).reverse

end Span

end HostLisp.Text
