/-!
# Blanks and control characters

Two classes of characters that the reader and the printers depend on.

* `isBlank`: the 25 code points with the Unicode property White_Space. They separate tokens.
* `isControl`: the control characters. They never stand raw in a quoted string.
-/

namespace HostLisp.Text

/-- The ranges of code points with the property White_Space, ascending, both ends included. -/
def blankRanges : List (Nat × Nat) :=
  [(0x09, 0x0D), (0x20, 0x20), (0x85, 0x85), (0xA0, 0xA0), (0x1680, 0x1680), (0x2000, 0x200A),
    (0x2028, 0x2029), (0x202F, 0x202F), (0x205F, 0x205F), (0x3000, 0x3000)]

/-- White space, in ASCII and beyond. -/
def isBlank (c : Char) : Bool :=
  blankRanges.any fun r => r.1 ≤ c.toNat && c.toNat ≤ r.2

/-- A control character: below U+0020, or from U+007F to U+009F. -/
def isControl (c : Char) : Bool :=
  c.toNat ≤ 0x1F || (0x7F ≤ c.toNat && c.toNat ≤ 0x9F)

end HostLisp.Text
