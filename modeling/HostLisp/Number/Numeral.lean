import HostLisp.Number.Decimal
import HostLisp.Text.Hex

/-!
# Numerals

The texts that stand for numbers in source text.

* `looksNumeric`: a run of characters that has to be a numeral or is a fault.
* `read?`: the number that a numeral stands for. A numeral has an optional sign, then either `0x` and
  hexadecimal digits for a value below `2 ^ 64`, which may have a plus sign of their own, or decimal
  digits with an optional point and an optional exponent.
-/

namespace HostLisp.Numeral

/-- Splits a leading sign off; the flag says whether it is a minus. -/
def splitSign : List Char → Bool × List Char
  | '-' :: rest => (true, rest)
  | '+' :: rest => (false, rest)
  | text => (false, text)

/-- Whether a run starts with a digit after at most one sign and at most one point. -/
def looksNumeric (text : List Char) : Bool :=
  let unsigned := (splitSign text).2
  let digits := match unsigned with
    | '.' :: rest => rest
    | _ => unsigned
  digits.head?.any Char.isDigit

/-- The number of a run of hexadecimal digits, which may start with a plus sign. There has to be a
digit, and the value has to fit sixty-four bits. -/
def readHex? (text : List Char) : Option Number :=
  let digits := match text with
    | '+' :: rest => rest
    | _ => text
  if digits ≠ [] ∧ digits.all Text.isHexDigit ∧ Text.hexValue digits < Nat.pow 2 64 then
    some (Decimal.nearest ⟨Text.hexValue digits, 0⟩)
  else none

/-- What follows the digits of a decimal numeral: nothing, or `e` and an exponent with an optional
sign. -/
def readExponent? : List Char → Option Int
  | [] => some 0
  | mark :: rest =>
    let (negative, digits) := splitSign rest
    if (mark = 'e' ∨ mark = 'E') ∧ digits ≠ [] ∧ digits.all Char.isDigit then
      let size : Int := Nat.ofDigitChars 10 digits 0
      some (if negative then -size else size)
    else none

/-- The number of a decimal numeral without a sign: digits with an optional point among or around
them, at least one digit, and an optional exponent. -/
def readDecimal? (text : List Char) : Option Number :=
  let whole := text.takeWhile Char.isDigit
  let rest := text.dropWhile Char.isDigit
  let (fraction, rest) := match rest with
    | '.' :: rest => (rest.takeWhile Char.isDigit, rest.dropWhile Char.isDigit)
    | _ => ([], rest)
  if whole ++ fraction = [] then none
  else (readExponent? rest).map fun exponent =>
    Decimal.nearest ⟨Nat.ofDigitChars 10 (whole ++ fraction) 0, exponent - fraction.length⟩

/-- The number of a numeral without a sign. -/
def readUnsigned? : List Char → Option Number
  | '0' :: 'x' :: digits => readHex? digits
  | '0' :: 'X' :: digits => readHex? digits
  | text => readDecimal? text

/-- **The number that a numeral stands for**, or `none` if the text is no numeral. -/
def read? (text : List Char) : Option Number :=
  let (negative, unsigned) := splitSign text
  (readUnsigned? unsigned).map fun n => if negative then n.neg else n

end HostLisp.Numeral
