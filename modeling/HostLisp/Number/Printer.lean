import HostLisp.Number.Decimal

/-!
# The text of a number

Integers below `10 ^ 21` are written in full. Every other finite number is written with the fewest
digits that read back as the number, in positional notation.

* `exact`: a magnitude as a decimal, with all its digits.
* `shortest`: the decimal with the fewest digits that reads back; of two with as many digits the
  nearer, and the upper one if both are as near.
* `print`: the text of a number.
-/

namespace HostLisp

namespace Decimal

/-- The magnitude of a given rank with all its digits: a multiple of `2 ^ -1074` is one of
`10 ^ -1074`. -/
def exact (rank : Nat) : Decimal :=
  ⟨Number.units rank * Nat.pow 5 1074, -1074⟩

/-- `digits * 10 ^ exponent`, where digits that are `10 ^ count` are written as a lone one. -/
def carried (count digits : Nat) (exponent : Int) : Decimal :=
  if digits = Nat.pow 10 count then ⟨1, exponent + count⟩ else ⟨digits, exponent⟩

/-- The two neighbours of a decimal among the decimals with `count` digits, the nearer one first. At
the same distance the upper one is first. -/
def neighbours (d : Decimal) (count : Nat) : List Decimal :=
  let dropped := (Nat.toDigits 10 d.digits).length - count
  let exponent := d.exponent + dropped
  let step := Nat.pow 10 dropped
  let lower := carried count (d.digits / step) exponent
  let upper := carried count (d.digits / step + 1) exponent
  if 2 * (d.digits % step) < step then [lower, upper] else [upper, lower]

/-- The decimal with the fewest digits whose nearest magnitude has the given rank. Seventeen digits
always suffice; all digits would do too. -/
def shortest (rank : Nat) : Decimal :=
  let full := exact rank
  let found := (List.range 17).findSome? fun n =>
    (full.neighbours (n + 1)).find? fun d => d.rank = rank
  found.getD full

end Decimal

namespace Number

/-- The text of a finite magnitude. -/
def printMagnitude (rank : Nat) : String :=
  let whole := units rank / unitsOfOne
  if units rank % unitsOfOne = 0 ∧ whole < Nat.pow 10 21 then String.ofList (Nat.toDigits 10 whole)
  else (Decimal.shortest rank).positional

/-- **The text of a number.** Both zeros are written `0`. -/
def print : Number → String
  | .nan => "NaN"
  | .infinite false => "Infinity"
  | .infinite true => "-Infinity"
  | .finite negative rank =>
    if negative && rank.val ≠ 0 then "-" ++ printMagnitude rank else printMagnitude rank

end Number

end HostLisp
