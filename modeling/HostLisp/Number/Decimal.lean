import HostLisp.Number.Basic

/-!
# Decimals and the numbers nearest to them

A decimal is a natural number of digits scaled by a power of ten. `Decimal.nearest` is the number
nearest to a decimal, a half going to the even rank, as binary64 reading demands.

* `roundHalfEven`: a quotient to the nearest natural number.
* `nearestRank`: the rank of the magnitude nearest to a quotient.
* `Decimal.rank`: the rank of the magnitude nearest to a decimal.
-/

namespace HostLisp

/-- The natural number nearest to `num / den`; a half goes to the even neighbour. -/
def roundHalfEven (num den : Nat) : Nat :=
  let q := num / den
  let twice := 2 * (num % den)
  if twice < den then q
  else if den < twice then q + 1
  else q + q % 2

/-- The rank of the magnitude nearest to `num / den`. The quotient is counted in units of `2 ^ -1074`.
Once it exceeds fifty-three bits only the leading fifty-three are kept, and each bit dropped moves the
rank up by a binade. The result is `infinityRank` or more where the quotient is too large. -/
def nearestRank (num den : Nat) : Nat :=
  let scaled := num * Number.unitsOfOne
  let dropped := (scaled / den).log2 - 52
  roundHalfEven scaled (den * Nat.pow 2 dropped) + dropped * binade

/-- The value `digits * 10 ^ exponent`. -/
structure Decimal where
  digits : Nat
  exponent : Int
deriving DecidableEq

namespace Decimal

/-- The rank of the magnitude nearest to a decimal. An exponent so large or so small that the result
is infinite or zero whatever the digits is decided without raising ten to it. -/
def rank (d : Decimal) : Nat :=
  if d.digits = 0 then 0
  else if 400 ≤ d.exponent then infinityRank
  else if d.digits.log2 + 3 * d.exponent < -1080 then 0
  else if 0 ≤ d.exponent then nearestRank (d.digits * Nat.pow 10 d.exponent.toNat) 1
  else nearestRank d.digits (Nat.pow 10 (-d.exponent).toNat)

/-- The number nearest to a decimal. -/
def nearest (d : Decimal) : Number :=
  .ofRank false d.rank

/-- A decimal in positional notation, without an exponent: zeros fill the places between the digits
and the point. -/
def positional (d : Decimal) : String :=
  let text := Nat.toDigits 10 d.digits
  if 0 ≤ d.exponent then String.ofList (text ++ List.replicate d.exponent.toNat '0')
  else
    let places := (-d.exponent).toNat
    let padded := List.replicate (places + 1 - text.length) '0' ++ text
    let whole := padded.length - places
    String.ofList (padded.take whole ++ '.' :: padded.drop whole)

end Decimal

end HostLisp
