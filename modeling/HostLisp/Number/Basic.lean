/-!
# Numbers

The numbers of the language are the binary64 numbers: a sign and a magnitude, where a magnitude is
finite or infinite, and one value `nan` beside them.

The finite magnitudes are numbered upwards from zero. The number of a magnitude is its **rank**, and
`units` gives its size as a multiple of `2 ^ -1074`, the least positive magnitude. Rank and sign are
what the sixty-four bits of a number spell (`ofBits`, `toBits`).
-/

namespace HostLisp

/-- How many ranks lie between a power of two and the next one: `2 ^ 52`. -/
def binade : Nat := Nat.pow 2 52

/-- How many finite magnitudes there are: the rank of infinity. -/
def infinityRank : Nat := 2047 * binade

/-- A binary64 number. Zero has both signs; there is one `nan`. -/
inductive Number where
  | finite (negative : Bool) (rank : Fin infinityRank)
  | infinite (negative : Bool)
  | nan
deriving DecidableEq

namespace Number

/-- How many units make one: `2 ^ 1074`. -/
def unitsOfOne : Nat := Nat.pow 2 1074

/-- The size of the magnitude of a given rank, in multiples of `2 ^ -1074`. The ranks of the first two
binades are one unit apart; from there on the distance doubles with every binade. -/
def units (rank : Nat) : Nat :=
  if rank < 2 * binade then rank else (binade + rank % binade) * Nat.pow 2 (rank / binade - 1)

/-- The number with a given sign and rank; ranks from `infinityRank` on overflow to infinity. -/
def ofRank (negative : Bool) (rank : Nat) : Number :=
  if h : rank < infinityRank then .finite negative ⟨rank, h⟩ else .infinite negative

/-- The positive zero. -/
def zero : Number := .finite false ⟨0, by decide⟩

instance : Inhabited Number := ⟨zero⟩

/-- The number with its sign changed. -/
def neg : Number → Number
  | .finite s r => .finite (!s) r
  | .infinite s => .infinite (!s)
  | .nan => .nan

/-- Equality of numbers: the two zeros are equal, and `nan` differs from itself. -/
def equals : Number → Number → Bool
  | .finite s r, .finite t q => r = q && (s = t || r.val = 0)
  | .infinite s, .infinite t => s = t
  | _, _ => false

/-- A number is true unless it is zero or `nan`. -/
def isTruthy : Number → Bool
  | .finite _ r => r.val ≠ 0
  | .infinite _ => true
  | .nan => false

/-- Whether a number is neither infinite nor `nan`. -/
def isFinite : Number → Bool
  | .finite _ _ => true
  | _ => false

/-- What the bit of the sign counts: `2 ^ 63`. -/
def signBit : Nat := Nat.pow 2 63

/-- The number that sixty-four bits spell: the sign bit, then the rank. All patterns above the rank of
infinity spell `nan`. -/
def ofBits (bits : UInt64) : Number :=
  let negative : Bool := signBit ≤ bits.toNat
  let rank := bits.toNat % signBit
  if rank ≤ infinityRank then ofRank negative rank else .nan

/-- The bits of a number; `nan` has the quiet pattern without a sign. -/
def toBits : Number → UInt64
  | .finite s r => UInt64.ofNat ((if s then signBit else 0) + r.val)
  | .infinite s => UInt64.ofNat ((if s then signBit else 0) + infinityRank)
  | .nan => 0x7FF8000000000000

end Number

end HostLisp
