import Diglot.Number.Decimal

/-!
# Double-precision numbers

A double is kept as its 64 bits: the sign, eleven bits of exponent and 52 bits of fraction. Decimal
numbers are turned into doubles by exact arithmetic on natural numbers, so that the nearest double
is found whatever the number of digits.

- `Binary64`: the bits.
- `Binary64.ofRatio`: the double nearest to a quotient of natural numbers, the even one of two
  equally near.
- `Binary64.ofDecimal`: the double nearest to `m * 10 ^ e`.
- `Binary64.ofLiteral`: the double that a decimal literal denotes.
-/

namespace Diglot

/-- A double-precision number, by its bits. -/
structure Binary64 where
  bits : UInt64
  deriving DecidableEq, Repr

namespace Binary64

/-- Positive infinity. -/
def infinity : Binary64 := ⟨0x7FF0000000000000⟩

/-- Positive zero, whose bits are all zero. -/
def zero : Binary64 := ⟨0⟩

/-- The quotient of `num` by `den` rounded to the nearest natural number, a half to the even one. -/
def roundDiv (num den : Nat) : Nat :=
  let q := num / den
  let r := num % den
  if 2 * r < den then q
  else if den < 2 * r then q + 1
  else if q % 2 = 0 then q else q + 1

/-- The double `m * 2 ^ (e - 1074)`, for `m` at most `2 ^ 53`. A significand of `2 ^ 53` is the
first of the next exponent, and an exponent that is too large gives infinity. -/
def pack (m e : Nat) : Binary64 :=
  let n := if m < Nat.pow 2 52 then m else e * Nat.pow 2 52 + m
  if n < 0x7FF0000000000000 then ⟨n.toUInt64⟩ else infinity

/-- The double nearest to `num / den`. The significand is taken in units of `2 ^ (e - 1074)`, where
`e` is the least exponent that leaves it below `2 ^ 53`. -/
def ofRatio (num den : Nat) : Binary64 :=
  -- in units of the least double
  let scaled := num * Nat.pow 2 1074
  let e := (scaled / den).log2 - 52
  pack (roundDiv scaled (den * Nat.pow 2 e)) e

/-- The double nearest to `m * 10 ^ e`. Beyond the range of doubles the powers of ten are not
computed. -/
def ofDecimal (m : Nat) (e : Int) : Binary64 :=
  let magnitude := e + (Nat.toDigits 10 m).length
  if m = 0 ∨ magnitude < -330 then zero
  else if 310 < magnitude then infinity
  else if 0 ≤ e then ofRatio (m * Nat.pow 10 e.toNat) 1
  else ofRatio m (Nat.pow 10 (-e).toNat)

/-- The double nearest to the number that digits, a point, digits and perhaps an exponent denote
(`ofDecimal`). -/
def ofLiteral (text : String) : Binary64 :=
  let cs := text.toList
  let whole := cs.takeWhile Char.isDigit
  let fraction := (cs.drop (whole.length + 1)).takeWhile Char.isDigit
  let exponent := cs.drop (whole.length + 1 + fraction.length + 1)
  ofDecimal (Decimal.natOfDigits (whole ++ fraction))
    (Decimal.intOfDigits exponent - fraction.length)

end Binary64

end Diglot
