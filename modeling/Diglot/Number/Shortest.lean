import Diglot.Number.Binary64

/-!
# The shortest decimal of a double

A double is written with the fewest digits that read back as the same double, and of those with the
ones nearest to it. All comparisons are exact, on natural numbers.

- `Binary64.shortest`: the digits and the decimal exponent of a positive double.
- `Binary64.render`: a double as text. Magnitudes from `10 ^ 16` on and below `10 ^ (-4)` are
  written with an exponent, the other ones with at least one digit after the point.
-/

namespace Diglot.Binary64

/-- The exponent field: the eleven bits above the `fraction`. -/
def exponentField (x : Binary64) : Nat :=
  x.bits.toNat / Nat.pow 2 52 % Nat.pow 2 11

/-- The fraction field. -/
def fraction (x : Binary64) : Nat :=
  x.bits.toNat % Nat.pow 2 52

/-- Whether the sign bit is set. -/
def isNegative (x : Binary64) : Bool :=
  Nat.pow 2 63 ≤ x.bits.toNat

/-- A double without its sign is `significand * 2 ^ (scale - 1074)`. -/
def significand (x : Binary64) : Nat :=
  if x.exponentField = 0 then x.fraction else x.fraction + Nat.pow 2 52

/-- The exponent of two that goes with `significand`. -/
def scale (x : Binary64) : Nat :=
  x.exponentField - 1

/-- A magnitude and the numbers that round to it, as numerators over one denominator. The ends
belong to the numbers when the significand is even. -/
structure Neighbourhood where
  low : Nat
  value : Nat
  high : Nat
  den : Nat
  closed : Bool

/-- The `Neighbourhood` of a double, in quarters of its unit. Below a power of two the next
double is only half as far away. -/
def neighbourhood (x : Binary64) : Neighbourhood :=
  let m := x.significand
  let unit := Nat.pow 2 x.scale
  -- the neighbour below has the smaller exponent only if there is such an exponent
  let below := if x.fraction = 0 ∧ 1 < x.exponentField then 1 else 2
  { low := (4 * m - below) * unit
    value := 4 * m * unit
    high := (4 * m + 2) * unit
    den := Nat.pow 2 1076
    closed := m % 2 = 0 }

namespace Neighbourhood

/-- Whether `c * up / down` rounds to the value. -/
def contains (v : Neighbourhood) (c up down : Nat) : Bool :=
  let n := c * up * v.den
  if v.closed then v.low * down ≤ n && n ≤ v.high * down
  else v.low * down < n && n < v.high * down

/-- The exponent `k` for which the value is at least `10 ^ (k - 1)` and below `10 ^ k`. -/
def magnitude (v : Neighbourhood) : Int :=
  if v.den ≤ v.value then (Nat.toDigits 10 (v.value / v.den)).length
  else 1 - ((Nat.toDigits 10 ((v.den - 1) / v.value)).length : Int)

/-- The number of `digits` digits nearest to the value, if it rounds to it: a coefficient for the
power `10 ^ (magnitude - digits)`. Of two that are equally near the larger one is taken. -/
def nearest? (v : Neighbourhood) (digits : Nat) : Option Nat :=
  let k := v.magnitude - digits
  let up := Nat.pow 10 k.toNat
  let down := Nat.pow 10 (-k).toNat
  let c := v.value * down / (up * v.den)
  let nearer := if 2 * (v.value * down) < (2 * c + 1) * (up * v.den) then [c, c + 1] else [c + 1, c]
  nearer.find? fun c => v.contains c up down

end Neighbourhood

/-- The digits of a number without the zeros at its end. -/
def significantDigits (n : Nat) : List Char :=
  ((Nat.toDigits 10 n).reverse.dropWhile (· == '0')).reverse

/-- The shortest digits of a positive double and the exponent `k` for which it is nearest to
`0.digits * 10 ^ k`. Seventeen digits always suffice. -/
def shortest (x : Binary64) : List Char × Int :=
  let v := x.neighbourhood
  let found := (List.range 17).findSome? fun i => (v.nearest? (i + 1)).map fun c => (c, i + 1)
  let (c, digits) := found.getD (0, 1)
  (significantDigits c, v.magnitude + ((Nat.toDigits 10 c).length - digits : Int))

/-- Digits with a point: at least one digit on either side. The value is that of `0.digits * 10
^ k`, as for `shortest`. -/
def positional (digits : List Char) (k : Int) : List Char :=
  let lead := List.replicate (-k).toNat '0'
  let whole := digits.take k.toNat ++ List.replicate (k.toNat - digits.length) '0'
  let rest := lead ++ digits.drop k.toNat
  (if whole.isEmpty then ['0'] else whole) ++ '.' :: (if rest.isEmpty then ['0'] else rest)

/-- Digits with an exponent: one digit before the point, and no point when there is no other.
The value is that of `0.digits * 10 ^ k`. -/
def scientific (digits : List Char) (k : Int) : List Char :=
  let tail := digits.drop 1
  digits.take 1 ++ (if tail.isEmpty then [] else '.' :: tail) ++ 'e' :: (toString (k - 1)).toList

/-- A double as text: the `shortest` digits, `positional` or `scientific` by their exponent. -/
def render (x : Binary64) : String :=
  let sign := if x.isNegative then "-" else ""
  if x.exponentField = 0x7FF then
    if x.fraction = 0 then sign ++ "inf" else "NaN"
  else if x.significand = 0 then sign ++ "0.0"
  else
    let (digits, k) := x.shortest
    let written := if 17 ≤ k ∨ k ≤ -4 then scientific digits k else positional digits k
    sign ++ String.ofList written

end Diglot.Binary64
