/-!
# Decimal digits

The numbers that runs of decimal digits denote.
-/

namespace Diglot.Decimal

/-- The natural number that digits denote. -/
def natOfDigits (cs : List Char) : Nat :=
  cs.foldl (fun n c => 10 * n + (c.toNat - '0'.toNat)) 0

/-- The integer that an optional sign and digits denote (`natOfDigits`). -/
def intOfDigits : List Char → Int
  | '-' :: cs => -(natOfDigits cs : Int)
  | '+' :: cs => natOfDigits cs
  | cs => natOfDigits cs

end Diglot.Decimal
