import RelQuery.Text.Basic

/-!
# The range of a double

A double keeps 53 bits of a number.  A number that lies nearer to the power of two above the
greatest double than to the greatest double, or half way between them, is too large.
-/

namespace RelQuery.Double

/-- The least number that is too large. -/
def limit : Nat :=
  Text.wordCount 1024 - Text.wordCount 970

/-- The number of 53 bits that lies nearest; half way, the even one. -/
def round (n : Nat) : Nat :=
  let unit := Nat.pow 2 (n.log2 - 52)
  let quotient := n / unit
  let rest := n % unit
  if unit < 2 * rest ∨ (unit = 2 * rest ∧ quotient % 2 = 1) then (quotient + 1) * unit
  else quotient * unit

/-- Whether `significand * 10 ^ exponent` is too large.  A power of ten is above the same power of
eight, so a long fraction is told by the bits of the significand alone. -/
def exceeds (significand : Nat) (exponent : Int) : Bool :=
  if significand = 0 then false
  else if 308 < exponent then true
  else if 0 ≤ exponent then decide (limit ≤ significand * Nat.pow 10 exponent.toNat)
  else if significand.log2 < 3 * (-exponent).toNat then false
  else decide (limit * Nat.pow 10 (-exponent).toNat ≤ significand)

/-- Whether the product of two doubles, a significand and a power of ten, is too large.  Both are
rounded first, so it may differ from what is exact.  A negative power divides. -/
def productExceeds (significand : Nat) (exponent : Int) : Bool :=
  if significand = 0 ∨ exponent < 0 then false
  else if 308 < exponent then true
  else decide (limit ≤ round significand * round (Nat.pow 10 exponent.toNat))

end RelQuery.Double
