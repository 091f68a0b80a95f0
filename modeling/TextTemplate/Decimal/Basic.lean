/-!
# Decimal numbers

A `Decimal` is a non-negative number `coefficient * 10 ^ exponent`.  `positional` writes it
without an exponent: all its digits, a point where the units end, and zeros where the digits do
not reach the point.
-/

namespace TextTemplate

/-- The number `coefficient * 10 ^ exponent`. -/
structure Decimal where
  coefficient : Nat
  exponent : Int
  deriving DecidableEq, Repr

namespace Decimal

/-- The digits of `coefficient` with the last `places` of them behind a point, at least one digit
standing in front of it. -/
def withPlaces (coefficient places : Nat) : List Char :=
  let digits := Nat.toDigits 10 coefficient
  let padded := List.replicate (places + 1 - digits.length) '0' ++ digits
  let whole := padded.length - places
  padded.take whole ++ '.' :: padded.drop whole

/-- The text of a number in positional notation. -/
def positional (d : Decimal) : List Char :=
  match d.exponent with
  | .ofNat zeros => Nat.toDigits 10 d.coefficient ++ List.replicate zeros '0'
  | .negSucc n => withPlaces d.coefficient (n + 1)

end Decimal

end TextTemplate
