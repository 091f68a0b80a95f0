import TextTemplate.Binary64.Basic
import TextTemplate.Decimal.Basic

/-!
# Rounding to binary64

The number nearest to an exact fraction, of two equally near ones that with the even significand
(`ofRatio`), and from it the reading of decimals (`ofDecimal`) and of counts (`ofNat`).  The
fraction is scaled so that its quotient has 53 bits, or fewer at the least scale; rounding may
carry into a 54th bit, which moves to the next scale.
-/

namespace TextTemplate.Binary64

attribute [local instance] natPow

/-- The quotient rounded to the nearest whole number, a half going to the even neighbour. -/
def divRoundEven (num den : Nat) : Nat :=
  let q := num / den
  let r := num % den
  if 2 * r < den ∨ (2 * r = den ∧ q % 2 = 0) then q else q + 1

/-- The number of `significand * 2 ^ scale` quanta, or an infinity where the scale is beyond the
format. -/
def ofScaled (negative : Bool) (significand scale : Nat) : Binary64 :=
  if h : Canonical significand scale then .finite ⟨negative, significand, scale, h⟩
  else .infinity negative

/-- The number nearest to `num / den`, ties to even, with the given sign. -/
def ofRatio (negative : Bool) (num den : Nat) : Binary64 :=
  let quanta := num * quantaPerUnit
  let scale := (quanta / den).log2 - 52
  let significand := divRoundEven quanta (den * 2 ^ scale)
  if significand = 2 ^ (53 : Nat) then ofScaled negative (2 ^ (52 : Nat)) (scale + 1)
  else ofScaled negative significand scale

/-- The number nearest to a decimal, with the given sign. -/
def ofDecimal (negative : Bool) (d : Decimal) : Binary64 :=
  match d.exponent with
  | .ofNat n => ofRatio negative (d.coefficient * 10 ^ n) 1
  | .negSucc n => ofRatio negative d.coefficient (10 ^ (n + 1))

/-- The number nearest to a count. -/
def ofNat (n : Nat) : Binary64 := ofRatio false n 1

end TextTemplate.Binary64
