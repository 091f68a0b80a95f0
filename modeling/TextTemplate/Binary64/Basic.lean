/-!
# Binary floating-point numbers of 64 bits

The numbers of the IEEE 754 binary64 format, held by their exact value.  Every finite one is a
whole multiple of one *quantum*, `2 ^ -1074`, so its value is the integer `Finite.quanta`; nothing
here rounds.  The significand is normalised (`Canonical`), which makes equal magnitudes equal
pairs.
-/

namespace TextTemplate

namespace Binary64

/-- The power of natural numbers that `^` means here, whatever other powers are in scope. -/
@[reducible] def natPow : Pow Nat Nat := instPowNat

attribute [local instance] natPow

/-- The number of quanta in one. -/
def quantaPerUnit : Nat := 2 ^ (1074 : Nat)

/-- The pairs that stand for a finite magnitude `significand * 2 ^ scale` quanta: 53 bits of
significand, all of them used unless the scale is the least one. -/
def Canonical (significand scale : Nat) : Prop :=
  significand < 2 ^ (53 : Nat) ∧ scale ≤ 2045 ∧ (scale = 0 ∨ 2 ^ (52 : Nat) ≤ significand)

instance (significand scale : Nat) : Decidable (Canonical significand scale) := by
  unfold Canonical
  infer_instance

/-- A finite number, `-0` included. -/
structure Finite where
  negative : Bool
  significand : Nat
  scale : Nat
  canonical : Canonical significand scale
  deriving DecidableEq

namespace Finite

/-- The magnitude counted in quanta. -/
def magnitude (x : Finite) : Nat := x.significand * 2 ^ x.scale

/-- The exact value counted in quanta. -/
def quanta (x : Finite) : Int :=
  if x.negative then -(x.magnitude : Int) else x.magnitude

/-- The greatest integer that is not above the number. -/
def floor (x : Finite) : Int := x.quanta / (quantaPerUnit : Int)

end Finite

end Binary64

/-- A binary64 number. -/
inductive Binary64 where
  | nan
  | infinity (negative : Bool)
  | finite (x : Binary64.Finite)
  deriving DecidableEq

namespace Binary64

/-- Zero of either sign. -/
def isZero : Binary64 → Bool
  | .finite x => x.significand == 0
  | _ => false

/-- The comparison with zero, `0 ≤ x`: false of `nan`, true of `-0`. -/
def isNonneg : Binary64 → Bool
  | .nan => false
  | .infinity negative => !negative
  | .finite x => !x.negative || x.significand == 0

theorem isNonneg_finite_iff (x : Finite) : isNonneg (.finite x) = true ↔ 0 ≤ x.quanta := by
  have hpow : 0 < 2 ^ x.scale := Nat.two_pow_pos _
  cases hs : x.negative with
  | false => simp [isNonneg, Finite.quanta, hs]
  | true =>
    simp only [isNonneg, Finite.quanta, Finite.magnitude, hs, Bool.not_true, Bool.false_or,
      beq_iff_eq, if_true]
    constructor
    · intro h; simp [h]
    · intro h
      have h0 : x.significand * 2 ^ x.scale = 0 := by omega
      rcases Nat.mul_eq_zero.mp h0 with h0 | h0
      · exact h0
      · omega

end Binary64

end TextTemplate
