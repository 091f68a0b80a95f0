import Mathlib.Data.Rat.Floor
import TextTemplate.Binary64.Basic

/-!
# The value of a finite number

`Finite.toRat` is the exact value of a finite number.  The floor counted on quanta is the floor of
this value (`floor_toRat`), and both have the same sign; zero is the number without a significand
(`toRat_eq_zero_iff`).
-/

namespace TextTemplate.Binary64.Finite

/-- The exact value. -/
def toRat (x : Finite) : ℚ := x.quanta / quantaPerUnit

/-- The power is written with a name for its exponent, so that it is not computed. -/
theorem pow_two_eq_quantaPerUnit {k : Nat} (h : k = 1074) : 2 ^ k = quantaPerUnit := by
  unfold quantaPerUnit
  congr

theorem quantaPerUnit_pos : 0 < quantaPerUnit := by
  obtain ⟨k, hk⟩ : ∃ k, k = 1074 := ⟨_, rfl⟩
  rw [← pow_two_eq_quantaPerUnit hk]
  exact Nat.two_pow_pos k

theorem floor_toRat (x : Finite) : ⌊x.toRat⌋ = x.floor :=
  Rat.floor_intCast_div_natCast x.quanta quantaPerUnit

theorem abs_floor_lt_iff (x : Finite) {n : Nat} : |⌊x.toRat⌋| < n ↔ x.floor.natAbs < n := by
  rw [floor_toRat, Int.abs_eq_natAbs, Int.ofNat_lt]

theorem toRat_neg_iff (x : Finite) : x.toRat < 0 ↔ x.floor < 0 := by
  rw [← floor_toRat, Int.floor_lt, Int.cast_zero]

theorem toRat_nonneg_iff (x : Finite) : 0 ≤ x.toRat ↔ 0 ≤ x.floor := by
  rw [← floor_toRat, Int.floor_nonneg]

/-- A number counts as not below zero exactly if its floor does, `-0` included. -/
theorem isNonneg_iff_floor (x : Finite) : isNonneg (.finite x) = true ↔ 0 ≤ x.floor := by
  rw [isNonneg_finite_iff, floor, Int.ediv_nonneg_iff_of_pos]
  exact_mod_cast quantaPerUnit_pos

theorem quanta_neg_iff_floor (x : Finite) : x.quanta < 0 ↔ x.floor < 0 := by
  rw [← Int.not_le, ← isNonneg_finite_iff, x.isNonneg_iff_floor, Int.not_le]

theorem toRat_eq_zero_iff {x : Finite} : x.toRat = 0 ↔ x.significand = 0 := by
  have hunit : (quantaPerUnit : ℚ) ≠ 0 := by exact_mod_cast quantaPerUnit_pos.ne'
  have hpow : 2 ^ x.scale ≠ 0 := (Nat.two_pow_pos _).ne'
  rw [toRat, div_eq_zero_iff, or_iff_left hunit, Int.cast_eq_zero, quanta, magnitude]
  constructor
  · intro h
    have hmagnitude : x.significand * 2 ^ x.scale = 0 := by
      split at h <;> omega
    exact (Nat.mul_eq_zero.mp hmagnitude).resolve_right hpow
  · intro h
    simp [h]

end TextTemplate.Binary64.Finite

namespace TextTemplate.Binary64

theorem isZero_iff {x : Binary64} : x.isZero ↔ ∃ y, x = .finite y ∧ y.toRat = 0 := by
  cases x with
  | nan => simp [isZero]
  | infinity negative => simp [isZero]
  | finite y => simp [isZero, Finite.toRat_eq_zero_iff]

end TextTemplate.Binary64
