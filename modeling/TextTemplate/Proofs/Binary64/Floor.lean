import TextTemplate.Proofs.Binary64.Value

/-!
# The floor as a number

The floor of a binary64 number is one too (`toRat_roundDown`): a number of which no bit stands
behind the point is its own floor, and the floor of any other has at most 53 bits.  It is an
integer of 128 bits without loss if it is in their range (`toInt128?_roundDown`).
-/

namespace TextTemplate.Binary64.Finite

/-! ### Whole numbers -/

theorem canonical_whole {n : Nat} (h : n < 2 ^ 53) (hzero : n ≠ 0) :
    Canonical (n * 2 ^ (52 - n.log2)) (1022 + n.log2) := by
  have hlog : n.log2 < 53 := (Nat.log2_lt hzero).mpr h
  have hpos : 0 < 2 ^ (52 - n.log2) := Nat.two_pow_pos _
  -- the leading bit moves to the place of bit 52
  refine ⟨?_, by omega, .inr ?_⟩
  · calc n * 2 ^ (52 - n.log2) < 2 ^ (n.log2 + 1) * 2 ^ (52 - n.log2) :=
          Nat.mul_lt_mul_of_pos_right Nat.lt_log2_self hpos
      _ = 2 ^ 53 := by
          rw [← Nat.pow_add]
          congr 1
          omega
  · calc 2 ^ 52 = 2 ^ n.log2 * 2 ^ (52 - n.log2) :=
          (pow_mul_pow_sub 2 (by omega)).symm
      _ ≤ n * 2 ^ (52 - n.log2) := Nat.mul_le_mul_right _ (Nat.log2_self_le hzero)

/-- A natural number of up to 53 bits, with a sign. -/
def ofWhole (negative : Bool) (n : Nat) (h : n < 2 ^ 53) : Finite :=
  if hzero : n = 0 then ⟨negative, 0, 0, by decide⟩
  else ⟨negative, n * 2 ^ (52 - n.log2), 1022 + n.log2, canonical_whole h hzero⟩

theorem magnitude_ofWhole (negative : Bool) {n : Nat} (h : n < 2 ^ 53) :
    (ofWhole negative n h).magnitude = n * quantaPerUnit := by
  unfold ofWhole
  split
  · next hzero => rw [hzero, magnitude, Nat.zero_mul, Nat.zero_mul]
  · next hzero =>
    have hlog : n.log2 < 53 := (Nat.log2_lt hzero).mpr h
    have hscale : 52 - n.log2 + (1022 + n.log2) = 1074 := by omega
    rw [magnitude, Nat.mul_assoc, ← Nat.pow_add, pow_two_eq_quantaPerUnit hscale]

theorem negative_ofWhole (negative : Bool) {n : Nat} (h : n < 2 ^ 53) :
    (ofWhole negative n h).negative = negative := by
  unfold ofWhole
  split <;> rfl

/-! ### Rounding down -/

/-- A number with bits behind the point has a floor of at most 53 bits. -/
theorem natAbs_floor_lt {x : Finite} (h : ¬ 1074 ≤ x.scale) : x.floor.natAbs < 2 ^ 53 := by
  have hunit := quantaPerUnit_pos
  have hscale : 2 * 2 ^ x.scale ≤ quantaPerUnit := by
    have hle : x.scale + 1 ≤ 1074 := by omega
    rw [← pow_two_eq_quantaPerUnit (Nat.add_sub_of_le hle), ← Nat.pow_succ']
    exact Nat.pow_le_pow_right (by decide) (Nat.le_add_right _ _)
  have hmagnitude : (x.magnitude : Int) ≤ (2 ^ 52 : Nat) * (quantaPerUnit : Int) := by
    have hle : x.magnitude ≤ 2 ^ 52 * (2 * 2 ^ x.scale) := by
      rw [← Nat.mul_assoc]
      exact Nat.mul_le_mul_right _ x.canonical.1.le
    exact_mod_cast hle.trans (Nat.mul_le_mul_left _ hscale)
  have hlow : -((2 ^ 52 : Nat) : Int) * quantaPerUnit ≤ x.quanta := by
    rw [quanta, Int.neg_mul]
    split <;> omega
  have hhigh : x.quanta ≤ ((2 ^ 52 : Nat) : Int) * quantaPerUnit := by
    rw [quanta]
    split <;> omega
  have hunit' : (0 : Int) < quantaPerUnit := by exact_mod_cast hunit
  have hfloor_ge : -((2 ^ 52 : Nat) : Int) ≤ x.floor := Int.le_ediv_of_mul_le hunit' hlow
  have hfloor_le : x.floor ≤ ((2 ^ 52 : Nat) : Int) := Int.ediv_le_of_le_mul hunit' hhigh
  have hpow : 2 ^ 52 < 2 ^ 53 := by decide
  omega

/-- The floor of a number, as a number. -/
def roundDown (x : Finite) : Finite :=
  if h : 1074 ≤ x.scale then x else ofWhole x.negative x.floor.natAbs (natAbs_floor_lt h)

/-- A number without bits behind the point is whole. -/
theorem quantaPerUnit_dvd_quanta {x : Finite} (h : 1074 ≤ x.scale) :
    (quantaPerUnit : Int) ∣ x.quanta := by
  have hmagnitude : quantaPerUnit ∣ x.magnitude := by
    obtain ⟨k, hk⟩ : ∃ k, k = 1074 := ⟨_, rfl⟩
    rw [← pow_two_eq_quantaPerUnit hk]
    exact (Nat.pow_dvd_pow 2 (hk.trans_le h)).mul_left x.significand
  unfold quanta
  split
  · exact (Int.natCast_dvd_natCast.mpr hmagnitude).neg_right
  · exact Int.natCast_dvd_natCast.mpr hmagnitude

theorem quanta_roundDown (x : Finite) : x.roundDown.quanta = x.floor * quantaPerUnit := by
  unfold roundDown
  split
  · next h => exact (Int.ediv_mul_cancel (quantaPerUnit_dvd_quanta h)).symm
  · next h =>
    have hunit : (0 : Int) < quantaPerUnit := by exact_mod_cast quantaPerUnit_pos
    rw [quanta, negative_ofWhole, magnitude_ofWhole]
    push_cast
    split
    · next hnegative =>
      have hquanta : x.quanta ≤ 0 := by
        rw [quanta, if_pos hnegative]
        omega
      have hfloor : x.floor ≤ 0 := Int.ediv_nonpos_of_nonpos_of_neg hquanta hunit
      rw [abs_of_nonpos hfloor, Int.neg_mul, Int.neg_neg]
    · next hnegative =>
      have hquanta : 0 ≤ x.quanta := by
        rw [quanta, if_neg hnegative]
        exact Int.natCast_nonneg _
      have hfloor : 0 ≤ x.floor := Int.ediv_nonneg hquanta hunit.le
      rw [abs_of_nonneg hfloor]

/-- A number of 53 bits and more in front of the point is its own floor. -/
theorem roundDown_eq_self {x : Finite} (h : 2 ^ 53 ≤ x.floor.natAbs) : x.roundDown = x := by
  have hscale : 1074 ≤ x.scale := by
    by_contra hscale
    exact absurd (natAbs_floor_lt hscale) (Nat.not_lt.mpr h)
  rw [roundDown, dif_pos hscale]

/-- Rounding down gives exactly the floor. -/
theorem toRat_roundDown (x : Finite) : x.roundDown.toRat = ⌊x.toRat⌋ := by
  have hunit : (quantaPerUnit : ℚ) ≠ 0 := by exact_mod_cast quantaPerUnit_pos.ne'
  rw [toRat, quanta_roundDown, floor_toRat]
  push_cast
  exact mul_div_cancel_right₀ _ hunit

theorem floor_roundDown (x : Finite) : x.roundDown.floor = x.floor := by
  rw [← floor_toRat, toRat_roundDown, Int.floor_intCast, floor_toRat]

/-! ### Integers of 128 bits -/

/-- The number as a signed integer of 128 bits, if it is one: it is whole, and in their range. -/
def toInt128? (x : Finite) : Option Int :=
  if (quantaPerUnit : Int) ∣ x.quanta ∧ -(2 ^ 127 : Nat) ≤ x.floor ∧
      x.floor < (2 ^ 127 : Nat) then
    some x.floor
  else none

theorem toInt128?_roundDown {x : Finite} (h : x.floor.natAbs < 2 ^ 127) :
    x.roundDown.toInt128? = some x.floor := by
  have hdvd : (quantaPerUnit : Int) ∣ x.roundDown.quanta := by
    rw [quanta_roundDown]
    exact Int.dvd_mul_left _ _
  rw [toInt128?, floor_roundDown, if_pos ⟨hdvd, by omega, by omega⟩]

end TextTemplate.Binary64.Finite
