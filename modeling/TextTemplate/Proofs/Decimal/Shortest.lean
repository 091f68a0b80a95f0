import TextTemplate.Proofs.Binary64.Rounding
import TextTemplate.Proofs.Decimal.Positional

/-!
# The shortest decimal

The search for the shortest decimal goes through an interval of whole numbers, the decimals that are
rounded to a number, counted in decimal units (`covers_iff_contains`).  Its result is in
the interval (`covers_shortest`), its last digit is not zero (`coefficient_shortest_mod`), and no
decimal that is rounded to the number has fewer digits (`coefficient_shortest_lt`).
-/

namespace TextTemplate.Binary64

/-! ### The search -/

namespace RoundingInterval

variable {i : RoundingInterval} {n k c step : ℕ}

/-- The number is in its interval, and zero is not. -/
structure IsProper (i : RoundingInterval) : Prop where
  low_pos : 0 < i.low
  low_le : i.low ≤ i.value
  le_high : i.value ≤ i.high

/-- A whole number of decimal units is in the interval. -/
def Contains (i : RoundingInterval) (n : ℕ) : Prop := i.low ≤ n ∧ n ≤ i.high

/-- The power of ten at which the search stops. -/
def power (i : RoundingInterval) : ℕ := i.coarsest i.bound

theorem meets_iff (hstep : 0 < step) : i.meets step ↔ ∃ c, i.Contains (c * step) := by
  rw [meets, decide_eq_true_iff]
  constructor
  · intro h
    exact ⟨i.high / step, h, Nat.div_mul_le_self _ _⟩
  · rintro ⟨c, hlow, hhigh⟩
    exact hlow.trans (Nat.mul_le_mul_right _ ((Nat.le_div_iff_mul_le hstep).mpr hhigh))

theorem meets_coarsest (h : i.meets (10 ^ 0)) (n : ℕ) :
    i.meets (10 ^ (i.coarsest n)) := by
  induction n with
  | zero => exact h
  | succ n ih =>
    rw [coarsest]
    split
    · assumption
    · exact ih

theorem le_coarsest (hk : k ≤ n) (h : i.meets (10 ^ k)) : k ≤ i.coarsest n := by
  induction n with
  | zero => exact hk
  | succ n ih =>
    rw [coarsest]
    split
    · exact hk
    · next hnot =>
      have hne : k ≠ n + 1 := by
        rintro rfl
        exact hnot h
      exact ih (by omega)

/-- No multiple of a higher power is in the interval than of that at which the search stops. -/
theorem le_power (hi : i.IsProper) (h : i.Contains (c * 10 ^ k)) : k ≤ i.power := by
  have hpos : 0 < 10 ^ k := Nat.pow_pos (by decide)
  have hc : 0 < c := by
    rw [Nat.pos_iff_ne_zero]
    rintro rfl
    have hlow := h.1
    rw [Nat.zero_mul] at hlow
    exact absurd hi.low_pos (Nat.not_lt.mpr hlow)
  have hlt : 10 ^ k < 10 ^ i.bound :=
    calc 10 ^ k ≤ c * 10 ^ k := Nat.le_mul_of_pos_left _ hc
      _ ≤ i.high := h.2
      _ < 10 ^ i.bound := i.high_lt_pow_bound
  have hk : k < i.bound := (Nat.pow_lt_pow_iff_right (by decide)).mp hlt
  exact le_coarsest hk.le ((meets_iff hpos).mpr ⟨c, h⟩)

theorem exists_contains_power (hi : i.IsProper) : ∃ c, i.Contains (c * 10 ^ i.power) := by
  have hself : i.Contains (i.value * 10 ^ 0) := by
    show i.Contains (i.value * 1)
    rw [Nat.mul_one]
    exact ⟨hi.low_le, hi.le_high⟩
  have hone : i.meets (10 ^ 0) := (meets_iff (by decide)).mpr ⟨i.value, hself⟩
  exact (meets_iff (Nat.pow_pos (by decide))).mp (meets_coarsest hone _)

/-- Where there is a multiple in the interval, the nearest one is in it. -/
theorem contains_nearest (hi : i.IsProper) (hstep : 0 < step)
    (h : ∃ c, i.Contains (c * step)) : i.Contains (i.nearest step * step) := by
  obtain ⟨c, hlow, hhigh⟩ := h
  have hbelow : i.value / step * step ≤ i.value := Nat.div_mul_le_self _ _
  have habove : i.value < (i.value / step + 1) * step :=
    Nat.lt_mul_of_div_lt (Nat.lt_succ_self _) hstep
  have hvalue := hi.low_le
  have hvalue' := hi.le_high
  simp only [nearest]
  split
  · next hout =>
    -- the multiple in the interval is not below the value
    have hle : (i.value / step + 1) * step ≤ c * step := by
      apply Nat.mul_le_mul_right
      by_contra hlt
      have hle : c * step ≤ i.value / step * step := Nat.mul_le_mul_right _ (by omega)
      omega
    exact ⟨by omega, by omega⟩
  · split
    · exact ⟨by omega, by omega⟩
    · split
      · exact ⟨by omega, by omega⟩
      · exact ⟨by omega, by omega⟩

/-- The nearest multiple to a multiple is itself. -/
theorem nearest_of_eq_mul (hi : i.IsProper) (hstep : 0 < step) (h : i.value = c * step) :
    i.nearest step = c := by
  have hquotient : i.value / step = c := by rw [h, Nat.mul_div_cancel _ hstep]
  have hlow : ¬ c * step < i.low := by
    rw [← h]
    exact Nat.not_lt.mpr hi.low_le
  simp only [nearest, hquotient, hlow, if_false]
  split
  · rfl
  · rw [if_pos]
    rw [h, Nat.sub_self, Nat.add_mul]
    omega

end RoundingInterval

/-! ### Decimal units -/

/-- The decimal units in one. -/
def unitsPerOne : ℕ := 10 ^ 1076

theorem pow_ten_eq_unitsPerOne {n : ℕ} (h : n = 1076) : 10 ^ n = unitsPerOne := by
  unfold unitsPerOne
  congr

theorem unitsPerOne_eq : unitsPerOne = 4 * (quantaPerUnit * unitsPerQuarter) := by
  obtain ⟨k, hk⟩ : ∃ k, k = 1074 := ⟨_, rfl⟩
  have hn : k + 2 = 1076 := by omega
  rw [← pow_ten_eq_unitsPerOne hn, ← pow_five_eq_unitsPerQuarter hn,
    ← Finite.pow_two_eq_quantaPerUnit hk]
  calc 10 ^ (k + 2) = 2 ^ (k + 2) * 5 ^ (k + 2) := Nat.mul_pow 2 5 _
    _ = 4 * (2 ^ k * 5 ^ (k + 2)) := by ring

theorem unitsPerOne_pos : 0 < unitsPerOne := by
  rw [unitsPerOne_eq]
  have h := Nat.mul_pos Finite.quantaPerUnit_pos unitsPerQuarter_pos
  omega

/-- A multiple of a power of ten, in decimal units. -/
theorem mul_pow_div_unitsPerOne (c j : ℕ) :
    ((c * 10 ^ j : ℕ) / unitsPerOne : ℚ) = c * (10 : ℚ) ^ ((j : ℤ) - 1076) := by
  -- the exponent under a name, so that the power is not computed
  obtain ⟨n, hn⟩ : ∃ n, n = 1076 := ⟨_, rfl⟩
  have hcast : (1076 : ℤ) = n := by omega
  have hten : (10 : ℚ) ≠ 0 := by decide
  rw [← pow_ten_eq_unitsPerOne hn, hcast, zpow_sub₀ hten, zpow_natCast, zpow_natCast,
    Nat.cast_mul, Nat.cast_pow, Nat.cast_pow, Nat.cast_ofNat, mul_div_assoc]

/-! ### The interval of a number -/

section Interval

variable {x : Finite} {q r : ℚ}

theorem roundingInterval_eq (x : Finite) :
    x.roundingInterval =
      { low := (4 * x.significand - x.lowerGap) * (2 ^ x.scale * unitsPerQuarter) +
          if x.significand % 2 = 0 then 0 else 1
        value := 4 * x.significand * (2 ^ x.scale * unitsPerQuarter)
        high := (4 * x.significand + 2) * (2 ^ x.scale * unitsPerQuarter) -
          if x.significand % 2 = 0 then 0 else 1 } := by
  unfold Finite.roundingInterval Finite.lowerGap
  rfl

/-- The gaps to the neighbours are wide enough for the margins at the ends. -/
theorem isProper_roundingInterval (hx : x.significand ≠ 0) : x.roundingInterval.IsProper := by
  have hunit : 0 < 2 ^ x.scale * unitsPerQuarter :=
    Nat.mul_pos (Nat.two_pow_pos _) unitsPerQuarter_pos
  rw [roundingInterval_eq]
  generalize 2 ^ x.scale * unitsPerQuarter = unit at *
  have hgap : unit ≤ x.lowerGap * unit := Nat.le_mul_of_pos_left _ x.lowerGap_pos
  have hgap' : x.lowerGap * unit ≤ 2 * unit := Nat.mul_le_mul_right _ x.lowerGap_le
  have hone : 1 * unit ≤ x.significand * unit := Nat.mul_le_mul_right _ (by omega)
  have hlow : (4 * x.significand - x.lowerGap) * unit =
      4 * (x.significand * unit) - x.lowerGap * unit := by rw [Nat.sub_mul, Nat.mul_assoc]
  have hvalue : 4 * x.significand * unit = 4 * (x.significand * unit) := Nat.mul_assoc _ _ _
  have hhigh : (4 * x.significand + 2) * unit = 4 * (x.significand * unit) + 2 * unit := by
    rw [Nat.add_mul, Nat.mul_assoc]
  constructor
  · show 0 < (4 * x.significand - x.lowerGap) * unit + _
    omega
  · show (4 * x.significand - x.lowerGap) * unit + _ ≤ 4 * x.significand * unit
    split <;> omega
  · show 4 * x.significand * unit ≤ (4 * x.significand + 2) * unit - _
    split <;> omega

/-- The interval holds the decimals that are rounded to the number, as far as they are whole numbers
of decimal units. -/
theorem covers_iff_contains (x : Finite) (n : ℕ) :
    x.Covers (n / unitsPerOne) ↔ x.roundingInterval.Contains n := by
  have hfactor : 0 < 4 * quantaPerUnit := by
    have := Finite.quantaPerUnit_pos
    omega
  have hunits : 2 ^ x.scale * unitsPerOne =
      2 ^ x.scale * unitsPerQuarter * (4 * quantaPerUnit) := by
    rw [unitsPerOne_eq]
    ring
  have hquanta : 4 * (n * quantaPerUnit) = n * (4 * quantaPerUnit) := by ring
  rw [covers_div_iff unitsPerOne_pos, hunits, hquanta, roundingInterval_eq]
  simp only [← Nat.mul_assoc _ _ (4 * quantaPerUnit), ← Nat.add_mul,
    Nat.mul_le_mul_right_iff hfactor, Nat.mul_lt_mul_right hfactor]
  generalize 2 ^ x.scale * unitsPerQuarter = unit
  show _ ↔ (4 * x.significand - x.lowerGap) * unit + _ ≤ n ∧ n ≤ (4 * x.significand + 2) * unit - _
  rw [Nat.sub_mul, Nat.even_iff]
  split
  · next heven =>
    constructor
    · rintro ⟨hlow, hhigh, -⟩
      exact ⟨by omega, hhigh⟩
    · intro h
      exact ⟨by omega, h.2, fun hodd => absurd heven hodd⟩
  · next hodd =>
    have hgap : x.lowerGap * unit ≤ 4 * x.significand * unit := by
      have hle := x.lowerGap_le
      exact Nat.mul_le_mul_right _ (by omega)
    constructor
    · rintro ⟨-, -, hstrict⟩
      have := hstrict hodd
      omega
    · intro h
      exact ⟨by omega, by omega, fun _ => by omega⟩

theorem covers_mul_pow_iff (x : Finite) (c j : ℕ) :
    x.Covers (c * (10 : ℚ) ^ ((j : ℤ) - 1076)) ↔
      x.roundingInterval.Contains (c * 10 ^ j) := by
  rw [← mul_pow_div_unitsPerOne, covers_iff_contains]

end Interval

/-! ### The shortest decimal -/

section Shortest

variable {x : Finite} {c n : ℕ} {e : ℤ}

theorem contains_shortest (hx : x.significand ≠ 0) :
    x.roundingInterval.Contains
      (x.shortest.coefficient * 10 ^ x.roundingInterval.power) := by
  have hi := isProper_roundingInterval hx
  exact RoundingInterval.contains_nearest hi (Nat.pow_pos (by decide))
    (RoundingInterval.exists_contains_power hi)

theorem covers_shortest (hx : x.significand ≠ 0) : x.Covers x.shortest.toRat :=
  (covers_mul_pow_iff x _ _).mpr (contains_shortest hx)

/-- No decimal that is rounded to the number has a greater exponent. -/
theorem exponent_le (hx : x.significand ≠ 0) (h : x.Covers (c * (10 : ℚ) ^ e)) :
    e ≤ x.shortest.exponent := by
  show e ≤ (x.roundingInterval.power : ℤ) - 1076
  by_contra hlt
  obtain ⟨j, hj⟩ : ∃ j : ℕ, e = (j : ℤ) - 1076 := ⟨(e + 1076).toNat, by omega⟩
  rw [hj, covers_mul_pow_iff] at h
  have hle := RoundingInterval.le_power (isProper_roundingInterval hx) h
  omega

/-- The shortest decimal does not end in a zero. -/
theorem coefficient_shortest_mod (hx : x.significand ≠ 0) : x.shortest.coefficient % 10 ≠ 0 := by
  intro hmod
  obtain ⟨c, hc⟩ := Nat.dvd_of_mod_eq_zero hmod
  have hcontains := contains_shortest hx
  have hpow : x.shortest.coefficient * 10 ^ x.roundingInterval.power =
      c * 10 ^ (x.roundingInterval.power + 1) := by
    have hsucc : 10 ^ (x.roundingInterval.power + 1) =
        10 ^ x.roundingInterval.power * 10 := Nat.pow_succ ..
    rw [hc, hsucc]
    ring
  rw [hpow] at hcontains
  have hle := RoundingInterval.le_power (isProper_roundingInterval hx) hcontains
  omega

/-- A decimal that is rounded to the number has at least as many digits as the shortest one. -/
theorem coefficient_shortest_lt (hx : x.significand ≠ 0) (h : x.Covers (c * (10 : ℚ) ^ e))
    (hc : c < 10 ^ n) : x.shortest.coefficient < 10 ^ n := by
  by_contra hge
  -- else a power of ten lies between the two decimals, and so it is rounded to the number too
  have hexponent := exponent_le hx h
  have hpos : (0 : ℚ) < (10 : ℚ) ^ x.shortest.exponent := zpow_pos (by decide) _
  have hfrom : c * (10 : ℚ) ^ e ≤ (10 ^ n : ℕ) * (10 : ℚ) ^ x.shortest.exponent := by
    have hcoefficient : (c : ℚ) ≤ (10 ^ n : ℕ) := by exact_mod_cast hc.le
    have hpow : (10 : ℚ) ^ e ≤ (10 : ℚ) ^ x.shortest.exponent :=
      zpow_le_zpow_right₀ (by decide) hexponent
    exact mul_le_mul hcoefficient hpow (zpow_nonneg (by decide) _) (Nat.cast_nonneg _)
  have hto : (10 ^ n : ℕ) * (10 : ℚ) ^ x.shortest.exponent ≤ x.shortest.toRat := by
    have hcoefficient : ((10 ^ n : ℕ) : ℚ) ≤ x.shortest.coefficient := by
      exact_mod_cast Nat.not_lt.mp hge
    exact mul_le_mul_of_nonneg_right hcoefficient hpos.le
  have hpower := h.between (covers_shortest hx) hfrom hto
  have hone : x.Covers ((1 : ℕ) * (10 : ℚ) ^ (n + x.shortest.exponent)) := by
    have hten : (10 : ℚ) ≠ 0 := by decide
    rwa [Nat.cast_pow, Nat.cast_ofNat, ← zpow_natCast, ← zpow_add₀ hten,
      ← one_mul ((10 : ℚ) ^ _), ← Nat.cast_one] at hpower
  have hle := exponent_le hx hone
  obtain rfl : n = 0 := by omega
  obtain rfl : c = 0 := Nat.lt_one_iff.mp hc
  have hzero := h.pos hx
  rw [Nat.cast_zero, zero_mul] at hzero
  exact lt_irrefl _ hzero

end Shortest

end TextTemplate.Binary64
