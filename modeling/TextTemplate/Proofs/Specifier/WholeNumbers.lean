import TextTemplate.Proofs.Decimal.Shortest
import TextTemplate.Proofs.Specifier.IntegerKinds

/-!
# Whole numbers

The shortest decimal of a whole number of at most `2 ^ 53` in magnitude is the number itself
(`text_eq_integerText`), for no other whole number is in its interval that ends in a zero.  So a
number of this kind is written alike as a decimal integer and in its default text
(`apply_of_whole`).
-/

namespace TextTemplate

namespace Binary64.Finite

variable {x : Finite} {n c : ℕ}

/-! ### The neighbourhood of a whole number -/

theorem significand_ne_zero (h : x.magnitude = n * quantaPerUnit) (hzero : n ≠ 0) :
    x.significand ≠ 0 := by
  intro hsignificand
  rw [magnitude, hsignificand, Nat.zero_mul] at h
  exact Nat.mul_ne_zero hzero quantaPerUnit_pos.ne' h.symm

theorem value_roundingInterval_of_whole (h : x.magnitude = n * quantaPerUnit) :
    x.roundingInterval.value = n * unitsPerOne := by
  rw [roundingInterval_eq, unitsPerOne_eq]
  calc 4 * x.significand * (2 ^ x.scale * unitsPerQuarter)
      = 4 * x.magnitude * unitsPerQuarter := by
        rw [magnitude]
        ring
    _ = n * (4 * (quantaPerUnit * unitsPerQuarter)) := by
        rw [h]
        ring

/-- Up to `2 ^ 53` the last bit of a whole number is at most a one, but for `2 ^ 53` itself, of
which it is a two. -/
theorem last_bit_cases (h : x.magnitude = n * quantaPerUnit) (hn : n ≤ 2 ^ 53) :
    2 ^ x.scale ≤ quantaPerUnit ∨
      2 ^ x.scale = 2 * quantaPerUnit ∧ n = 2 ^ 53 ∧ x.lowerGap = 1 := by
  obtain ⟨k, hk⟩ : ∃ k, k = 1074 := ⟨_, rfl⟩
  have hunit := quantaPerUnit_pos
  rcases Nat.lt_or_ge k x.scale with hscale | hscale
  · right
    have hne : x.scale ≠ 0 := by omega
    have hleading : 2 ^ 52 ≤ x.significand := x.canonical.2.2.resolve_left hne
    have hge : 2 * quantaPerUnit ≤ 2 ^ x.scale := by
      rw [← pow_two_eq_quantaPerUnit hk]
      rw [← pow_succ']
      exact Nat.pow_le_pow_right (by decide) hscale
    have hle : 2 ^ x.scale ≤ 2 * quantaPerUnit := by
      refine Nat.le_of_mul_le_mul_left (?_ : 2 ^ 52 * _ ≤ 2 ^ 52 * _) (by decide)
      calc 2 ^ 52 * 2 ^ x.scale ≤ x.magnitude := Nat.mul_le_mul_right _ hleading
        _ ≤ 2 ^ 53 * quantaPerUnit := by
          rw [h]
          exact Nat.mul_le_mul_right _ hn
        _ = 2 ^ 52 * (2 * quantaPerUnit) := by
          rw [← Nat.mul_assoc, ← pow_succ]
    have hunits : 2 ^ x.scale = 2 * quantaPerUnit := Nat.le_antisymm hle hge
    have hdouble : 2 * x.significand = n := by
      refine Nat.eq_of_mul_eq_mul_right hunit ?_
      rw [← h, magnitude, hunits]
      ring
    have hpow : 2 ^ 53 = 2 * 2 ^ 52 := rfl
    have hsignificand : x.significand = 2 ^ 52 := by omega
    exact ⟨hunits, by omega, if_pos ⟨hsignificand, hne⟩⟩
  · left
    rw [← pow_two_eq_quantaPerUnit hk]
    exact Nat.pow_le_pow_right (by decide) hscale

/-- A whole number that is rounded to a whole number up to `2 ^ 53` is this number, or the next one
after `2 ^ 53`. -/
theorem eq_or_eq_of_covers (h : x.magnitude = n * quantaPerUnit) (hn : n ≤ 2 ^ 53)
    (hc : x.Covers (c / (1 : ℕ))) : c = n ∨ n = 2 ^ 53 ∧ c = n + 1 := by
  obtain ⟨hlow, hhigh, -⟩ := (covers_div_iff Nat.one_pos).mp hc
  have hunit := quantaPerUnit_pos
  have hmagnitude : x.significand * 2 ^ x.scale = n * quantaPerUnit := h
  rw [Nat.mul_one, Nat.mul_assoc, hmagnitude] at hlow
  rw [Nat.mul_one, Nat.add_mul, Nat.mul_assoc, hmagnitude] at hhigh
  have hcancel : ∀ {a b k : ℕ}, 4 * (a * quantaPerUnit) ≤ 4 * (b * quantaPerUnit) +
      k * quantaPerUnit → 4 * a ≤ 4 * b + k := by
    intro a b k hle
    apply Nat.le_of_mul_le_mul_right _ hunit
    rwa [Nat.add_mul, Nat.mul_assoc, Nat.mul_assoc]
  rcases last_bit_cases h hn with hlast | ⟨hlast, hn, hgap⟩
  · have hgap : x.lowerGap * 2 ^ x.scale ≤ 2 * quantaPerUnit :=
      Nat.mul_le_mul x.lowerGap_le hlast
    have hle : 4 * n ≤ 4 * c + 2 := hcancel (by omega)
    have hge : 4 * c ≤ 4 * n + 2 := hcancel (by omega)
    omega
  · rw [hlast, hgap] at hlow
    rw [hlast] at hhigh
    have hle : 4 * n ≤ 4 * c + 2 := hcancel (by omega)
    have hge : 4 * c ≤ 4 * n + 4 := hcancel (by omega)
    omega

/-! ### The text of a whole number -/

/-- The shortest decimal of a whole number up to `2 ^ 53` is this number. -/
theorem shortest_of_whole (h : x.magnitude = n * quantaPerUnit) (hzero : n ≠ 0)
    (hn : n ≤ 2 ^ 53) :
    ∃ zeros : ℕ, x.shortest.exponent = zeros ∧ n = x.shortest.coefficient * 10 ^ zeros := by
  have hsignificand := significand_ne_zero h hzero
  have hunits : (unitsPerOne : ℚ) ≠ 0 := by exact_mod_cast unitsPerOne_pos.ne'
  have hi := isProper_roundingInterval hsignificand
  have hvalue := value_roundingInterval_of_whole h
  obtain ⟨k, hk⟩ : ∃ k, k = 1076 := ⟨_, rfl⟩
  rw [← pow_ten_eq_unitsPerOne hk] at hvalue
  -- the number itself is a multiple of the power of ten that stands for one
  have hself : x.roundingInterval.Contains (n * 10 ^ k) := by
    rw [← hvalue]
    exact ⟨hi.low_le, hi.le_high⟩
  obtain ⟨zeros, hpower⟩ := Nat.exists_eq_add_of_le (RoundingInterval.le_power hi hself)
  refine ⟨zeros, ?_, ?_⟩
  · show (x.roundingInterval.power : ℤ) - 1076 = zeros
    omega
  have hpow : 10 ^ x.roundingInterval.power = 10 ^ zeros * 10 ^ k := by
    rw [hpower, Nat.add_comm]
    exact Nat.pow_add ..
  obtain ⟨c, hc⟩ : ∃ c, n = c * 10 ^ zeros := by
    obtain ⟨c, hc⟩ := RoundingInterval.exists_contains_power hi
    rw [hpow, ← Nat.mul_assoc, pow_ten_eq_unitsPerOne hk, ← covers_iff_contains, Nat.cast_mul,
      mul_div_cancel_right₀ _ hunits, ← div_one ((c * 10 ^ zeros : ℕ) : ℚ),
      ← Nat.cast_one] at hc
    rcases eq_or_eq_of_covers h hn hc with heq | ⟨hlast, heq⟩
    · exact ⟨c, heq.symm⟩
    · cases zeros with
      | zero => exact ⟨n, (Nat.mul_one n).symm⟩
      | succ zeros =>
        -- the next number after `2 ^ 53` does not end in a zero
        have hsucc : 10 ^ (zeros + 1) = 10 ^ zeros * 10 := Nat.pow_succ ..
        have hlast : n = 9007199254740992 := hlast
        rw [hsucc, ← Nat.mul_assoc] at heq
        omega
  have hnearest : x.shortest.coefficient = c := by
    refine RoundingInterval.nearest_of_eq_mul hi (Nat.pow_pos (by decide)) ?_
    rw [hvalue, hc, Nat.mul_assoc, ← hpow]
    rfl
  rw [hnearest, hc]

theorem positional_shortest_of_whole (h : x.magnitude = n * quantaPerUnit) (hzero : n ≠ 0)
    (hn : n ≤ 2 ^ 53) : x.shortest.positional = Nat.toDigits 10 n := by
  obtain ⟨zeros, hexponent, hvalue⟩ := shortest_of_whole h hzero hn
  have hcoefficient : x.shortest.coefficient ≠ 0 := by
    intro hnone
    rw [hnone, Nat.zero_mul] at hvalue
    exact hzero hvalue
  rw [Decimal.positional, hexponent, hvalue, Numeral.toDigits_mul_pow hcoefficient]

theorem quanta_of_toRat_eq {n : ℤ} (h : x.toRat = n) : x.quanta = n * quantaPerUnit := by
  have hunit : (quantaPerUnit : ℚ) ≠ 0 := by exact_mod_cast quantaPerUnit_pos.ne'
  rw [toRat, div_eq_iff hunit] at h
  exact_mod_cast h

theorem magnitude_eq_natAbs_quanta (x : Finite) : x.magnitude = x.quanta.natAbs := by
  rw [quanta]
  split <;> omega

/-- The default text of a whole number up to `2 ^ 53` in magnitude is its numeral. -/
theorem text_eq_integerText {n : ℤ} (h : x.toRat = n) (hn : n.natAbs ≤ 2 ^ 53) :
    x.text = integerText 10 n := by
  have hmagnitude : x.magnitude = n.natAbs * quantaPerUnit := by
    rw [magnitude_eq_natAbs_quanta, quanta_of_toRat_eq h, Int.natAbs_mul, Int.natAbs_natCast]
  by_cases hzero : x.significand = 0
  · have hn : n = 0 := by
      rw [toRat_eq_zero_iff.mpr hzero] at h
      exact_mod_cast h.symm
    rw [text, if_pos hzero, hn]
    rfl
  · have hne : n ≠ 0 := by
      rintro rfl
      exact hzero (toRat_eq_zero_iff.mp (by rw [h, Int.cast_zero]))
    have hnegative : x.negative ↔ n < 0 := by
      rw [← toRat_neg_iff_negative hzero, h]
      exact_mod_cast Iff.rfl
    rw [text, if_neg hzero, positional_shortest_of_whole hmagnitude (by omega) hn, integerText]
    exact if_congr hnegative rfl rfl

end Binary64.Finite

namespace Specifier

open Binary64

/-- A whole number up to `2 ^ 53` in magnitude is written alike as a decimal integer, as a fixed
number and in its default text, whatever else is asked for. -/
theorem apply_of_whole {x : Finite} {n : ℤ} (h : x.toRat = n) (hn : n.natAbs ≤ 2 ^ 53)
    (flags : Flags) (width precision : Option ℕ) :
    apply ⟨flags, width, precision, .decimal⟩ (.finite x) =
        apply ⟨flags, width, precision, .fixed⟩ (.finite x) ∧
      apply ⟨flags, width, precision, .fixed⟩ (.finite x) =
        apply ⟨flags, width, precision, .general⟩ (.finite x) ∧
      formatNumber (.finite x) (some ['d']) = formatNumber (.finite x) none := by
  have hfloor : x.floor = n := by rw [← Finite.floor_toRat, h, Int.floor_intCast]
  have hlimit : 2 ^ 53 < integralLimit := by decide
  have htext : x.floorText 10 = x.text := by
    rw [Finite.floorText, if_pos (by rw [hfloor]; omega), hfloor, Finite.text_eq_integerText h hn]
  have hdecimal : ∀ flags width precision,
      apply ⟨flags, width, precision, .decimal⟩ (.finite x) =
        apply ⟨flags, width, precision, .general⟩ (.finite x) := by
    intro flags width precision
    simp only [apply, signed, body, htext]
    rfl
  refine ⟨hdecimal flags width precision, rfl, ?_⟩
  exact (hdecimal {} none none).trans (apply_default (.finite x))

/-- At `-2 ^ 53`, with a sign, zeros in front and behind the point. -/
theorem apply_of_least_whole :
    let x : Finite := ⟨true, 2 ^ 52, 1075, by decide⟩
    let n : ℤ := -9007199254740992
    x.toRat = n ∧ n.natAbs ≤ 2 ^ 53 ∧
      apply ⟨{ plus := true, zero := true }, some 24, some 2, .decimal⟩ (.finite x) =
        apply ⟨{ plus := true, zero := true }, some 24, some 2, .fixed⟩ (.finite x) ∧
      formatNumber (.finite x) (some ['d']) = formatNumber (.finite x) none := by
  have hquanta : Finite.quanta ⟨true, 2 ^ 52, 1075, by decide⟩ =
      -9007199254740992 * quantaPerUnit := by decide +kernel
  have hvalue : Finite.toRat ⟨true, 2 ^ 52, 1075, by decide⟩ =
      ((-9007199254740992 : ℤ) : ℚ) := by
    have hunit : (quantaPerUnit : ℚ) ≠ 0 := by exact_mod_cast Finite.quantaPerUnit_pos.ne'
    rw [Finite.toRat, div_eq_iff hunit, hquanta, Int.cast_mul, Int.cast_natCast]
  have h := apply_of_whole hvalue (by decide) { plus := true, zero := true } (some 24) (some 2)
  exact ⟨hvalue, by decide, h.1, h.2.2⟩

/-- Above `2 ^ 54` there are whole numbers of which a shorter decimal reads back. -/
example : formatNumber (.finite ⟨false, 4503599627370498, 1076, by decide⟩) (some ['d']) ≠
    formatNumber (.finite ⟨false, 4503599627370498, 1076, by decide⟩) none := by decide +kernel

end Specifier

end TextTemplate
