import TextTemplate.Binary64.Rounding
import TextTemplate.Proofs.Binary64.Nearest

/-!
# Rounding a fraction

The number that is made of a fraction is the one to which it is rounded (`ofRatio_eq_of_roundsTo`),
and so is the number that is made of a decimal (`ofDecimal_eq_of_roundsTo`).  A count of up to 53
bits needs no rounding (`exists_ofNat_eq`).
-/

namespace TextTemplate

/-- The value of a decimal. -/
def Decimal.toRat (d : Decimal) : ℚ := d.coefficient * (10 : ℚ) ^ d.exponent

namespace Binary64

open Binary64.Finite

/-- A quotient that is not farther than a half from a number, and nearer to an odd one, is rounded
to it. -/
theorem divRoundEven_eq {num den n : ℕ} (hlow : 2 * (n * den) ≤ 2 * num + den)
    (hhigh : 2 * num ≤ 2 * (n * den) + den)
    (hstrict : ¬ Even n → 2 * (n * den) < 2 * num + den ∧ 2 * num < 2 * (n * den) + den)
    (hden : 0 < den) : divRoundEven num den = n := by
  have hdivision : num = num / den * den + num % den := (Nat.div_add_mod' num den).symm
  have hrest : num % den < den := Nat.mod_lt _ hden
  simp only [divRoundEven]
  generalize num / den = q at *
  generalize num % den = r at *
  subst hdivision
  have hge : n < q + 2 := by
    by_contra h
    have hle : (q + 2) * den ≤ n * den := Nat.mul_le_mul_right _ (by omega)
    rw [Nat.add_mul] at hle
    omega
  have hle : q ≤ n := by
    by_contra h
    have hle : (n + 1) * den ≤ q * den := Nat.mul_le_mul_right _ (by omega)
    rw [Nat.add_mul] at hle
    omega
  obtain rfl | rfl : n = q ∨ n = q + 1 := by omega
  · rw [if_pos]
    by_cases heven : Even n
    · have := Nat.even_iff.mp heven
      omega
    · have := hstrict heven
      omega
  · rw [if_neg]
    rw [Nat.add_mul] at *
    by_cases heven : Even (q + 1)
    · have := Nat.even_iff.mp heven
      omega
    · have := hstrict heven
      omega

/-! ### Fractions -/

section Fractions

variable {x : Finite} {num den : ℕ}

theorem ofScaled_self (x : Finite) : ofScaled x.negative x.significand x.scale = .finite x :=
  dif_pos x.canonical

/-- The scale at which a quotient has 53 bits, or fewer at the least scale. -/
theorem log2_sub_eq {quotient scale : ℕ}
    (hlow : scale ≠ 0 → 2 ^ 52 * 2 ^ scale ≤ quotient)
    (hhigh : quotient < 2 ^ 53 * 2 ^ scale) : quotient.log2 - 52 = scale := by
  rw [← pow_add] at hlow hhigh
  by_cases hscale : scale = 0
  · rw [hscale] at hhigh ⊢
    by_cases hzero : quotient = 0
    · rw [hzero]
      rfl
    · have hlog : quotient.log2 < 53 := (Nat.log2_lt hzero).mpr hhigh
      omega
  · have hne : quotient ≠ 0 := ((Nat.two_pow_pos _).trans_le (hlow hscale)).ne'
    have hlog : quotient.log2 = 52 + scale :=
      (Nat.log2_eq_iff hne).mpr ⟨hlow hscale, by rwa [Nat.add_right_comm]⟩
    omega

/-- A fraction at or above the foot of the scale is rounded at the scale of the number. -/
theorem ofRatio_eq_of_foot_le (hden : 0 < den) (h : x.Covers (num / den))
    (hfoot : x.scale ≠ 0 →
      2 ^ 52 * (2 ^ x.scale * den) ≤ num * quantaPerUnit) :
    ofRatio x.negative num den = .finite x := by
  obtain ⟨hlow, hhigh, hstrict⟩ := (covers_div_iff hden).mp h
  have hpos : 0 < 2 ^ x.scale * den := Nat.mul_pos (Nat.two_pow_pos _) hden
  have hgap : x.lowerGap * (2 ^ x.scale * den) ≤ 2 * (2 ^ x.scale * den) :=
    Nat.mul_le_mul_right _ x.lowerGap_le
  have hscale : (num * quantaPerUnit / den).log2 - 52 = x.scale := by
    have hsignificand : (x.significand + 1) * (2 ^ x.scale * den) ≤
        2 ^ 53 * (2 ^ x.scale * den) := Nat.mul_le_mul_right _ x.canonical.1
    apply log2_sub_eq
    · intro hne
      rw [Nat.le_div_iff_mul_le hden, Nat.mul_assoc]
      exact hfoot hne
    · rw [Nat.div_lt_iff_lt_mul hden, Nat.mul_assoc]
      rw [Nat.add_mul] at hsignificand
      rw [Nat.add_mul, Nat.mul_assoc] at hhigh
      omega
  have hround : divRoundEven (num * quantaPerUnit) (den * 2 ^ x.scale) = x.significand := by
    rw [Nat.mul_comm den]
    rw [Nat.add_mul, Nat.mul_assoc] at hhigh hstrict
    rw [Nat.mul_assoc] at hlow
    refine divRoundEven_eq (by omega) (by omega) (fun hodd => ?_) hpos
    have := hstrict hodd
    omega
  have hlt : x.significand ≠ 2 ^ 53 := x.canonical.1.ne
  simp only [ofRatio, hscale, hround]
  rw [if_neg hlt, ofScaled_self]

/-- A fraction below the foot of the scale is rounded up to it at the scale below. -/
theorem ofRatio_eq_of_lt_foot (hden : 0 < den) (h : x.Covers (num / den)) (hne : x.scale ≠ 0)
    (hfoot : num * quantaPerUnit < 2 ^ 52 * (2 ^ x.scale * den)) :
    ofRatio x.negative num den = .finite x := by
  obtain ⟨hlow, -, -⟩ := (covers_div_iff hden).mp h
  have hpos : 0 < 2 ^ x.scale * den := Nat.mul_pos (Nat.two_pow_pos _) hden
  have hleading : 2 ^ 52 ≤ x.significand := x.canonical.2.2.resolve_left hne
  have hgap : x.lowerGap * (2 ^ x.scale * den) ≤ 2 * (2 ^ x.scale * den) :=
    Nat.mul_le_mul_right _ x.lowerGap_le
  rw [Nat.mul_assoc] at hlow
  have hsignificand : x.significand = 2 ^ 52 := by
    by_contra hlt
    have hle : (2 ^ 52 + 1) * (2 ^ x.scale * den) ≤
        x.significand * (2 ^ x.scale * den) := Nat.mul_le_mul_right _ (by omega)
    rw [Nat.add_mul] at hle
    omega
  have hone : x.lowerGap = 1 := if_pos ⟨hsignificand, hne⟩
  rw [hone, hsignificand] at hlow
  obtain ⟨scale, hscale⟩ := Nat.exists_eq_succ_of_ne_zero hne
  have hpow : 2 ^ x.scale * den = 2 * (2 ^ scale * den) := by
    rw [hscale, ← Nat.mul_assoc]
    congr 1
    exact Nat.pow_succ'
  rw [hpow, Nat.mul_left_comm (2 ^ 52)] at hlow hfoot
  rw [hpow] at hpos
  have hdouble : 2 ^ 53 * (2 ^ scale * den) =
      2 * (2 ^ 52 * (2 ^ scale * den)) := by
    rw [← Nat.mul_assoc 2, ← pow_succ']
  have hlog : (num * quantaPerUnit / den).log2 - 52 = scale := by
    apply log2_sub_eq
    · intro _
      have hle : 2 ^ scale * den ≤ 2 ^ 52 * (2 ^ scale * den) :=
        Nat.le_mul_of_pos_left _ (by decide)
      rw [Nat.le_div_iff_mul_le hden, Nat.mul_assoc]
      omega
    · rw [Nat.div_lt_iff_lt_mul hden, Nat.mul_assoc]
      omega
  have hround : divRoundEven (num * quantaPerUnit) (den * 2 ^ scale) = 2 ^ 53 := by
    rw [Nat.mul_comm den]
    exact divRoundEven_eq (by omega) (by omega) (fun hodd => absurd (by decide) hodd) (by omega)
  simp only [ofRatio, hlog, hround, if_true]
  rw [← hsignificand, ← Nat.succ_eq_add_one, ← hscale, ofScaled_self]

/-- The number made of a fraction that the interval of a number covers is this number. -/
theorem ofRatio_eq_of_covers (hden : 0 < den) (h : x.Covers (num / den)) :
    ofRatio x.negative num den = .finite x := by
  by_cases hfoot : x.scale ≠ 0 →
      2 ^ 52 * (2 ^ x.scale * den) ≤ num * quantaPerUnit
  · exact ofRatio_eq_of_foot_le hden h hfoot
  · push Not at hfoot
    exact ofRatio_eq_of_lt_foot hden h hfoot.1 hfoot.2

/-- The number made of a fraction is the one to which the fraction is rounded. -/
theorem ofRatio_eq_of_roundsTo (hden : 0 < den) (hx : x.significand ≠ 0)
    (h : RoundsTo (signed x.negative (num / den)) x) :
    ofRatio x.negative num den = .finite x := by
  rw [roundsTo_iff_covers hx, signed_signed] at h
  exact ofRatio_eq_of_covers hden h

end Fractions

/-! ### Counts -/

/-- A count that is a number is made exactly this number. -/
theorem ofNat_eq_of_toRat_eq {x : Finite} {n : ℕ} (hx : x.negative = false) (h : x.toRat = n) :
    ofNat n = .finite x := by
  have hmagnitude : x.significand * x.lastBit = (n : ℚ) / (1 : ℕ) := by
    rw [Nat.cast_one, div_one, ← h, toRat_eq_signed, hx]
    rfl
  have hcovers := x.covers_self
  rw [hmagnitude] at hcovers
  rw [ofNat, ← hx]
  exact ofRatio_eq_of_covers Nat.one_pos hcovers

/-- A count of up to 53 bits is exact. -/
theorem exists_ofNat_eq {n : ℕ} (h : n < 2 ^ 53) :
    ∃ x : Finite, ofNat n = .finite x ∧ x.toRat = n := by
  have hunit : (quantaPerUnit : ℚ) ≠ 0 := by exact_mod_cast quantaPerUnit_pos.ne'
  have hvalue : (ofWhole false n h).toRat = n := by
    rw [toRat, quanta, negative_ofWhole, magnitude_ofWhole]
    push_cast
    exact mul_div_cancel_right₀ _ hunit
  exact ⟨_, ofNat_eq_of_toRat_eq (negative_ofWhole false h) hvalue, hvalue⟩

/-! ### Decimals -/

/-- The number made of a decimal is the one to which the decimal is rounded. -/
theorem ofDecimal_eq_of_roundsTo {x : Finite} {d : Decimal} (hx : x.significand ≠ 0)
    (h : RoundsTo (signed x.negative d.toRat) x) : ofDecimal x.negative d = .finite x := by
  obtain ⟨coefficient, exponent⟩ := d
  cases exponent with
  | ofNat n =>
    have hvalue : (Decimal.mk coefficient (.ofNat n)).toRat =
        (coefficient * 10 ^ n : ℕ) / (1 : ℕ) := by
      rw [Decimal.toRat, Int.ofNat_eq_natCast, zpow_natCast, Nat.cast_mul, Nat.cast_pow,
        Nat.cast_ofNat, Nat.cast_one, div_one]
    rw [hvalue] at h
    exact ofRatio_eq_of_roundsTo Nat.one_pos hx h
  | negSucc n =>
    have hvalue : (Decimal.mk coefficient (.negSucc n)).toRat =
        coefficient / (10 ^ (n + 1) : ℕ) := by
      rw [Decimal.toRat, zpow_negSucc, Nat.cast_pow, Nat.cast_ofNat, div_eq_mul_inv]
    rw [hvalue] at h
    exact ofRatio_eq_of_roundsTo (Nat.pow_pos (by decide)) hx h

end Binary64

end TextTemplate
