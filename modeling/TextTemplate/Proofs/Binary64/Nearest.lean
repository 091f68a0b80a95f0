import Mathlib.Tactic.Linarith
import Mathlib.Tactic.Ring
import TextTemplate.Proofs.Binary64.Floor

/-!
# The nearest number

`RoundsTo q x` says that the rational `q` is rounded to `x`, to nearest with ties to even.  What is
rounded to a number other than zero makes up an interval around it, of which `Covers` gives the
ends: they are half way to the neighbours of the number (`roundsTo_iff_covers`).
-/

namespace TextTemplate.Binary64

/-! ### Rounding -/

/-- The values that a significand of 53 bits gives at any scale, of which there is no greatest
here. -/
def IsGridPoint (y : ℚ) : Prop :=
  ∃ (k : ℤ) (scale : ℕ), k.natAbs < 2 ^ 53 ∧
    y = k * ((2 ^ scale : ℕ) / quantaPerUnit : ℚ)

/-- `q` is rounded to `x`: nothing on the grid is nearer to `q`, and if another point of it is as
near, the significand of `x` is even.  The grid goes on beyond the greatest number, so that what is
as near to its next point is rounded to no number. -/
structure RoundsTo (q : ℚ) (x : Finite) : Prop where
  le_of_isGridPoint : ∀ y, IsGridPoint y → |q - x.toRat| ≤ |q - y|
  even_of_eq : ∀ y, IsGridPoint y → y ≠ x.toRat → |q - x.toRat| = |q - y| → Even x.significand

/-- A value with a sign. -/
def signed (negative : Bool) (q : ℚ) : ℚ := if negative then -q else q

namespace Finite

variable {x : Finite} {q : ℚ}

/-- The value of the last bit of the significand. -/
def lastBit (x : Finite) : ℚ := (2 ^ x.scale : ℕ) / quantaPerUnit

/-- Twice the distance to the lower neighbour in units of the last bit: at the foot of a scale it is
half as far as elsewhere. -/
def lowerGap (x : Finite) : ℕ := if x.significand = 2 ^ 52 ∧ x.scale ≠ 0 then 1 else 2

/-- The magnitude `q` is in the interval of those that are rounded to the magnitude of `x`: it is
not farther away than half way to the neighbours, and nearer for odd significands. -/
@[mk_iff]
structure Covers (x : Finite) (q : ℚ) : Prop where
  low : (4 * x.significand - x.lowerGap) * x.lastBit ≤ 4 * q
  high : 4 * q ≤ (4 * x.significand + 2) * x.lastBit
  strict : ¬ Even x.significand → (4 * x.significand - x.lowerGap) * x.lastBit < 4 * q ∧
    4 * q < (4 * x.significand + 2) * x.lastBit

theorem lastBit_pos (x : Finite) : 0 < x.lastBit := by
  have hpow : (0 : ℚ) < (2 ^ x.scale : ℕ) := by exact_mod_cast Nat.two_pow_pos x.scale
  have hunit : (0 : ℚ) < quantaPerUnit := by exact_mod_cast quantaPerUnit_pos
  exact div_pos hpow hunit

theorem toRat_eq_signed (x : Finite) : x.toRat = signed x.negative (x.significand * x.lastBit) := by
  unfold toRat quanta magnitude signed lastBit
  split
  · push_cast
    ring
  · push_cast
    ring

theorem toRat_neg_iff_negative (h : x.significand ≠ 0) : x.toRat < 0 ↔ x.negative := by
  have hmagnitude : 0 < x.significand * x.lastBit :=
    mul_pos (by exact_mod_cast Nat.pos_of_ne_zero h) x.lastBit_pos
  rw [toRat_eq_signed, signed]
  split
  · next hnegative => simpa [hnegative] using hmagnitude
  · next hnegative => simpa [hnegative] using hmagnitude.le

/-! ### Neighbours -/

theorem lowerGap_pos (x : Finite) : 0 < x.lowerGap := by
  unfold lowerGap
  split <;> omega

theorem lowerGap_le (x : Finite) : x.lowerGap ≤ 2 := by
  unfold lowerGap
  split <;> omega

/-- Above the least scale, the points of the finer grids are below the magnitude. -/
theorem add_lowerGap_le (h : x.scale ≠ 0) :
    2 ^ 53 - 1 + x.lowerGap ≤ 2 * x.significand := by
  have hleading : 2 ^ 52 ≤ x.significand := x.canonical.2.2.resolve_left h
  have hpow : 2 ^ 53 = 2 * 2 ^ 52 := rfl
  unfold lowerGap
  split
  · next hfoot => omega
  · next hfoot =>
    have hne : x.significand ≠ 2 ^ 52 := fun heq => hfoot ⟨heq, h⟩
    omega

/-- The next number above, or the point behind the greatest one. -/
theorem isGridPoint_above (x : Finite) : IsGridPoint ((x.significand + 1) * x.lastBit) := by
  have hlt : x.significand < 2 ^ 53 := x.canonical.1
  by_cases hlast : x.significand + 1 = 2 ^ 53
  · -- the next number begins a scale
    refine ⟨(2 ^ 52 : ℕ), x.scale + 1, by decide, ?_⟩
    have hpow : (x.significand + 1) * 2 ^ x.scale =
        2 ^ 52 * 2 ^ (x.scale + 1) := by
      rw [hlast, ← pow_add, ← pow_add]
      congr 1
      omega
    have hcast : (x.significand + 1 : ℚ) * (2 ^ x.scale : ℕ) =
        (2 ^ 52 : ℕ) * (2 ^ (x.scale + 1) : ℕ) := by exact_mod_cast hpow
    rw [lastBit, ← mul_div_assoc, hcast, Int.cast_natCast, mul_div_assoc]
  · refine ⟨(x.significand + 1 : ℕ), x.scale, by omega, ?_⟩
    rw [Int.cast_natCast, Nat.cast_succ, lastBit]

/-- The next number below. -/
theorem isGridPoint_below (h : x.significand ≠ 0) :
    IsGridPoint ((2 * x.significand - x.lowerGap) / 2 * x.lastBit) := by
  have hlt : x.significand < 2 ^ 53 := x.canonical.1
  unfold lowerGap lastBit
  split
  · next hfoot =>
    -- it ends the scale below
    obtain ⟨scale, hscale⟩ := Nat.exists_eq_succ_of_ne_zero hfoot.2
    refine ⟨(2 ^ 53 - 1 : ℕ), scale, by decide, ?_⟩
    have hpow : 2 ^ x.scale = 2 * 2 ^ scale := by
      rw [hscale]
      exact Nat.pow_succ'
    rw [hfoot.1, hpow]
    push_cast
    ring
  · refine ⟨(x.significand - 1 : ℕ), x.scale, by omega, ?_⟩
    have hpred : ((x.significand - 1 : ℕ) : ℚ) = x.significand - 1 := by
      rw [Nat.cast_sub (by omega), Nat.cast_one]
    rw [Int.cast_natCast, hpred]
    ring

/-- A point of the grid is the magnitude itself, or at least as far away as a neighbour. -/
theorem eq_or_le_or_le (x : Finite) {y : ℚ} (hy : IsGridPoint y) :
    y = x.significand * x.lastBit ∨ (x.significand + 1) * x.lastBit ≤ y ∨
      2 * y ≤ (2 * x.significand - x.lowerGap) * x.lastBit := by
  obtain ⟨k, scale, hk, rfl⟩ := hy
  have hgap := x.lowerGap_le
  rcases le_or_gt x.scale scale with hscale | hscale
  · -- a whole multiple of the last bit
    have hmultiple : (k : ℚ) * ((2 ^ scale : ℕ) / quantaPerUnit) =
        (k * (2 ^ (scale - x.scale) : ℕ) : ℤ) * x.lastBit := by
      have hpow : 2 ^ scale = 2 ^ (scale - x.scale) * 2 ^ x.scale :=
        (pow_sub_mul_pow 2 hscale).symm
      rw [hpow, lastBit]
      push_cast
      ring
    rw [hmultiple]
    generalize k * (2 ^ (scale - x.scale) : ℕ) = n
    rcases lt_trichotomy n x.significand with h | h | h
    · right; right
      have hle : (2 * n : ℚ) ≤ 2 * x.significand - x.lowerGap := by
        have h : 2 * n ≤ 2 * x.significand - x.lowerGap := by omega
        exact_mod_cast h
      rw [← mul_assoc]
      exact mul_le_mul_of_nonneg_right hle x.lastBit_pos.le
    · left
      rw [h, Int.cast_natCast]
    · right; left
      have hle : (x.significand + 1 : ℚ) ≤ n := by exact_mod_cast h
      exact mul_le_mul_of_nonneg_right hle x.lastBit_pos.le
  · -- a finer grid than that of the magnitude ends below it
    right; right
    have hunit : (0 : ℚ) < quantaPerUnit := by exact_mod_cast quantaPerUnit_pos
    have hfine : 2 * ((2 ^ scale : ℕ) / quantaPerUnit : ℚ) ≤ x.lastBit := by
      have hpow : 2 * 2 ^ scale ≤ 2 ^ x.scale := by
        rw [← pow_succ']
        exact Nat.pow_le_pow_right (by decide) hscale
      rw [lastBit, ← mul_div_assoc]
      exact div_le_div_of_nonneg_right (by exact_mod_cast hpow) hunit.le
    have hnonneg : 0 ≤ 2 * ((2 ^ scale : ℕ) / quantaPerUnit : ℚ) :=
      mul_nonneg zero_le_two (div_nonneg (Nat.cast_nonneg _) hunit.le)
    have hlast : (k : ℚ) ≤ (2 ^ 53 - 1 : ℕ) := by
      have h : k ≤ (2 ^ 53 - 1 : ℕ) := by omega
      have hcast : (k : ℚ) ≤ ((2 ^ 53 - 1 : ℕ) : ℤ) := Int.cast_le.mpr h
      rwa [Int.cast_natCast] at hcast
    have hsignificand : ((2 ^ 53 - 1 : ℕ) : ℚ) ≤ 2 * x.significand - x.lowerGap := by
      have h := add_lowerGap_le (x := x) (by omega)
      have hcast : ((2 ^ 53 - 1 : ℕ) + x.lowerGap : ℚ) ≤ 2 * x.significand := by
        exact_mod_cast h
      linarith
    calc 2 * (k * ((2 ^ scale : ℕ) / quantaPerUnit : ℚ))
        = k * (2 * ((2 ^ scale : ℕ) / quantaPerUnit)) := by ring
      _ ≤ (2 ^ 53 - 1 : ℕ) * (2 * ((2 ^ scale : ℕ) / quantaPerUnit)) :=
          mul_le_mul_of_nonneg_right hlast hnonneg
      _ ≤ (2 ^ 53 - 1 : ℕ) * x.lastBit :=
          mul_le_mul_of_nonneg_left hfine (Nat.cast_nonneg _)
      _ ≤ (2 * x.significand - x.lowerGap) * x.lastBit :=
          mul_le_mul_of_nonneg_right hsignificand x.lastBit_pos.le

/-- The magnitude is in its own interval. -/
theorem covers_self (x : Finite) : x.Covers (x.significand * x.lastBit) := by
  have hbit := x.lastBit_pos
  have hgap : 0 < x.lowerGap * x.lastBit := mul_pos (by exact_mod_cast x.lowerGap_pos) hbit
  exact ⟨by linarith, by linarith, fun _ => ⟨by linarith, by linarith⟩⟩

/-- What lies between two magnitudes of the interval is in it too. -/
theorem Covers.between {p r : ℚ} (hp : x.Covers p) (hr : x.Covers r) (hpq : p ≤ q) (hqr : q ≤ r) :
    x.Covers q := by
  refine ⟨by linarith [hp.low], by linarith [hr.high], fun hodd => ⟨?_, ?_⟩⟩
  · linarith [(hp.strict hodd).1]
  · linarith [(hr.strict hodd).2]

theorem Covers.pos (hx : x.significand ≠ 0) (h : x.Covers q) : 0 < q := by
  have hgap : (x.lowerGap : ℚ) ≤ 2 := by exact_mod_cast x.lowerGap_le
  have hone : (1 : ℚ) ≤ x.significand := by exact_mod_cast Nat.one_le_iff_ne_zero.mpr hx
  have hlow : 0 < (4 * x.significand - x.lowerGap) * x.lastBit :=
    mul_pos (by linarith) x.lastBit_pos
  linarith [h.low]

end Finite

/-! ### Distances -/

section Distances

variable {a b c : ℚ}

theorem abs_sub_le_iff_of_lt (h : b < c) : |a - b| ≤ |a - c| ↔ 2 * a ≤ b + c := by
  rw [← sq_le_sq]
  constructor
  · intro hle
    nlinarith
  · intro hle
    nlinarith

theorem abs_sub_le_iff_of_gt (h : c < b) : |a - b| ≤ |a - c| ↔ b + c ≤ 2 * a := by
  rw [← sq_le_sq]
  constructor
  · intro hle
    nlinarith
  · intro hle
    nlinarith

theorem abs_sub_eq_iff_of_ne (h : b ≠ c) : |a - b| = |a - c| ↔ 2 * a = b + c := by
  rw [abs_eq_abs]
  constructor
  · rintro (heq | heq)
    · exact absurd (by linarith) h
    · linarith
  · intro heq
    right
    linarith

end Distances

/-! ### Signs -/

section Signs

variable (negative : Bool) (q r : ℚ)

theorem signed_signed : signed negative (signed negative q) = q := by
  cases negative
  · rfl
  · exact neg_neg q

theorem abs_sub_signed : |q - signed negative r| = |signed negative q - r| := by
  cases negative
  · rfl
  · show |q - -r| = |-q - r|
    rw [← abs_neg]
    congr 1
    ring

theorem IsGridPoint.signed {y : ℚ} (h : IsGridPoint y) : IsGridPoint (signed negative y) := by
  cases negative
  · exact h
  · obtain ⟨k, scale, hk, rfl⟩ := h
    refine ⟨-k, scale, by omega, ?_⟩
    rw [Int.cast_neg, neg_mul]
    rfl

end Signs

/-! ### The interval of a number -/

section Covers

variable {x : Finite} {q : ℚ}

/-- Rounding to a number is rounding to its magnitude from the side of its sign. -/
theorem roundsTo_iff_signed :
    RoundsTo q x ↔
      (∀ y, IsGridPoint y →
        |signed x.negative q - x.significand * x.lastBit| ≤ |signed x.negative q - y|) ∧
      ∀ y, IsGridPoint y → y ≠ x.significand * x.lastBit →
        |signed x.negative q - x.significand * x.lastBit| = |signed x.negative q - y| →
          Even x.significand := by
  have hself : |q - x.toRat| = |signed x.negative q - x.significand * x.lastBit| := by
    rw [x.toRat_eq_signed, abs_sub_signed]
  have hpoint : ∀ y, |q - y| = |signed x.negative q - signed x.negative y| := by
    intro y
    rw [← abs_sub_signed, signed_signed]
  constructor
  · intro h
    constructor
    · intro y hy
      rw [← hself, ← abs_sub_signed]
      exact h.le_of_isGridPoint _ (hy.signed _)
    · intro y hy hne heq
      rw [← hself, ← abs_sub_signed] at heq
      refine h.even_of_eq _ (hy.signed _) (fun hsame => hne ?_) heq
      rw [x.toRat_eq_signed] at hsame
      rw [← signed_signed x.negative y, hsame, signed_signed]
  · rintro ⟨hle, heven⟩
    constructor
    · intro y hy
      rw [hself, hpoint]
      exact hle _ (hy.signed _)
    · intro y hy hne heq
      rw [hself, hpoint] at heq
      refine heven _ (hy.signed _) (fun hsame => hne ?_) heq
      rw [x.toRat_eq_signed, ← hsame, signed_signed]

/-- What is rounded to a number other than zero is what its interval covers. -/
theorem roundsTo_iff_covers (hx : x.significand ≠ 0) :
    RoundsTo q x ↔ x.Covers (signed x.negative q) := by
  have hunit := x.lastBit_pos
  have hgap : (0 : ℚ) < x.lowerGap := by exact_mod_cast x.lowerGap_pos
  -- the neighbours and their distances
  have hlow : (2 * x.significand - x.lowerGap) / 2 * x.lastBit < x.significand * x.lastBit :=
    mul_lt_mul_of_pos_right (by linarith) hunit
  have hhigh : x.significand * x.lastBit < (x.significand + 1) * x.lastBit :=
    mul_lt_mul_of_pos_right (by linarith) hunit
  rw [roundsTo_iff_signed]
  generalize signed x.negative q = r
  constructor
  · rintro ⟨hle, heven⟩
    have hbelow := (abs_sub_le_iff_of_gt hlow).mp (hle _ (Finite.isGridPoint_below hx))
    have habove := (abs_sub_le_iff_of_lt hhigh).mp (hle _ x.isGridPoint_above)
    refine ⟨by linarith, by linarith, fun hodd => ⟨?_, ?_⟩⟩
    · refine lt_of_le_of_ne (by linarith) fun heq => hodd ?_
      refine heven _ (Finite.isGridPoint_below hx) hlow.ne ?_
      rw [abs_sub_eq_iff_of_ne hlow.ne']
      linarith
    · refine lt_of_le_of_ne (by linarith) fun heq => hodd ?_
      refine heven _ x.isGridPoint_above hhigh.ne' ?_
      rw [abs_sub_eq_iff_of_ne hhigh.ne]
      linarith
  · rintro ⟨hfrom, hto, hstrict⟩
    constructor
    · intro y hy
      rcases x.eq_or_le_or_le hy with rfl | hy | hy
      · exact le_rfl
      · rw [abs_sub_le_iff_of_lt (by linarith)]
        linarith
      · rw [abs_sub_le_iff_of_gt (by linarith)]
        linarith
    · intro y hy hne heq
      -- at equal distance from another point lie only the ends of the interval
      rw [abs_sub_eq_iff_of_ne hne.symm] at heq
      by_contra hodd
      obtain ⟨hfrom, hto⟩ := hstrict hodd
      rcases x.eq_or_le_or_le hy with h | h | h
      · exact hne h
      · linarith
      · linarith

end Covers

/-! ### Fractions -/

section Fractions

variable {x : Finite} {num den : ℕ}

theorem mul_lastBit_lt_iff (hden : 0 < den) (c : ℚ) :
    c * x.lastBit < 4 * (num / den) ↔
      c * ((2 ^ x.scale : ℕ) * den) < 4 * (num * quantaPerUnit) := by
  have hunit : (0 : ℚ) < quantaPerUnit := by exact_mod_cast Finite.quantaPerUnit_pos
  have hden' : (0 : ℚ) < den := by exact_mod_cast hden
  rw [Finite.lastBit, ← mul_div_assoc, ← mul_div_assoc, div_lt_div_iff₀ hunit hden', mul_assoc,
    mul_assoc]

theorem lt_mul_lastBit_iff (hden : 0 < den) (c : ℚ) :
    4 * (num / den) < c * x.lastBit ↔
      4 * (num * quantaPerUnit) < c * ((2 ^ x.scale : ℕ) * den) := by
  have hunit : (0 : ℚ) < quantaPerUnit := by exact_mod_cast Finite.quantaPerUnit_pos
  have hden' : (0 : ℚ) < den := by exact_mod_cast hden
  rw [Finite.lastBit, ← mul_div_assoc, ← mul_div_assoc, div_lt_div_iff₀ hden' hunit, mul_assoc,
    mul_assoc]

/-- A fraction is compared with the ends of an interval by whole numbers. -/
theorem covers_div_iff (hden : 0 < den) :
    x.Covers (num / den) ↔
      4 * x.significand * (2 ^ x.scale * den) ≤
          4 * (num * quantaPerUnit) + x.lowerGap * (2 ^ x.scale * den) ∧
        4 * (num * quantaPerUnit) ≤ (4 * x.significand + 2) * (2 ^ x.scale * den) ∧
        (¬ Even x.significand →
          4 * x.significand * (2 ^ x.scale * den) <
              4 * (num * quantaPerUnit) + x.lowerGap * (2 ^ x.scale * den) ∧
            4 * (num * quantaPerUnit) < (4 * x.significand + 2) * (2 ^ x.scale * den)) := by
  rw [Finite.covers_iff]
  refine and_congr ?_ (and_congr ?_ (imp_congr_right fun _ => and_congr ?_ ?_))
  · rw [← not_lt, lt_mul_lastBit_iff hden, not_lt, sub_mul, sub_le_iff_le_add]
    exact_mod_cast Iff.rfl
  · rw [← not_lt, mul_lastBit_lt_iff hden, not_lt]
    exact_mod_cast Iff.rfl
  · rw [mul_lastBit_lt_iff hden, sub_mul, sub_lt_iff_lt_add]
    exact_mod_cast Iff.rfl
  · rw [lt_mul_lastBit_iff hden]
    exact_mod_cast Iff.rfl

end Fractions

end TextTemplate.Binary64
