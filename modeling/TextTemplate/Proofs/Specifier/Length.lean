import Mathlib.Data.Nat.Digits.Defs
import TextTemplate.Proofs.Decimal.Shortest
import TextTemplate.Proofs.Specifier.Characters
import TextTemplate.Proofs.Specifier.Grammar
import TextTemplate.Proofs.Specifier.Padding

/-!
# How long the text of a number is

No number has more than 4096 characters under a kind alone (`Specifier.Kind.length_body_alone_le`):
its shortest decimal has no more digits than the interval it is searched in can call for, and a
floor below the limit has at most 127 of any radix.  A specifier makes this longer by
`maxPadding + 2` characters at most, whatever digits its width and precision are read from
(`length_formatNumber_le`).
-/

namespace TextTemplate

/-! ### Decimals -/

namespace Decimal

theorem length_withPlaces (coefficient places : ℕ) :
    (withPlaces coefficient places).length =
      max (places + 1) (Nat.toDigits 10 coefficient).length + 1 := by
  simp only [withPlaces, List.length_append, List.length_cons, List.length_take, List.length_drop,
    List.length_replicate]
  omega

/-- A text is not longer than its digits and the places between their end and the point. -/
theorem length_positional_le {d : Decimal} {digits places : ℕ} (hdigits : 0 < digits)
    (hcoefficient : d.coefficient < 10 ^ digits) (hexponent : d.exponent.natAbs ≤ places) :
    d.positional.length ≤ digits + places + 1 := by
  have hlength : (Nat.toDigits 10 d.coefficient).length ≤ digits :=
    Nat.toDigits_length _ _ _ hdigits hcoefficient
  unfold positional
  split
  · next zeros hzeros =>
    rw [hzeros, Int.natAbs_ofNat'] at hexponent
    rw [List.length_append, List.length_replicate]
    omega
  · next behind hbehind =>
    rw [hbehind, Int.natAbs_negSucc] at hexponent
    rw [length_withPlaces]
    omega

end Decimal

/-! ### The default text -/

namespace Binary64

theorem RoundingInterval.coarsest_le (i : RoundingInterval) (n : ℕ) : i.coarsest n ≤ n := by
  induction n with
  | zero => exact Nat.le_refl _
  | succ n ih =>
    rw [coarsest]
    split
    · exact Nat.le_refl _
    · exact ih.trans (Nat.le_succ n)

/-- A factor of five is less than three doublings. -/
theorem unitsPerQuarter_le {n : ℕ} (h : n = 3228) : unitsPerQuarter ≤ 2 ^ n := by
  obtain ⟨k, hk⟩ : ∃ k, k = 1076 := ⟨_, rfl⟩
  have hn : n = 3 * k := by omega
  rw [← pow_five_eq_unitsPerQuarter hk, hn, pow_mul]
  exact Nat.pow_le_pow_left (by decide) k

namespace Finite

/-- The end of the interval of the greatest number has at most 1620 decimal digits. -/
theorem bound_roundingInterval_le (x : Finite) : x.roundingInterval.bound ≤ 1620 := by
  -- the exponent under a name, so that the power is not computed
  obtain ⟨n, hn⟩ : ∃ n, n = 3228 := ⟨_, rfl⟩
  have hscale : x.scale ≤ 2045 := x.canonical.2.1
  have hsignificand : 4 * x.significand + 2 < 2 ^ 55 := by
    have h : x.significand < 2 ^ 53 := x.canonical.1
    omega
  have hhigh : x.roundingInterval.high < 2 ^ (55 + (x.scale + n)) := by
    rw [roundingInterval_eq, pow_add 2 55, pow_add 2 x.scale]
    calc _ ≤ (4 * x.significand + 2) * (2 ^ x.scale * unitsPerQuarter) := Nat.sub_le _ _
      _ ≤ (4 * x.significand + 2) * (2 ^ x.scale * 2 ^ n) :=
          Nat.mul_le_mul_left _ (Nat.mul_le_mul_left _ (unitsPerQuarter_le hn))
      _ < 2 ^ 55 * (2 ^ x.scale * 2 ^ n) :=
          Nat.mul_lt_mul_of_pos_right hsignificand
            (Nat.mul_pos (Nat.two_pow_pos _) (Nat.two_pow_pos _))
  have hlog : x.roundingInterval.high.log2 ≤ 55 + (x.scale + n) := by
    by_cases hzero : x.roundingInterval.high = 0
    · rw [hzero]
      exact Nat.zero_le _
    · exact ((Nat.log2_lt hzero).mpr hhigh).le
  unfold RoundingInterval.bound
  omega

theorem length_text_le (x : Finite) : x.text.length ≤ 4096 := by
  unfold text
  split
  · decide
  · next hsignificand =>
    have hbound := x.bound_roundingInterval_le
    have hcoefficient : x.shortest.coefficient < 10 ^ x.roundingInterval.bound :=
      calc x.shortest.coefficient
          ≤ x.shortest.coefficient * 10 ^ x.roundingInterval.power :=
            Nat.le_mul_of_pos_right _ (Nat.pow_pos (by decide))
        _ ≤ x.roundingInterval.high := (contains_shortest hsignificand).2
        _ < 10 ^ x.roundingInterval.bound := x.roundingInterval.high_lt_pow_bound
    have hexponent : x.shortest.exponent.natAbs ≤ 1620 := by
      have hpower : x.roundingInterval.power ≤ x.roundingInterval.bound :=
        RoundingInterval.coarsest_le _ _
      show ((x.roundingInterval.power : ℤ) - 1076).natAbs ≤ 1620
      omega
    have hpos : 0 < x.roundingInterval.bound := by
      unfold RoundingInterval.bound
      omega
    have hlength := Decimal.length_positional_le hpos hcoefficient hexponent
    dsimp only
    split
    · rw [List.length_cons]
      omega
    · omega

end Finite

theorem length_text_le (x : Binary64) : x.text.length ≤ 4096 := by
  cases x with
  | nan => decide
  | infinity negative => cases negative <;> decide
  | finite x => exact x.length_text_le

end Binary64

/-- A floor below the limit has at most 127 digits of any radix. -/
theorem length_integerText_le {radix : ℕ} (hradix : 2 ≤ radix) {n : ℤ}
    (h : n.natAbs < integralLimit) : (integerText radix n).length ≤ 128 := by
  have hlt : n.natAbs < radix ^ 127 :=
    calc n.natAbs < integralLimit := h
      _ < 2 ^ 127 := by decide
      _ ≤ radix ^ 127 := Nat.pow_le_pow_left hradix 127
  have hdigits : (Nat.toDigits radix n.natAbs).length ≤ 127 :=
    Nat.toDigits_length _ _ _ (by decide) hlt
  unfold integerText
  dsimp only
  split
  · exact Nat.succ_le_succ hdigits
  · exact hdigits.trans (Nat.le_succ _)

theorem Binary64.Finite.length_floorText_le (x : Finite) {radix : ℕ} (hradix : 2 ≤ radix) :
    (x.floorText radix).length ≤ 4096 := by
  unfold floorText
  split
  · next h => exact (length_integerText_le hradix h).trans (by decide)
  · exact x.length_text_le

/-! ### Under a specifier -/

namespace Specifier

theorem Kind.length_body_alone_le (kind : Kind) (x : Binary64) :
    (kind.alone.body x).length ≤ 4096 := by
  cases x with
  | nan => exact Binary64.length_text_le .nan
  | infinity negative => exact Binary64.length_text_le (.infinity negative)
  | finite x =>
    cases kind with
    | decimal | lowerHex | binary | octal => exact x.length_floorText_le (by decide)
    | upperHex => exact (List.length_map _).trans_le (x.length_floorText_le (by decide))
    | fixed | general => exact x.length_text_le

/-- A specifier extends the number under its kind, or leaves it as it is. -/
theorem body_eq_or_eq_extend (s : Specifier) (x : Binary64) :
    s.body x = s.kind.alone.body x ∨ s.body x = s.extend (s.kind.alone.body x) := by
  cases x with
  | nan | infinity => exact .inl rfl
  | finite y =>
    have hextend : ∀ cs, extend s.kind.alone cs = cs := fun cs => rfl
    have hkind : s.kind.alone.kind = s.kind := rfl
    simp only [body, hextend, hkind]
    cases s.kind with
    | decimal | fixed | general => exact .inr rfl
    | lowerHex | upperHex | binary | octal => exact .inl rfl

theorem length_extend_le (s : Specifier) (cs : List Char) :
    (s.extend cs).length ≤ cs.length + (s.precision.getD 0 + 1) := by
  unfold extend
  split
  · exact Nat.le_add_right _ _
  · next precision hprecision =>
    obtain ⟨more, hmore, hle, -⟩ := extendFraction_eq_append precision cs
    rw [hmore, List.length_append, hprecision]
    exact Nat.add_le_add_left hle _

theorem length_signed_le (s : Specifier) (x : Binary64) :
    (s.signed x).length ≤ (s.body x).length + 1 := by
  unfold signed
  split
  · exact Nat.le_refl _
  · exact Nat.le_succ _

/-- Under a bounded specifier a number has at most so many characters more than under its kind
alone. -/
theorem IsBounded.length_apply_le {s : Specifier} (h : s.IsBounded) (x : Binary64) :
    (s.apply x).length ≤ maxPadding + 2 + (s.kind.alone.apply x).length := by
  have hwidth : s.width.getD 0 ≤ maxPadding := by
    cases hn : s.width with
    | none => exact Nat.zero_le _
    | some n => exact (h.width n hn).2
  have hprecision : s.precision.getD 0 ≤ maxPadding := by
    cases hn : s.precision with
    | none => exact Nat.zero_le _
    | some n => exact h.precision n hn
  have hbody : (s.body x).length ≤ (s.kind.alone.body x).length + (s.precision.getD 0 + 1) := by
    rcases s.body_eq_or_eq_extend x with hbody | hbody <;> rw [hbody]
    · exact Nat.le_add_right _ _
    · exact s.length_extend_le _
  have hsigned := s.length_signed_le x
  rw [apply, length_pad, s.kind.apply_alone x]
  omega

end Specifier

open Specifier

/-- The text of a specifier makes a number longer than its kind alone by `maxPadding` characters, a
point and a sign at most. -/
theorem length_formatNumber_le (x : Binary64) (specifier : List Char) :
    (formatNumber x (some specifier)).length ≤
      maxPadding + 2 + (formatNumber x (some (parse specifier).kind.code)).length := by
  rw [formatNumber_some, formatNumber_some, Kind.parse_code]
  exact (isBounded_parse specifier).length_apply_le x

end TextTemplate
