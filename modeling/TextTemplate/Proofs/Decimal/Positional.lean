import Mathlib.Data.List.Basic
import Mathlib.Data.Nat.Digits.Defs
import TextTemplate.Decimal.Shortest

/-!
# The parts of a positional text

Positional notation is a whole part, written without superfluous zeros in front, and maybe a point
with digits behind it (`positional_eq_pointed`).  The default text of a finite number is such a
text, behind a minus sign if the number is below zero (`Finite.text_eq_pointed`).
-/

namespace TextTemplate

/-- A whole part, and a point with a fraction behind it if there is one. -/
def pointed (whole fraction : List Char) : List Char :=
  whole ++ if fraction = [] then [] else '.' :: fraction

theorem pointed_nil (whole : List Char) : pointed whole [] = whole := List.append_nil whole

theorem pointed_of_ne_nil {fraction : List Char} (h : fraction ≠ []) (whole : List Char) :
    pointed whole fraction = whole ++ '.' :: fraction := by
  rw [pointed, if_neg h]

theorem append_pointed (front whole fraction : List Char) :
    front ++ pointed whole fraction = pointed (front ++ whole) fraction :=
  (List.append_assoc _ _ _).symm

/-- The digits of a natural number, without superfluous zeros in front. -/
structure IsWhole (digits : List Char) : Prop where
  ne_nil : digits ≠ []
  isDigit : ∀ c ∈ digits, c.isDigit
  eq_or_head? : digits = ['0'] ∨ digits.head? ≠ some '0'

/-! ### Digits -/

theorem isDigit_of_mem_toDigits {n : Nat} {c : Char} (hc : c ∈ Nat.toDigits 10 n) : c.isDigit :=
  Nat.isDigit_of_mem_toDigits (by decide) (by decide) hc

theorem head?_toDigits_append (n : Nat) (rest : List Char) :
    (Nat.toDigits 10 n ++ rest).head? = (Nat.toDigits 10 n).head? := by
  obtain ⟨c, digits, h⟩ := List.exists_cons_of_ne_nil (Nat.toDigits_ne_nil (n := n) (b := 10))
  rw [h]
  rfl

theorem head?_toDigits_ne_zero {n : Nat} (h : n ≠ 0) : (Nat.toDigits 10 n).head? ≠ some '0' := by
  induction n using Nat.base_induction 10 (by decide) with
  | single d hd =>
    have hdigit : ∀ d < 10, d ≠ 0 → Nat.digitChar d ≠ '0' := by decide
    rw [Nat.toDigits_of_lt_base hd, List.head?_singleton, ne_eq, Option.some.injEq]
    exact hdigit d hd h
  | digit m d hd hm ih =>
    rw [← Nat.toDigits_append_toDigits (by decide) hm hd, head?_toDigits_append]
    exact ih hm.ne'

theorem isWhole_toDigits (n : Nat) : IsWhole (Nat.toDigits 10 n) where
  ne_nil := Nat.toDigits_ne_nil
  isDigit := fun _ hc => isDigit_of_mem_toDigits hc
  eq_or_head? := by
    by_cases h : n = 0
    · exact .inl (h ▸ rfl)
    · exact .inr (head?_toDigits_ne_zero h)

theorem isDigit_of_mem_replicate_zero {n : Nat} {c : Char} (hc : c ∈ List.replicate n '0') :
    c.isDigit := by
  rw [List.eq_of_mem_replicate hc]
  rfl

/-! ### Decimals -/

/-- The digits of a decimal as a whole part and a fraction: zeros stand in front of them where the
whole part has none of them, and behind them where they do not reach the point. -/
structure Decimal.IsLaidOut (d : Decimal) (whole fraction : List Char) : Prop where
  isWhole : IsWhole whole
  isDigit : ∀ c ∈ fraction, c.isDigit
  digits : ∃ zeros, whole ++ fraction =
    List.replicate zeros '0' ++ (Nat.toDigits 10 d.coefficient ++
      List.replicate d.exponent.toNat '0')
  length_fraction : fraction.length = (-d.exponent).toNat

/-- With enough zeros in front, digits reach beyond the point: what stands in front of it is a
single zero, or begins as the digits do. -/
theorem isWhole_take_padded {digits padded : List Char} {places : Nat}
    (hpadded : padded = List.replicate (places + 1 - digits.length) '0' ++ digits)
    (hdigits : ∀ c ∈ padded, c.isDigit) (hhead : digits.head? ≠ some '0') :
    IsWhole (padded.take (padded.length - places)) := by
  have hlength : padded.length = places + 1 - digits.length + digits.length := by
    rw [hpadded, List.length_append, List.length_replicate]
  refine ⟨?_, fun c hc => hdigits c (List.mem_of_mem_take hc), ?_⟩
  · rw [← List.length_pos_iff, List.length_take]
    omega
  · by_cases hle : digits.length ≤ places
    · left
      obtain ⟨zeros, hzeros⟩ : ∃ zeros, places + 1 - digits.length = zeros + 1 :=
        ⟨places - digits.length, by omega⟩
      have htake : padded.length - places = 1 := by omega
      rw [htake, hpadded, hzeros, List.replicate_succ]
      rfl
    · right
      have hnone : places + 1 - digits.length = 0 := by omega
      rw [List.head?_take, if_neg (by omega), hpadded, hnone]
      exact hhead

/-- A coefficient with some of its digits behind the point has a whole part, which is zero if there
are no digits left for it. -/
theorem withPlaces_eq_pointed {coefficient : Nat} (h : coefficient ≠ 0) (n : Nat) :
    ∃ whole fraction, Decimal.withPlaces coefficient (n + 1) = pointed whole fraction ∧
      Decimal.IsLaidOut ⟨coefficient, .negSucc n⟩ whole fraction := by
  let digits := Nat.toDigits 10 coefficient
  let padded := List.replicate (n + 1 + 1 - digits.length) '0' ++ digits
  let whole := padded.take (padded.length - (n + 1))
  let fraction := padded.drop (padded.length - (n + 1))
  have hpadded : ∀ c ∈ padded, c.isDigit := by
    intro c hc
    rcases List.mem_append.mp hc with hc | hc
    · exact isDigit_of_mem_replicate_zero hc
    · exact isDigit_of_mem_toDigits hc
  have hplaces : fraction.length = n + 1 := by
    have hlength : padded.length = n + 1 + 1 - digits.length + digits.length := by
      rw [List.length_append, List.length_replicate]
    rw [List.length_drop]
    omega
  have hfraction : fraction ≠ [] := List.ne_nil_of_length_eq_add_one hplaces
  refine ⟨whole, fraction, ?_, isWhole_take_padded rfl hpadded (head?_toDigits_ne_zero h),
    fun c hc => hpadded c (List.mem_of_mem_drop hc), ⟨n + 1 + 1 - digits.length, ?_⟩, hplaces⟩
  · rw [pointed_of_ne_nil hfraction]
    rfl
  · show whole ++ fraction = List.replicate (n + 1 + 1 - digits.length) '0' ++ (digits ++ [])
    rw [List.append_nil]
    exact List.take_append_drop _ _

theorem positional_eq_pointed {d : Decimal} (h : d.coefficient ≠ 0) :
    ∃ whole fraction, d.positional = pointed whole fraction ∧ d.IsLaidOut whole fraction := by
  obtain ⟨coefficient, exponent⟩ := d
  cases exponent with
  | ofNat zeros =>
    refine ⟨Nat.toDigits 10 coefficient ++ List.replicate zeros '0', [],
      (List.append_nil _).symm, ⟨?_, fun c hc => ?_, .inr ?_⟩, fun c hc => ?_,
      ⟨0, List.append_nil _⟩, ?_⟩
    · simp
    · rcases List.mem_append.mp hc with hc | hc
      · exact isDigit_of_mem_toDigits hc
      · exact isDigit_of_mem_replicate_zero hc
    · rw [head?_toDigits_append]
      exact head?_toDigits_ne_zero h
    · cases hc
    · show 0 = (-(zeros : Int)).toNat
      omega
  | negSucc n => exact withPlaces_eq_pointed h n

/-- With digits behind the point, the last of them is that of the coefficient. -/
theorem Decimal.IsLaidOut.getLast?_fraction {d : Decimal} {whole fraction : List Char}
    (h : d.IsLaidOut whole fraction) (hne : fraction ≠ []) :
    fraction.getLast? = (Nat.toDigits 10 d.coefficient).getLast? := by
  obtain ⟨zeros, hdigits⟩ := h.digits
  have hplaces : 0 < (-d.exponent).toNat := by
    rw [← h.length_fraction]
    exact List.length_pos_iff.mpr hne
  have hnone : d.exponent.toNat = 0 := by omega
  rw [hnone, List.replicate_zero, List.append_nil] at hdigits
  have hlast := congrArg List.getLast? hdigits
  rwa [List.getLast?_append_of_ne_nil _ hne,
    List.getLast?_append_of_ne_nil _ Nat.toDigits_ne_nil] at hlast

/-! ### Default texts -/

namespace Binary64

theorem RoundingInterval.nearest_pos {i : RoundingInterval} (h : 0 < i.low) (step : Nat) :
    0 < i.nearest step := by
  unfold nearest
  by_cases hbelow : i.value / step * step < i.low
  · simp only [hbelow, if_true]
    exact Nat.succ_pos _
  · -- the multiple below is not zero, for the interval does not reach down to zero
    have hpos : 0 < i.value / step := by
      rw [Nat.pos_iff_ne_zero]
      intro hzero
      rw [hzero, Nat.zero_mul] at hbelow
      exact hbelow h
    simp only [hbelow, if_false]
    split
    · exact hpos
    · split
      · exact hpos
      · exact Nat.succ_pos _

theorem pow_five_eq_unitsPerQuarter {n : Nat} (h : n = 1076) : 5 ^ n = unitsPerQuarter := by
  unfold unitsPerQuarter
  congr

theorem unitsPerQuarter_pos : 0 < unitsPerQuarter := by
  obtain ⟨n, hn⟩ : ∃ n, n = 1076 := ⟨_, rfl⟩
  rw [← pow_five_eq_unitsPerQuarter hn]
  exact Nat.pow_pos (by decide)

namespace Finite

theorem roundingInterval_low_pos {x : Finite} (h : x.significand ≠ 0) :
    0 < x.roundingInterval.low := by
  have hunit : 0 < 2 ^ x.scale * unitsPerQuarter :=
    Nat.mul_pos (Nat.two_pow_pos _) unitsPerQuarter_pos
  have hbelow : 0 < 4 * x.significand -
      (if x.significand = 2 ^ 52 ∧ x.scale ≠ 0 then 1 else 2) := by
    split <;> omega
  exact Nat.add_pos_left (Nat.mul_pos hbelow hunit) _

theorem quanta_neg_iff {x : Finite} : x.quanta < 0 ↔ x.negative ∧ x.significand ≠ 0 := by
  rw [← Int.not_le, ← isNonneg_finite_iff, isNonneg]
  simp

/-- The default text of a number other than zero is that of its shortest decimal, behind its
sign. -/
theorem text_eq_pointed_shortest {x : Finite} (h : x.significand ≠ 0) :
    ∃ whole fraction,
      x.text = (if x.quanta < 0 then ['-'] else []) ++ pointed whole fraction ∧
        x.shortest.IsLaidOut whole fraction := by
  have hcoefficient : x.shortest.coefficient ≠ 0 :=
    (RoundingInterval.nearest_pos (roundingInterval_low_pos h) _).ne'
  obtain ⟨whole, fraction, hpointed, hlaidOut⟩ := positional_eq_pointed hcoefficient
  refine ⟨whole, fraction, ?_, hlaidOut⟩
  have hsign : x.quanta < 0 ↔ x.negative := by
    rw [quanta_neg_iff]
    exact and_iff_left h
  rw [text, if_neg h, hpointed]
  simp only [hsign]
  split <;> rfl

/-- The default text of a finite number is that of a decimal, behind its sign. -/
theorem text_eq_pointed (x : Finite) :
    ∃ whole fraction,
      x.text = (if x.quanta < 0 then ['-'] else []) ++ pointed whole fraction ∧
        IsWhole whole ∧ ∀ c ∈ fraction, c.isDigit := by
  by_cases hzero : x.significand = 0
  · have hwhole : IsWhole ['0'] := by
      refine ⟨List.cons_ne_nil _ _, fun c hc => ?_, .inl rfl⟩
      rw [List.mem_singleton.mp hc]
      rfl
    have hnonneg : ¬ x.quanta < 0 := fun h => (quanta_neg_iff.mp h).2 hzero
    refine ⟨['0'], [], ?_, hwhole, fun c hc => absurd hc List.not_mem_nil⟩
    rw [text, if_pos hzero, if_neg hnonneg]
    rfl
  · obtain ⟨whole, fraction, htext, hlaidOut⟩ := text_eq_pointed_shortest hzero
    exact ⟨whole, fraction, htext, hlaidOut.isWhole, hlaidOut.isDigit⟩

theorem of_mem_text {x : Finite} {c : Char} (hc : c ∈ x.text) :
    c = '-' ∨ c = '.' ∨ c.isDigit := by
  obtain ⟨whole, fraction, htext, hwhole, hfraction⟩ := x.text_eq_pointed
  rw [htext, pointed, List.mem_append, List.mem_append] at hc
  rcases hc with hc | hc | hc
  · split at hc
    · exact .inl (List.mem_singleton.mp hc)
    · cases hc
  · exact .inr (.inr (hwhole.isDigit c hc))
  · split at hc
    · cases hc
    · rcases List.mem_cons.mp hc with hc | hc
      · exact .inr (.inl hc)
      · exact .inr (.inr (hfraction c hc))

end Finite

end Binary64

end TextTemplate
