import TextTemplate.Proofs.Specifier.WholeNumbers

/-!
# The limit of the integer kinds

A floor at or above `integralLimit` in magnitude has its default text under every kind
(`formatNumber_code_by_limit`).  The limit is below `2 ^ 127`, so there are floors that are integers
of 128 bits and are not written in the digits of their kind, the least integer of 128 bits among
them.  Their default text is never the numeral by chance: the last bit of such a number stands for
`2 ^ 74` or more, so the shortest decimal ends in 22 zeros (`exists_positional_shortest_eq`).  It
has 39 digits, which is too many for a hexadecimal numeral and too few for a binary or an octal one,
and the decimal numeral of the number does not end in so many zeros (`ne_mul_pow_ten`).
-/

namespace TextTemplate

theorem integralLimit_pos : 0 < integralLimit := by decide

namespace Binary64.Finite

variable {x : Finite} {a : ℕ} {q : ℚ}

/-! ### Numbers from the limit up to the end of 128 bits -/

theorem lastBit_eq {j : ℕ} (h : x.scale = 1074 + j) : x.lastBit = (2 ^ j : ℕ) := by
  have hunit : (quantaPerUnit : ℚ) ≠ 0 := by exact_mod_cast quantaPerUnit_pos.ne'
  obtain ⟨k, hk⟩ : ∃ k, k = 1074 := ⟨_, rfl⟩
  rw [← hk, Nat.add_comm] at h
  rw [lastBit, h, pow_add, pow_two_eq_quantaPerUnit hk, Nat.cast_mul]
  exact mul_div_cancel_right₀ _ hunit

/-- The number is the least of its scale, or has one of the last significands of the scale below. -/
theorem scale_cases (h : x.magnitude = a * quantaPerUnit) (hlow : integralLimit ≤ a)
    (hhigh : a ≤ 2 ^ 127) :
    x.scale = 1074 + 74 ∧ a = x.significand * 2 ^ 74 ∧ x.significand ≠ 2 ^ 52 ∨
      x.scale = 1074 + 75 ∧ a = 2 ^ 127 ∧ x.significand = 2 ^ 52 := by
  obtain ⟨k, hk⟩ : ∃ k, k = 1074 := ⟨_, rfl⟩
  have hunit : 0 < 2 ^ k := Nat.two_pow_pos k
  have hsignificand : x.significand < 2 ^ 53 := x.canonical.1
  have hlimit : 2 ^ 126 < integralLimit := by decide
  rw [magnitude, ← pow_two_eq_quantaPerUnit hk] at h
  rw [← hk]
  have hscale_ge : k + 74 ≤ x.scale := by
    have hlt : 2 ^ (126 + k) < 2 ^ (53 + x.scale) := by
      rw [pow_add, pow_add]
      calc 2 ^ 126 * 2 ^ k < a * 2 ^ k :=
            Nat.mul_lt_mul_of_pos_right (hlimit.trans_le hlow) hunit
        _ = x.significand * 2 ^ x.scale := h.symm
        _ ≤ 2 ^ 53 * 2 ^ x.scale := Nat.mul_le_mul_right _ hsignificand.le
    have hexponent := (Nat.pow_lt_pow_iff_right (by decide)).mp hlt
    omega
  have hleading : 2 ^ 52 ≤ x.significand := x.canonical.2.2.resolve_left (by omega)
  have hscale_le : x.scale ≤ k + 75 := by
    have hlt : 2 ^ (52 + x.scale) < 2 ^ (128 + k) := by
      rw [pow_add, pow_add]
      calc 2 ^ 52 * 2 ^ x.scale ≤ x.significand * 2 ^ x.scale :=
            Nat.mul_le_mul_right _ hleading
        _ = a * 2 ^ k := h
        _ < 2 ^ 128 * 2 ^ k :=
            Nat.mul_lt_mul_of_pos_right (hhigh.trans_lt (by decide)) hunit
    have hexponent := (Nat.pow_lt_pow_iff_right (by decide)).mp hlt
    omega
  have hvalue : ∀ j, x.scale = k + j → a = x.significand * 2 ^ j := by
    intro j hj
    rw [hj, Nat.add_comm, pow_add, ← Nat.mul_assoc] at h
    exact (Nat.eq_of_mul_eq_mul_right hunit h).symm
  obtain hscale | hscale : x.scale = k + 74 ∨ x.scale = k + 75 := by omega
  · have ha := hvalue 74 hscale
    refine .inl ⟨hscale, ha, fun hfoot => ?_⟩
    -- the foot of the scale is below the limit
    rw [hfoot] at ha
    exact absurd hlow (by rw [ha]; decide)
  · have ha := hvalue 75 hscale
    have hle : x.significand * 2 ^ 75 ≤ 2 ^ 52 * 2 ^ 75 := by
      rw [← ha, ← pow_add]
      exact hhigh
    have hfoot : x.significand = 2 ^ 52 :=
      Nat.le_antisymm (Nat.le_of_mul_le_mul_right hle (Nat.two_pow_pos 75)) hleading
    rw [hfoot, ← pow_add] at ha
    exact .inr ⟨hscale, ha, hfoot⟩

/-- The neighbours are `2 ^ 74` or `2 ^ 75` away, on either side. -/
theorem gap_bounds (h : x.magnitude = a * quantaPerUnit) (hlow : integralLimit ≤ a)
    (hhigh : a ≤ 2 ^ 127) :
    x.significand * x.lastBit = a ∧
      ((2 : ℚ) ^ 75 ≤ x.lowerGap * x.lastBit ∧ x.lowerGap * x.lastBit ≤ 2 ^ 76) ∧
      (2 : ℚ) ^ 75 ≤ 2 * x.lastBit ∧ 2 * x.lastBit ≤ 2 ^ 76 := by
  rcases scale_cases h hlow hhigh with ⟨hscale, ha, hfoot⟩ | ⟨hscale, ha, hfoot⟩
  · have hgap : x.lowerGap = 2 := if_neg fun hboth => hfoot hboth.1
    rw [lastBit_eq hscale, hgap, ha]
    norm_num
  · have hgap : x.lowerGap = 1 := if_pos ⟨hfoot, by rw [hscale]; decide⟩
    rw [lastBit_eq hscale, hgap, ha, hfoot]
    norm_num

/-- What is nearer than `2 ^ 73` is rounded to the number, and what is rounded to it is not farther
away than `2 ^ 74`. -/
theorem covers_near_limit (h : x.magnitude = a * quantaPerUnit) (hlow : integralLimit ≤ a)
    (hhigh : a ≤ 2 ^ 127) :
    (|q - a| < 2 ^ 73 → x.Covers q) ∧ (x.Covers q → |q - a| ≤ 2 ^ 74) := by
  obtain ⟨hvalue, ⟨hdown, hdown'⟩, hup, hup'⟩ := gap_bounds h hlow hhigh
  have hleft : (4 * x.significand - x.lowerGap) * x.lastBit = 4 * a - x.lowerGap * x.lastBit := by
    rw [← hvalue]
    ring
  have hright : (4 * x.significand + 2) * x.lastBit = 4 * a + 2 * x.lastBit := by
    rw [← hvalue]
    ring
  rw [abs_lt, abs_le, covers_iff, hleft, hright]
  constructor
  · rintro ⟨hbelow, habove⟩
    exact ⟨by linarith, by linarith, fun _ => ⟨by linarith, by linarith⟩⟩
  · rintro ⟨hbelow, habove, -⟩
    exact ⟨by linarith, by linarith⟩

/-- The multiple of `10 ^ 22` that is nearest to the number is rounded to it. -/
theorem le_exponent_shortest (h : x.magnitude = a * quantaPerUnit) (hlow : integralLimit ≤ a)
    (hhigh : a ≤ 2 ^ 127) : (22 : ℤ) ≤ x.shortest.exponent := by
  have hsignificand := significand_ne_zero h (integralLimit_pos.trans_le hlow).ne'
  obtain ⟨q, hq⟩ : ∃ q, q = (a + 5 * 10 ^ 21) / 10 ^ 22 := ⟨_, rfl⟩
  have hbelow : ((q * 10 ^ 22 : ℕ) : ℚ) ≤ (a + 5 * 10 ^ 21 : ℕ) := by
    exact_mod_cast (by omega : q * 10 ^ 22 ≤ a + 5 * 10 ^ 21)
  have habove : (a : ℚ) ≤ (q * 10 ^ 22 + 5 * 10 ^ 21 : ℕ) := by
    exact_mod_cast (by omega : a ≤ q * 10 ^ 22 + 5 * 10 ^ 21)
  push_cast at hbelow habove
  have hnear : |(q : ℚ) * (10 : ℚ) ^ (22 : ℤ) - a| < 2 ^ 73 := by
    rw [abs_lt]
    norm_num at hbelow habove ⊢
    exact ⟨by linarith, by linarith⟩
  exact exponent_le hsignificand ((covers_near_limit h hlow hhigh).1 hnear)

/-- The shortest decimal is a whole number near by that ends in 22 zeros. -/
theorem exists_positional_shortest_eq (h : x.magnitude = a * quantaPerUnit)
    (hlow : integralLimit ≤ a) (hhigh : a ≤ 2 ^ 127) :
    ∃ q, x.shortest.positional = Nat.toDigits 10 (q * 10 ^ 22) ∧
      a ≤ q * 10 ^ 22 + 2 ^ 74 ∧ q * 10 ^ 22 ≤ a + 2 ^ 74 := by
  have hsignificand := significand_ne_zero h (integralLimit_pos.trans_le hlow).ne'
  have hexponent := le_exponent_shortest h hlow hhigh
  obtain ⟨zeros, hzeros⟩ : ∃ zeros : ℕ, x.shortest.exponent = (zeros + 22 : ℕ) :=
    ⟨(x.shortest.exponent - 22).toNat, by omega⟩
  have hcoefficient : x.shortest.coefficient ≠ 0 := by
    intro hzero
    exact coefficient_shortest_mod hsignificand (by rw [hzero])
  have hpow : x.shortest.coefficient * 10 ^ (zeros + 22) =
      x.shortest.coefficient * 10 ^ zeros * 10 ^ 22 := by
    rw [Nat.mul_assoc]
    exact congrArg _ (Nat.pow_add ..)
  have hcovers : x.Covers ((x.shortest.coefficient * 10 ^ zeros * 10 ^ 22 : ℕ) : ℚ) := by
    have hshortest := covers_shortest hsignificand
    rw [Decimal.toRat, hzeros, zpow_natCast, ← Nat.cast_ofNat, ← Nat.cast_pow, ← Nat.cast_mul,
      hpow] at hshortest
    exact hshortest
  have hnear := abs_le.mp ((covers_near_limit h hlow hhigh).2 hcovers)
  refine ⟨x.shortest.coefficient * 10 ^ zeros, ?_, ?_, ?_⟩
  · rw [Decimal.positional, hzeros, ← hpow, Numeral.toDigits_mul_pow hcoefficient]
  · have hle : (a : ℚ) ≤ (x.shortest.coefficient * 10 ^ zeros * 10 ^ 22 : ℕ) + 2 ^ 74 := by
      linarith [hnear.1]
    exact_mod_cast hle
  · have hle : ((x.shortest.coefficient * 10 ^ zeros * 10 ^ 22 : ℕ) : ℚ) ≤ a + 2 ^ 74 := by
      linarith [hnear.2]
    exact_mod_cast hle

/-- The number itself does not end in so many zeros: no significand that is left has enough factors
of five. -/
theorem ne_mul_pow_ten (h : x.magnitude = a * quantaPerUnit) (hlow : integralLimit ≤ a)
    (hhigh : a ≤ 2 ^ 127) (q : ℕ) : a ≠ q * 10 ^ 22 := by
  rcases scale_cases h hlow hhigh with ⟨-, ha, -⟩ | ⟨-, ha, -⟩
  · rintro rfl
    have hvalue : q * 10 ^ 22 = x.significand * 2 ^ 74 := ha
    have hfives : 5 ^ 22 ∣ x.significand := by
      have hcoprime : Nat.Coprime (5 ^ 22) (2 ^ 74) := Nat.Coprime.pow 22 74 (by decide)
      apply hcoprime.dvd_of_dvd_mul_right
      have hdvd : 5 ^ 22 ∣ 10 ^ 22 := pow_dvd_pow_of_dvd (by decide) 22
      rw [← hvalue]
      exact hdvd.mul_left q
    have hsignificand : 8999725064576941 ≤ x.significand := by
      have hlimit : 8999725064576941 * 2 ^ 74 ≤ x.significand * 2 ^ 74 := by
        rw [← hvalue]
        exact hlow
      exact Nat.le_of_mul_le_mul_right hlimit (Nat.two_pow_pos 74)
    have hsignificand' : x.significand < 2 ^ 53 := x.canonical.1
    obtain ⟨k, hk⟩ := hfives
    clear hvalue ha hlow hhigh h
    omega
  · have hvalue : a = 2 ^ 127 := ha
    omega

end Binary64.Finite

namespace Specifier

open Binary64 Binary64.Finite

variable {kind : Kind} {radix : ℕ} {x : Binary64.Finite}

/-! ### The digits of the kinds -/

/-- The digits of a number from the limit on are not those of a number near by that ends in 22
zeros: there are too few or too many of them, or they do not end so. -/
theorem map_toDigits_ne {a q : ℕ} (hradix : kind.radix? = some radix)
    (h : x.magnitude = a * quantaPerUnit) (hlow : integralLimit ≤ a) (hhigh : a ≤ 2 ^ 127)
    (hq : a ≤ q * 10 ^ 22 + 2 ^ 74) (hq' : q * 10 ^ 22 ≤ a + 2 ^ 74) :
    (Nat.toDigits radix a).map kind.spell ≠ Nat.toDigits 10 (q * 10 ^ 22) := by
  intro heq
  have hlow' : 169999999999999998061923293023115935744 ≤ a := hlow
  have hhigh' : a ≤ 2 ^ 127 := hhigh
  have hlength := congrArg List.length heq
  rw [List.length_map] at hlength
  have hten : (Nat.toDigits 10 (q * 10 ^ 22)).length ≤ 39 :=
    (Nat.length_toDigits_le_iff (by decide) (by decide)).mpr (by omega)
  have hten' : ¬ (Nat.toDigits 10 (q * 10 ^ 22)).length ≤ 38 := by
    rw [Nat.length_toDigits_le_iff (by decide) (by decide)]
    omega
  cases kind with
  | decimal =>
    cases hradix
    have hdigits : Nat.toDigits 10 a = Nat.toDigits 10 (q * 10 ^ 22) :=
      (List.map_id _).symm.trans heq
    exact ne_mul_pow_ten h hlow hhigh q (Numeral.toDigits_injective hdigits)
  | lowerHex | upperHex =>
    cases hradix
    have hsixteen : (Nat.toDigits 16 a).length ≤ 38 :=
      (Nat.length_toDigits_le_iff (by decide) (by decide)).mpr (by omega)
    omega
  | binary =>
    cases hradix
    have htwo : ¬ (Nat.toDigits 2 a).length ≤ 39 := by
      rw [Nat.length_toDigits_le_iff (by decide) (by decide)]
      omega
    omega
  | octal =>
    cases hradix
    have height : ¬ (Nat.toDigits 8 a).length ≤ 39 := by
      rw [Nat.length_toDigits_le_iff (by decide) (by decide)]
      omega
    omega
  | fixed | general => cases hradix

theorem Kind.spell_minus (kind : Kind) : kind.spell '-' = '-' := by
  cases kind <;> rfl

/-- From the limit up to the end of 128 bits the default text is not the numeral. -/
theorem text_ne_map_integerText (hradix : kind.radix? = some radix)
    (hlow : integralLimit ≤ x.floor.natAbs) (hhigh : x.floor.natAbs ≤ 2 ^ 127) :
    x.text ≠ (integerText radix x.floor).map kind.spell := by
  have hwhole : x.roundDown = x := roundDown_eq_self ((by decide : _ ≤ integralLimit).trans hlow)
  have hmagnitude : x.magnitude = x.floor.natAbs * quantaPerUnit := by
    have hquanta := quanta_roundDown x
    rw [hwhole] at hquanta
    rw [magnitude_eq_natAbs_quanta, hquanta, Int.natAbs_mul, Int.natAbs_natCast]
  have hzero := significand_ne_zero hmagnitude (integralLimit_pos.trans_le hlow).ne'
  obtain ⟨q, hq, hnear, hnear'⟩ := exists_positional_shortest_eq hmagnitude hlow hhigh
  have hne := map_toDigits_ne hradix hmagnitude hlow hhigh hnear hnear'
  have hnegative : x.negative ↔ x.floor < 0 := by
    rw [← toRat_neg_iff_negative hzero, x.toRat_neg_iff]
  intro htext
  rw [Binary64.Finite.text, if_neg hzero, hq, integerText, if_congr hnegative rfl rfl] at htext
  split at htext
  · rw [List.map_cons, kind.spell_minus] at htext
    exact hne (List.cons_inj_right _ |>.mp htext).symm
  · exact hne htext.symm

/-! ### Numbers under a kind alone -/

theorem Kind.spell_of_isDigit (kind : Kind) {c : Char} (h : c.isDigit) : kind.spell c = c := by
  obtain ⟨d, hd, rfl, -⟩ := Numeral.exists_digitChar_of_isDigit h
  have hall : ∀ d < 10, kind.spell (Nat.digitChar d) = Nat.digitChar d := by
    cases kind <;> decide
  exact hall d hd

theorem map_spell_text (kind : Kind) (x : Binary64.Finite) : x.text.map kind.spell = x.text := by
  have hchars : ∀ c ∈ x.text, kind.spell c = id c := by
    intro c hc
    rcases of_mem_text hc with rfl | rfl | hdigit
    · exact kind.spell_minus
    · cases kind <;> rfl
    · exact kind.spell_of_isDigit hdigit
  rw [List.map_congr_left hchars, List.map_id]

theorem formatNumber_code (hradix : kind.radix? = some radix) (x : Binary64.Finite) :
    formatNumber (.finite x) (some kind.code) = (x.floorText radix).map kind.spell := by
  rw [formatNumber_some, Kind.parse_code, Kind.apply_alone]
  cases kind with
  | fixed | general => cases hradix
  | upperHex =>
    cases hradix
    rfl
  | decimal | lowerHex | binary | octal =>
    cases hradix
    exact (List.map_id _).symm

/-- Below the limit a number under an integer kind is the numeral of its floor in the radix of the
kind, and from the limit on it is the default text of its floor.  Of the floors that are integers of
128 bits just those below the limit have their numeral. -/
theorem formatNumber_code_by_limit (hradix : kind.radix? = some radix) (x : Binary64.Finite) :
    (|⌊x.toRat⌋| < integralLimit → formatNumber (.finite x) (some kind.code) =
      (integerText radix ⌊x.toRat⌋).map kind.spell) ∧
    (integralLimit ≤ |⌊x.toRat⌋| → x.roundDown.toRat = ⌊x.toRat⌋ ∧
      formatNumber (.finite x) (some kind.code) = x.roundDown.text) ∧
    (-2 ^ 127 ≤ ⌊x.toRat⌋ → ⌊x.toRat⌋ < 2 ^ 127 →
      (formatNumber (.finite x) (some kind.code) =
          (integerText radix ⌊x.toRat⌋).map kind.spell ↔
        |⌊x.toRat⌋| < integralLimit)) := by
  have hlimit : |⌊x.toRat⌋| < integralLimit ↔ x.floor.natAbs < integralLimit := x.abs_floor_lt_iff
  have hbelow : |⌊x.toRat⌋| < integralLimit → formatNumber (.finite x) (some kind.code) =
      (integerText radix ⌊x.toRat⌋).map kind.spell := by
    intro h
    rw [formatNumber_code hradix, floorText, if_pos (hlimit.mp h), x.floor_toRat]
  have habove : ¬ |⌊x.toRat⌋| < integralLimit →
      formatNumber (.finite x) (some kind.code) = x.text := by
    intro h
    rw [formatNumber_code hradix, floorText, if_neg (mt hlimit.mpr h), map_spell_text]
  refine ⟨hbelow, fun h => ⟨x.toRat_roundDown, ?_⟩, fun hlow hhigh => ⟨fun h => ?_, hbelow⟩⟩
  · have hle : integralLimit ≤ x.floor.natAbs := Nat.not_lt.mp (mt hlimit.mpr (not_lt.mpr h))
    rw [habove (not_lt.mpr h), roundDown_eq_self ((by decide : _ ≤ integralLimit).trans hle)]
  · by_contra hge
    have hle : integralLimit ≤ x.floor.natAbs := Nat.not_lt.mp (mt hlimit.mpr hge)
    rw [x.floor_toRat] at hlow hhigh
    have hend : x.floor.natAbs ≤ 2 ^ 127 := by omega
    rw [habove hge, x.floor_toRat] at h
    exact text_ne_map_integerText hradix hle hend h

theorem formatNumber_code_of_negative :
    Kind.lowerHex.radix? = some 16 ∧
      ∃ x : Binary64.Finite, ⌊x.toRat⌋ = -3 ∧
        formatNumber (.finite x) (some ['x']) = ['-', '3'] := by
  have hradix : Kind.lowerHex.radix? = some 16 := rfl
  let x : Binary64.Finite := ⟨true, 5 * 2 ^ 50, 1023, by decide⟩
  have hfloor : ⌊x.toRat⌋ = -3 := by
    rw [x.floor_toRat]
    decide +kernel
  have hlimit : |⌊x.toRat⌋| < integralLimit := by
    rw [hfloor]
    decide
  refine ⟨hradix, x, hfloor, ((formatNumber_code_by_limit hradix x).1 hlimit).trans ?_⟩
  rw [hfloor]
  rfl

/-- The number at the limit is an integer of 128 bits, and a hexadecimal field holds it in decimal
digits, those of the shortest decimal. -/
theorem formatNumber_code_between_limits :
    ∃ x : Binary64.Finite, ofDecimal false ⟨17, 37⟩ = .finite x ∧
      -2 ^ 127 ≤ ⌊x.toRat⌋ ∧ ⌊x.toRat⌋ < 2 ^ 127 ∧
      integerText 16 ⌊x.toRat⌋ = "7fe4cf1e337eb4000000000000000000".toList ∧
      formatNumber (.finite x) (some ['x']) = ['1', '7'] ++ List.replicate 37 '0' ∧
      formatNumber (.finite x) (some ['x']) ≠ integerText 16 ⌊x.toRat⌋ := by
  let x : Binary64.Finite := ⟨false, 8999725064576941, 1148, by decide⟩
  have hfloor : ⌊x.toRat⌋ = 169999999999999998061923293023115935744 := by
    rw [x.floor_toRat]
    decide +kernel
  have hnumeral : integerText 16 ⌊x.toRat⌋ = "7fe4cf1e337eb4000000000000000000".toList := by
    rw [hfloor]
    decide +kernel
  have htext : formatNumber (.finite x) (some ['x']) = ['1', '7'] ++ List.replicate 37 '0' := by
    decide +kernel
  refine ⟨x, by decide +kernel, ?_, ?_, hnumeral, htext, ?_⟩
  · rw [hfloor]
    decide
  · rw [hfloor]
    decide
  · rw [htext, hnumeral]
    decide +kernel

end Specifier

end TextTemplate
