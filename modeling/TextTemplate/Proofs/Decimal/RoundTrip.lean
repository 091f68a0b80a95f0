import TextTemplate.Proofs.Decimal.Shortest
import TextTemplate.Proofs.Numeral.Digits

/-!
# The default text reads back

The default text of a finite number other than zero is a decimal that is rounded to the number, and
no decimal with fewer significant digits is (`text_reads_back_shortest`).  So numbers with the same
text are the same, or both are zero.
-/

namespace TextTemplate

/-- A decimal as it is written: a sign, digits in front of the point, and digits behind it. -/
structure PointedDecimal where
  negative : Bool
  whole : List Char
  fraction : List Char
  isDigit_whole : ∀ c ∈ whole, c.isDigit
  isDigit_fraction : ∀ c ∈ fraction, c.isDigit

namespace PointedDecimal

/-- The text of a decimal; without a fraction there is no point either. -/
def text (p : PointedDecimal) : List Char :=
  (if p.negative then ['-'] else []) ++ pointed p.whole p.fraction

/-- The digits on both sides of the point. -/
def digits (p : PointedDecimal) : List Char := p.whole ++ p.fraction

/-- The decimal without its sign. -/
def magnitude (p : PointedDecimal) : Decimal := ⟨Numeral.ofDigits p.digits, -p.fraction.length⟩

/-- The exact value. -/
def toRat (p : PointedDecimal) : ℚ := Binary64.signed p.negative p.magnitude.toRat

/-- How many digits there are without the zeros at the ends. -/
def significantDigits (p : PointedDecimal) : ℕ := (Numeral.significant p.digits).length

variable {p q : PointedDecimal}

theorem isDigit_of_mem_digits {c : Char} (hc : c ∈ p.digits) : c.isDigit :=
  (List.mem_append.mp hc).elim (p.isDigit_whole c) (p.isDigit_fraction c)

theorem toRat_magnitude_nonneg (p : PointedDecimal) : 0 ≤ p.magnitude.toRat :=
  mul_nonneg (Nat.cast_nonneg _) (zpow_nonneg (by decide) _)

/-- A decimal is a number of as many digits as are significant, times a power of ten. -/
theorem exists_toRat_magnitude_eq (p : PointedDecimal) :
    ∃ (c : ℕ) (e : ℤ), c < 10 ^ p.significantDigits ∧
      p.magnitude.toRat = c * (10 : ℚ) ^ e := by
  obtain ⟨before, after, hdigits⟩ := Numeral.exists_zeros_append_significant p.digits
  have hsignificant : ∀ c ∈ Numeral.significant p.digits, c.isDigit := by
    intro c hc
    apply isDigit_of_mem_digits (p := p)
    rw [hdigits]
    exact List.mem_append_right _ (List.mem_append_left _ hc)
  refine ⟨Numeral.ofDigits (Numeral.significant p.digits), after + -(p.fraction.length : ℤ),
    Numeral.ofDigits_lt hsignificant, ?_⟩
  have hten : (10 : ℚ) ≠ 0 := by decide
  have hvalue : Numeral.ofDigits p.digits =
      Numeral.ofDigits (Numeral.significant p.digits) * 10 ^ after := by
    conv_lhs => rw [hdigits]
    rw [Numeral.ofDigits_zeros_append, Numeral.ofDigits_append_zeros]
  show (Numeral.ofDigits p.digits : ℚ) * _ = _
  rw [hvalue, Nat.cast_mul, Nat.cast_pow, Nat.cast_ofNat, zpow_add₀ hten, zpow_natCast, mul_assoc]
  rfl

/-! ### Taking a text apart -/

/-- Behind the whole part stands nothing, or the point. -/
theorem not_isDigit_of_mem_head? {fraction : List Char} {c : Char}
    (hc : c ∈ (if fraction = [] then [] else '.' :: fraction).head?) : ¬ c.isDigit := by
  split at hc
  · cases hc
  · obtain rfl := Option.some.inj hc
    decide

theorem takeWhile_isDigit_pointed {whole fraction : List Char} (h : ∀ c ∈ whole, c.isDigit) :
    (pointed whole fraction).takeWhile Char.isDigit = whole :=
  takeWhile_append_of_head? h fun _ hc => not_isDigit_of_mem_head? hc

theorem dropWhile_isDigit_pointed {whole fraction : List Char} (h : ∀ c ∈ whole, c.isDigit) :
    (pointed whole fraction).dropWhile Char.isDigit =
      if fraction = [] then [] else '.' :: fraction :=
  dropWhile_append_of_head? h fun _ hc => not_isDigit_of_mem_head? hc

theorem pointed_injective {whole fraction whole' fraction' : List Char}
    (hwhole : ∀ c ∈ whole, c.isDigit) (hwhole' : ∀ c ∈ whole', c.isDigit)
    (h : pointed whole fraction = pointed whole' fraction') :
    whole = whole' ∧ fraction = fraction' := by
  have hsame : whole = whole' := by
    have htake := congrArg (List.takeWhile Char.isDigit) h
    rwa [takeWhile_isDigit_pointed hwhole, takeWhile_isDigit_pointed hwhole'] at htake
  subst hsame
  have hrest := List.append_cancel_left h
  refine ⟨rfl, ?_⟩
  split at hrest
  · next hnil =>
    split at hrest
    · next hnil' => rw [hnil, hnil']
    · cases hrest
  · split at hrest
    · cases hrest
    · exact (List.cons.inj hrest).2

theorem head?_text (hp : p.whole ≠ []) : p.text.head? = some '-' ↔ p.negative := by
  obtain ⟨c, rest, hwhole⟩ := List.exists_cons_of_ne_nil hp
  have hdigit : c.isDigit := p.isDigit_whole c (by rw [hwhole]; exact List.mem_cons_self)
  rw [text, pointed, hwhole]
  split
  · next hneg => simp [hneg]
  · next hpos =>
    simp only [hpos, Bool.false_eq_true, iff_false]
    intro hc
    obtain rfl := Option.some.inj hc
    exact absurd hdigit (by decide)

/-- A decimal with a whole part is told by its text. -/
theorem text_injective (hp : p.whole ≠ []) (hq : q.whole ≠ []) (h : p.text = q.text) : p = q := by
  have hnegative : p.negative = q.negative := by
    rw [Bool.eq_iff_iff, ← head?_text hp, h, head?_text hq]
  have hpointed : pointed p.whole p.fraction = pointed q.whole q.fraction := by
    rw [text, text, hnegative] at h
    exact List.append_cancel_left h
  obtain ⟨hwhole, hfraction⟩ := pointed_injective p.isDigit_whole q.isDigit_whole hpointed
  obtain ⟨negative, whole, fraction, _, _⟩ := p
  obtain ⟨negative', whole', fraction', _, _⟩ := q
  subst hnegative hwhole hfraction
  rfl

end PointedDecimal

namespace Binary64

/-! ### Default texts -/

theorem getLast?_toDigits_ne_zero {n : ℕ} (h : n % 10 ≠ 0) :
    (Nat.toDigits 10 n).getLast? ≠ some '0' := by
  have hdigit : ∀ d < 10, d ≠ 0 → Nat.digitChar d ≠ '0' := by decide
  by_cases hn : n < 10
  · rw [Nat.toDigits_of_lt_base hn, List.getLast?_singleton, ne_eq, Option.some.injEq]
    exact hdigit n hn (by omega)
  · have hmod : n % 10 < 10 := Nat.mod_lt _ (by decide)
    have hsplit : Nat.toDigits 10 (n / 10) ++ Nat.toDigits 10 (n % 10) = Nat.toDigits 10 n := by
      rw [Nat.toDigits_append_toDigits (by decide) (by omega) hmod, Nat.div_add_mod]
    rw [← hsplit, Nat.toDigits_of_lt_base hmod, List.getLast?_append, List.getLast?_singleton]
    simpa using hdigit _ hmod h

namespace Finite

variable {x : Finite}

/-- What is written of a number other than zero: its sign and the digits of its shortest decimal. -/
structure IsWrittenAs (x : Finite) (p : PointedDecimal) : Prop where
  text_eq : x.text = p.text
  negative_eq : p.negative = x.negative
  isWhole : IsWhole p.whole
  toRat_magnitude : p.magnitude.toRat = x.shortest.toRat
  significant_digits : Numeral.significant p.digits = Nat.toDigits 10 x.shortest.coefficient
  getLast?_fraction : p.fraction.getLast? ≠ some '0'

theorem exists_isWrittenAs (hx : x.significand ≠ 0) : ∃ p, x.IsWrittenAs p := by
  obtain ⟨whole, fraction, htext, hlaidOut⟩ := text_eq_pointed_shortest hx
  obtain ⟨zeros, hdigits⟩ := hlaidOut.digits
  have hmod := coefficient_shortest_mod hx
  have hlast := getLast?_toDigits_ne_zero hmod
  have hhead : (Nat.toDigits 10 x.shortest.coefficient).head? ≠ some '0' :=
    head?_toDigits_ne_zero (by omega)
  refine ⟨⟨x.negative, whole, fraction, hlaidOut.isWhole.isDigit, hlaidOut.isDigit⟩,
    ?_, rfl, hlaidOut.isWhole, ?_, ?_, ?_⟩
  · have hsign : x.quanta < 0 ↔ x.negative := by
      rw [quanta_neg_iff]
      exact and_iff_left hx
    rw [htext, PointedDecimal.text, if_congr hsign rfl rfl]
  · have hten : (10 : ℚ) ≠ 0 := by decide
    have hexponent : x.shortest.exponent =
        (x.shortest.exponent.toNat : ℤ) + -(fraction.length : ℤ) := by
      rw [hlaidOut.length_fraction]
      omega
    show (Numeral.ofDigits (whole ++ fraction) : ℚ) * (10 : ℚ) ^ (-(fraction.length : ℤ)) = _
    rw [hdigits, Numeral.ofDigits_zeros_append, Numeral.ofDigits_append_zeros,
      Numeral.ofDigits_toDigits, Decimal.toRat, Nat.cast_mul, Nat.cast_pow, Nat.cast_ofNat,
      mul_assoc]
    congr 1
    conv_rhs => rw [hexponent]
    rw [zpow_add₀ hten, zpow_natCast]
  · show Numeral.significant (whole ++ fraction) = _
    rw [hdigits, Numeral.significant_append Nat.toDigits_ne_nil hhead hlast]
  · by_cases hnil : fraction = []
    · show fraction.getLast? ≠ some '0'
      rw [hnil]
      simp
    · show fraction.getLast? ≠ some '0'
      rw [hlaidOut.getLast?_fraction hnil]
      exact hlast

variable {p : PointedDecimal}

theorem IsWrittenAs.roundsTo (h : x.IsWrittenAs p) (hx : x.significand ≠ 0) :
    RoundsTo p.toRat x := by
  rw [roundsTo_iff_covers hx, PointedDecimal.toRat, h.negative_eq, signed_signed,
    h.toRat_magnitude]
  exact covers_shortest hx

theorem IsWrittenAs.ofDecimal_eq (h : x.IsWrittenAs p) (hx : x.significand ≠ 0) :
    ofDecimal p.negative p.magnitude = .finite x := by
  have hrounds := h.roundsTo hx
  rw [PointedDecimal.toRat, h.negative_eq] at hrounds
  rw [h.negative_eq]
  exact ofDecimal_eq_of_roundsTo hx hrounds

/-- What is rounded to a number has its sign. -/
theorem covers_magnitude {q : PointedDecimal} (hx : x.significand ≠ 0) (h : RoundsTo q.toRat x) :
    x.Covers q.magnitude.toRat := by
  rw [roundsTo_iff_covers hx, PointedDecimal.toRat] at h
  by_cases hsign : q.negative = x.negative
  · rwa [hsign, signed_signed] at h
  · have hopposite : signed x.negative (signed q.negative q.magnitude.toRat) =
        -q.magnitude.toRat := by
      unfold signed
      cases hq : q.negative <;> cases hx : x.negative <;> simp_all
    have hpos := h.pos hx
    have hnonneg := q.toRat_magnitude_nonneg
    rw [hopposite] at hpos
    linarith

theorem IsWrittenAs.significantDigits_le {q : PointedDecimal} (h : x.IsWrittenAs p)
    (hx : x.significand ≠ 0) (hq : RoundsTo q.toRat x) :
    p.significantDigits ≤ q.significantDigits := by
  obtain ⟨c, e, hc, hvalue⟩ := q.exists_toRat_magnitude_eq
  have hcovers := covers_magnitude hx hq
  rw [hvalue] at hcovers
  have hlt := coefficient_shortest_lt hx hcovers hc
  have hpos : 0 < q.significantDigits := by
    rw [Nat.pos_iff_ne_zero]
    intro hzero
    rw [hzero] at hlt
    have hone : x.shortest.coefficient < 1 := hlt
    have hmod := coefficient_shortest_mod hx
    omega
  rw [PointedDecimal.significantDigits, h.significant_digits]
  exact Nat.toDigits_length 10 _ _ hpos hlt

theorem text_of_significand_eq_zero (h : x.significand = 0) : x.text = ['0'] := if_pos h

theorem text_of_toRat_eq_zero (h : x.toRat = 0) : x.text = ['0'] :=
  text_of_significand_eq_zero (toRat_eq_zero_iff.mp h)

/-- A number other than zero is not written like zero. -/
theorem text_ne_zero (hx : x.significand ≠ 0) : x.text ≠ ['0'] := by
  obtain ⟨p, hp⟩ := exists_isWrittenAs hx
  let zero : PointedDecimal := ⟨false, ['0'], [], by simp, by simp⟩
  intro htext
  have hsame : p = zero := by
    refine PointedDecimal.text_injective hp.isWhole.ne_nil (List.cons_ne_nil _ _) ?_
    rw [← hp.text_eq, htext]
    rfl
  have hcovers := covers_magnitude hx (hp.roundsTo hx)
  rw [hsame] at hcovers
  have hpos := hcovers.pos hx
  have hvalue : zero.magnitude.toRat = 0 := zero_mul _
  rw [hvalue] at hpos
  exact lt_irrefl _ hpos

/-- Numbers with the same text are the same, or both are zero. -/
theorem eq_of_text_eq {y : Finite} (h : x.text = y.text) :
    x = y ∨ x.significand = 0 ∧ y.significand = 0 := by
  by_cases hx : x.significand = 0
  · right
    by_contra hne
    have hy : y.significand ≠ 0 := fun hy => hne ⟨hx, hy⟩
    rw [text_of_significand_eq_zero hx] at h
    exact text_ne_zero hy h.symm
  · left
    by_cases hy : y.significand = 0
    · rw [text_of_significand_eq_zero hy] at h
      exact absurd h (text_ne_zero hx)
    · obtain ⟨p, hp⟩ := exists_isWrittenAs hx
      obtain ⟨q, hq⟩ := exists_isWrittenAs hy
      have hsame : p = q := by
        refine PointedDecimal.text_injective hp.isWhole.ne_nil hq.isWhole.ne_nil ?_
        rw [← hp.text_eq, h, hq.text_eq]
      have hread := hp.ofDecimal_eq hx
      rw [hsame, hq.ofDecimal_eq hy] at hread
      exact (Binary64.finite.inj hread).symm

end Finite

/-- The names of what is not finite hold letters, which no number does. -/
theorem name_ne_text {name : List Char} (h : 'n' ∈ name ∨ 'N' ∈ name) (x : Finite) :
    name ≠ x.text := by
  rintro rfl
  rcases h with h | h
  · rcases Finite.of_mem_text h with hc | hc | hc <;> exact absurd hc (by decide)
  · rcases Finite.of_mem_text h with hc | hc | hc <;> exact absurd hc (by decide)

/-- The default text tells numbers apart, but for the sign of zero. -/
theorem text_eq_iff {x y : Binary64} : x.text = y.text ↔ x = y ∨ x.isZero ∧ y.isZero := by
  have hnan : 'n' ∈ text .nan ∨ 'N' ∈ text .nan := .inr (by decide)
  have hinfinity : ∀ negative, 'n' ∈ text (.infinity negative) ∨ 'N' ∈ text (.infinity negative) :=
    fun negative => .inl (by cases negative <;> decide)
  constructor
  · intro h
    cases x with
    | nan =>
      cases y with
      | nan => exact .inl rfl
      | infinity negative => cases negative <;> cases h
      | finite y => exact absurd h (name_ne_text hnan y)
    | infinity negative =>
      cases y with
      | nan => cases negative <;> cases h
      | infinity negative' =>
        cases negative <;> cases negative' <;> first | exact .inl rfl | cases h
      | finite y => exact absurd h (name_ne_text (hinfinity negative) y)
    | finite x =>
      cases y with
      | nan => exact absurd h.symm (name_ne_text hnan x)
      | infinity negative => exact absurd h.symm (name_ne_text (hinfinity negative) x)
      | finite y =>
        rcases Finite.eq_of_text_eq h with rfl | ⟨hx, hy⟩
        · exact .inl rfl
        · right
          simp [isZero, hx, hy]
  · rintro (rfl | ⟨hx, hy⟩)
    · rfl
    · obtain ⟨x, rfl, hvalue⟩ := isZero_iff.mp hx
      obtain ⟨y, rfl, hvalue'⟩ := isZero_iff.mp hy
      show x.text = y.text
      rw [Finite.text_of_toRat_eq_zero hvalue, Finite.text_of_toRat_eq_zero hvalue']

/-- The default text of a finite number other than zero is a decimal in positional notation, with a
minus sign exactly if the number is below zero, without superfluous zeros in front of the point, and
with a point only if digits follow it, of which the last is not zero.  The decimal is rounded to the
number, also by the reading of decimals, and no decimal with fewer significant digits is.  Zero of
either sign has a text of its own, and only zeros share a text with another number. -/
theorem text_reads_back_shortest :
    (∀ x : Finite, x.toRat ≠ 0 →
      ∃ p : PointedDecimal, x.text = p.text ∧ (p.negative ↔ x.toRat < 0) ∧ IsWhole p.whole ∧
        p.fraction.getLast? ≠ some '0' ∧ RoundsTo p.toRat x ∧
        ofDecimal p.negative p.magnitude = .finite x ∧
        ∀ q : PointedDecimal, RoundsTo q.toRat x → p.significantDigits ≤ q.significantDigits) ∧
    (∀ x : Finite, x.toRat = 0 → x.text = ['0']) ∧
    ∀ x y : Binary64, x.text = y.text ↔ x = y ∨ x.isZero ∧ y.isZero := by
  refine ⟨fun x hx => ?_, fun x hx => Finite.text_of_toRat_eq_zero hx, fun x y => text_eq_iff⟩
  have hsignificand : x.significand ≠ 0 := Finite.toRat_eq_zero_iff.not.mp hx
  obtain ⟨p, hp⟩ := Finite.exists_isWrittenAs hsignificand
  have hnegative : p.negative ↔ x.toRat < 0 := by
    rw [hp.negative_eq, Finite.toRat_neg_iff_negative hsignificand]
  exact ⟨p, hp.text_eq, hnegative, hp.isWhole, hp.getLast?_fraction, hp.roundsTo hsignificand,
    hp.ofDecimal_eq hsignificand, fun q => hp.significantDigits_le hsignificand⟩

end Binary64

end TextTemplate
