import TextTemplate.Proofs.Decimal.RoundTrip
import TextTemplate.Proofs.Specifier.Checked
import TextTemplate.Proofs.Specifier.IntegerKinds

/-!
# Precision

A precision extends the text of a number, as far as a string can hold it, and leaves its value as it
is (`extended_to_precision`).  Under the kinds that heed it, the text is that of a decimal
(`Kind.exists_writes`): the zeros of the precision go behind its fraction, those of the width in
front of its whole part, and neither change what it is worth (`PointedDecimal.toRat_withZeros`).

What a text is worth is told by `readDecimal?`, which knows nothing of how it was written.
-/

namespace TextTemplate

/-! ### Pointed texts -/

section Pointed

variable {whole digits : List Char}

theorem fraction_pointed (h : '.' ∉ whole) (digits : List Char) :
    fraction (pointed whole digits) = digits := by
  by_cases hnil : digits = []
  · have hdrop := dropWhile_run_append h (.inl rfl)
    rw [hnil, pointed_nil, fraction]
    rw [List.append_nil] at hdrop
    rw [hdrop]
    rfl
  · rw [pointed_of_ne_nil hnil, fraction, dropWhile_run_append h (.inr rfl)]
    rfl

/-- More digits behind the point are more text behind it. -/
theorem pointed_isPrefix (whole digits more : List Char) :
    pointed whole digits <+: pointed whole (digits ++ more) := by
  by_cases hnil : digits = []
  · rw [hnil, pointed_nil]
    exact List.prefix_append _ _
  · rw [pointed_of_ne_nil hnil, pointed_of_ne_nil (List.append_ne_nil_of_left_ne_nil hnil _)]
    exact ⟨more, by simp⟩

theorem count_point_le (h : '.' ∉ whole) (hdigits : '.' ∉ digits) :
    (pointed whole digits).count '.' ≤ 1 := by
  rw [pointed, List.count_append, List.count_eq_zero_of_not_mem h]
  split
  · decide
  · rw [List.count_cons_self, List.count_eq_zero_of_not_mem hdigits]

theorem extendFraction_pointed (h : '.' ∉ whole) (precision : ℕ) (digits : List Char) :
    extendFraction precision (pointed whole digits) =
      pointed whole (digits ++ List.replicate (precision - digits.length) '0') := by
  by_cases hnil : digits = []
  · rw [hnil, pointed_nil, Specifier.extendFraction_of_notMem h]
    cases precision with
    | zero => exact (pointed_nil whole).symm
    | succ n => rfl
  · have hpoint : (pointed whole digits).contains '.' = true := by
      simp [pointed_of_ne_nil hnil]
    simp only [extendFraction, fraction_pointed h, hpoint, if_true]
    split
    · next hnone => rw [hnone, List.replicate_zero, List.append_nil]
    · rw [pointed_of_ne_nil hnil, pointed_of_ne_nil (List.append_ne_nil_of_left_ne_nil hnil _),
        List.append_assoc]
      rfl

/-- How long a text is once it is extended to a precision: longer by the zeros that are missing, and
by a point if there is none and a zero is to follow. -/
def extendedLength (precision : ℕ) (cs : List Char) : ℕ :=
  let missing := precision - (fraction cs).length
  cs.length + missing + if missing = 0 ∨ '.' ∈ cs then 0 else 1

theorem length_extendFraction (precision : ℕ) (cs : List Char) :
    (extendFraction precision cs).length = extendedLength precision cs := by
  simp only [extendFraction, extendedLength]
  by_cases hmissing : precision - (fraction cs).length = 0
  · rw [if_pos hmissing, if_pos (.inl hmissing), hmissing, Nat.add_zero]
  · by_cases hpoint : '.' ∈ cs
    · rw [if_neg hmissing, if_pos (List.contains_iff_mem.mpr hpoint), if_pos (.inr hpoint),
        List.length_append, List.length_replicate, Nat.add_zero]
    · rw [if_neg hmissing, if_neg (mt List.contains_iff_mem.mp hpoint),
        if_neg (not_or.mpr ⟨hmissing, hpoint⟩), List.length_append, List.length_cons,
        List.length_replicate]
      rfl

theorem ne_point_of_isDigit {c : Char} (h : c.isDigit) : c ≠ '.' := by
  rintro rfl
  exact absurd h (by decide)

end Pointed

/-! ### Reading a decimal -/

/-- The text behind the sign, where there is one. -/
def unsigned : List Char → List Char
  | '+' :: text => text
  | '-' :: text => text
  | text => text

/-- The sign and the exact value of the decimal that the text is of: digits, maybe behind a sign,
and maybe a point with more digits behind it. -/
def readDecimal? (text : List Char) : Option (Bool × ℚ) :=
  let negative := text.head? == some '-'
  let whole := (unsigned text).takeWhile Char.isDigit
  let value (digits : List Char) : ℚ :=
    Binary64.signed negative (Decimal.toRat ⟨Numeral.ofDigits (whole ++ digits), -digits.length⟩)
  if whole = [] then none
  else
    match (unsigned text).dropWhile Char.isDigit with
    | [] => some (negative, value [])
    | '.' :: digits =>
      if !digits.isEmpty && digits.all Char.isDigit then some (negative, value digits) else none
    | _ => none

theorem unsigned_append {sign digits : List Char}
    (hsign : sign = [] ∨ sign = ['+'] ∨ sign = ['-'])
    (hdigits : ∀ c ∈ digits.head?, ¬ Specifier.isSign c) : unsigned (sign ++ digits) = digits := by
  rcases hsign with rfl | rfl | rfl
  · rw [List.nil_append]
    unfold unsigned
    split
    · exact absurd rfl (hdigits '+' rfl)
    · exact absurd rfl (hdigits '-' rfl)
    · rfl
  · rfl
  · rfl

namespace PointedDecimal

/-! ### Decimals with a sign -/

/-- The sign of a decimal: a minus, or a plus where one is wanted. -/
def sign (d : PointedDecimal) (plus : Bool) : List Char :=
  if d.negative then ['-'] else if plus then ['+'] else []

/-- The text of a decimal, a plus sign in front if one is wanted and it is not negative. -/
def signedText (d : PointedDecimal) (plus : Bool) : List Char :=
  d.sign plus ++ pointed d.whole d.fraction

variable {d : PointedDecimal} {plus : Bool}

theorem sign_cases (d : PointedDecimal) (plus : Bool) :
    d.sign plus = [] ∨ d.sign plus = ['+'] ∨ d.sign plus = ['-'] :=
  Specifier.ite_sign_cases _ _

theorem signedText_eq_pointed (d : PointedDecimal) (plus : Bool) :
    d.signedText plus = pointed (d.sign plus ++ d.whole) d.fraction :=
  append_pointed _ _ _

theorem notMem_sign_append (d : PointedDecimal) (plus : Bool) :
    '.' ∉ d.sign plus ++ d.whole := by
  rw [List.mem_append, not_or]
  refine ⟨?_, fun hmem => ne_point_of_isDigit (d.isDigit_whole _ hmem) rfl⟩
  rcases d.sign_cases plus with h | h | h <;> rw [h] <;> decide

theorem not_isSign_head? (hd : d.whole ≠ []) :
    ∀ c ∈ (pointed d.whole d.fraction).head?, ¬ Specifier.isSign c := by
  intro c hc
  rw [pointed, List.head?_append_of_ne_nil _ hd] at hc
  exact Specifier.not_isSign_of_isDigit (d.isDigit_whole c (List.mem_of_mem_head? hc))

theorem head?_signedText (hd : d.whole ≠ []) (plus : Bool) :
    (d.signedText plus).head? = some '-' ↔ d.negative := by
  rw [signedText, sign]
  by_cases hnegative : d.negative
  · simp [hnegative]
  · rw [if_neg hnegative, iff_false_right hnegative]
    split
    · simp
    · intro hhead
      exact absurd rfl (not_isSign_head? hd '-' hhead)

/-- A decimal is read from its text, with or without a plus sign. -/
theorem readDecimal?_signedText (hd : d.whole ≠ []) (plus : Bool) :
    readDecimal? (d.signedText plus) = some (d.negative, d.toRat) := by
  have hnegative : ((d.signedText plus).head? == some '-') = d.negative := by
    rw [Bool.eq_iff_iff, beq_iff_eq, head?_signedText hd]
  have hunsigned : unsigned (d.signedText plus) = pointed d.whole d.fraction :=
    unsigned_append (d.sign_cases plus) (not_isSign_head? hd)
  simp only [readDecimal?, hnegative, hunsigned, takeWhile_isDigit_pointed d.isDigit_whole,
    dropWhile_isDigit_pointed d.isDigit_whole, if_neg hd]
  by_cases hnil : d.fraction = []
  · rw [if_pos hnil, toRat, magnitude, digits, hnil]
  · have hfraction : (!d.fraction.isEmpty && d.fraction.all Char.isDigit) = true := by
      rw [Bool.and_eq_true, Bool.not_eq_true', List.isEmpty_eq_false_iff, List.all_eq_true]
      exact ⟨hnil, d.isDigit_fraction⟩
    rw [if_neg hnil]
    exact if_pos hfraction

theorem notMem_blank_signedText (d : PointedDecimal) (plus : Bool) : ' ' ∉ d.signedText plus := by
  have hdigit : ∀ {c : Char}, c.isDigit → c ≠ ' ' := by
    rintro c h rfl
    exact absurd h (by decide)
  rw [signedText, pointed, List.mem_append, List.mem_append, not_or, not_or]
  refine ⟨?_, fun hmem => hdigit (d.isDigit_whole _ hmem) rfl, ?_⟩
  · rcases d.sign_cases plus with h | h | h <;> rw [h] <;> decide
  · split
    · exact List.not_mem_nil
    · rw [List.mem_cons, not_or]
      exact ⟨by decide, fun hmem => hdigit (d.isDigit_fraction _ hmem) rfl⟩

/-! ### Zeros at both ends -/

/-- The decimal with zeros in front of its whole part and behind its fraction. -/
def withZeros (d : PointedDecimal) (front behind : ℕ) : PointedDecimal where
  negative := d.negative
  whole := List.replicate front '0' ++ d.whole
  fraction := d.fraction ++ List.replicate behind '0'
  isDigit_whole c hc :=
    (List.mem_append.mp hc).elim isDigit_of_mem_replicate_zero (d.isDigit_whole c)
  isDigit_fraction c hc :=
    (List.mem_append.mp hc).elim (d.isDigit_fraction c) isDigit_of_mem_replicate_zero

/-- Zeros at the ends do not change the value. -/
theorem toRat_withZeros (d : PointedDecimal) (front behind : ℕ) :
    (d.withZeros front behind).toRat = d.toRat := by
  have hdigits : (d.withZeros front behind).digits =
      List.replicate front '0' ++ (d.digits ++ List.replicate behind '0') := by
    simp only [digits, withZeros, List.append_assoc]
  have hlength : (d.withZeros front behind).fraction.length = d.fraction.length + behind := by
    simp only [withZeros, List.length_append, List.length_replicate]
  have hten : (10 : ℚ) ≠ 0 := by decide
  have hexponent : -((d.fraction.length + behind : ℕ) : ℤ) =
      -(behind : ℤ) + -(d.fraction.length : ℤ) := by omega
  have hmagnitude : (d.withZeros front behind).magnitude.toRat = d.magnitude.toRat := by
    simp only [magnitude, Decimal.toRat, hdigits, hlength, Numeral.ofDigits_zeros_append,
      Numeral.ofDigits_append_zeros, Nat.cast_mul, Nat.cast_pow, Nat.cast_ofNat]
    rw [hexponent, zpow_add₀ hten, zpow_neg, zpow_natCast, mul_assoc,
      mul_inv_cancel_left₀ (pow_ne_zero behind hten)]
  rw [toRat, toRat, hmagnitude]
  rfl

theorem whole_withZeros_ne_nil (hd : d.whole ≠ []) (front behind : ℕ) :
    (d.withZeros front behind).whole ≠ [] :=
  List.append_ne_nil_of_right_ne_nil _ hd

theorem readDecimal?_withZeros (hd : d.whole ≠ []) (front behind : ℕ) (plus : Bool) :
    readDecimal? ((d.withZeros front behind).signedText plus) = some (d.negative, d.toRat) := by
  rw [readDecimal?_signedText (whole_withZeros_ne_nil hd front behind), toRat_withZeros]
  rfl

/-- Zeros behind the fraction are added to the text. -/
theorem signedText_withZeros (d : PointedDecimal) (behind : ℕ) (plus : Bool) :
    (d.withZeros 0 behind).signedText plus =
      pointed (d.sign plus ++ d.whole) (d.fraction ++ List.replicate behind '0') :=
  signedText_eq_pointed _ _

end PointedDecimal

namespace Specifier

open Binary64 PointedDecimal

/-! ### Numbers as decimals -/

theorem exists_decimal_eq_text (x : Finite) :
    ∃ d : PointedDecimal, d.whole ≠ [] ∧ (d.negative ↔ x.floor < 0) ∧ x.text = d.text := by
  obtain ⟨whole, digits, htext, hwhole, hdigits⟩ := x.text_eq_pointed
  refine ⟨⟨x.quanta < 0, whole, digits, hwhole.isDigit, hdigits⟩, hwhole.ne_nil, ?_, ?_⟩
  · rw [decide_eq_true_iff, x.quanta_neg_iff_floor]
  · simp only [htext, PointedDecimal.text, decide_eq_true_eq]

theorem exists_decimal_eq_floorText (x : Finite) :
    ∃ d : PointedDecimal, d.whole ≠ [] ∧ (d.negative ↔ x.floor < 0) ∧ x.floorText 10 = d.text := by
  by_cases hlimit : x.floor.natAbs < integralLimit
  · refine ⟨⟨x.floor < 0, Nat.toDigits 10 x.floor.natAbs, [],
      fun c hc => isDigit_of_mem_toDigits hc, nofun⟩, Nat.toDigits_ne_nil, decide_eq_true_iff, ?_⟩
    simp only [floorText_eq hlimit, PointedDecimal.text, decide_eq_true_eq, pointed_nil]
  · rw [Finite.floorText, if_neg hlimit]
    exact exists_decimal_eq_text x

/-- Under the kind a number is the decimal, extended to the precision. -/
structure Kind.Writes (kind : Kind) (x : Finite) (d : PointedDecimal) : Prop where
  whole_ne_nil : d.whole ≠ []
  negative_iff : d.negative ↔ x.floor < 0
  body_eq : ∀ s : Specifier, s.kind = kind → s.body (.finite x) = s.extend d.text

theorem Kind.exists_writes (x : Finite) {kind : Kind}
    (hkind : kind ∈ [Kind.decimal, .fixed, .general]) : ∃ d, kind.Writes x d := by
  cases kind with
  | decimal =>
    obtain ⟨d, hd, hnegative, htext⟩ := exists_decimal_eq_floorText x
    refine ⟨d, hd, hnegative, fun s hs => ?_⟩
    simp only [body, hs, htext]
  | fixed | general =>
    obtain ⟨d, hd, hnegative, htext⟩ := exists_decimal_eq_text x
    refine ⟨d, hd, hnegative, fun s hs => ?_⟩
    simp only [body, hs, htext]
  | lowerHex | upperHex | binary | octal => exact absurd hkind (by decide)

/-- The number of zeros that a precision adds to a decimal. -/
def missingPlaces (precision : Option ℕ) (d : PointedDecimal) : ℕ :=
  precision.getD 0 - d.fraction.length

theorem extend_text (s : Specifier) (d : PointedDecimal) :
    s.extend d.text = (d.withZeros 0 (missingPlaces s.precision d)).text := by
  have hpoint : '.' ∉ (if d.negative then ['-'] else []) ++ d.whole := d.notMem_sign_append false
  unfold extend missingPlaces
  cases s.precision with
  | none =>
    rw [Option.getD_none, Nat.zero_sub]
    simp only [PointedDecimal.text, withZeros, List.replicate_zero, List.append_nil,
      List.nil_append]
  | some precision =>
    simp only [PointedDecimal.text, withZeros, List.replicate_zero, List.nil_append,
      Option.getD_some, append_pointed]
    exact extendFraction_pointed hpoint precision d.fraction

/-- Between the blanks a padded decimal has zeros in front of its whole part, or none. -/
theorem readDecimal?_stripBlanks_pad (s : Specifier) {d : PointedDecimal} (hd : d.whole ≠ [])
    (plus : Bool) :
    readDecimal? (stripBlanks (s.pad (d.signedText plus))) = some (d.negative, d.toRat) := by
  have hpad := s.pad_append (d.sign_cases plus) (not_isSign_head? hd)
  generalize s.padding (d.sign plus ++ pointed d.whole d.fraction).length = p at hpad
  have htext : d.sign plus ++ (List.replicate p.zeros '0' ++ pointed d.whole d.fraction) =
      (d.withZeros p.zeros 0).signedText plus := by
    rw [append_pointed, signedText]
    simp only [withZeros, List.replicate_zero, List.append_nil]
    rfl
  have hne : (d.withZeros p.zeros 0).signedText plus ≠ [] := by
    rw [signedText, pointed]
    exact List.append_ne_nil_of_right_ne_nil _
      (List.append_ne_nil_of_left_ne_nil (whole_withZeros_ne_nil hd _ _) _)
  -- the zeros of the padding stand behind the sign, so they lead the whole part
  rw [htext] at hpad
  rw [signedText, hpad, stripBlanks_append hne (notMem_blank_signedText _ _),
    readDecimal?_withZeros hd]

namespace Kind.Writes

variable {kind : Kind} {x : Finite} {d : PointedDecimal}

theorem signed_eq (h : kind.Writes x d) {s : Specifier} (hs : s.kind = kind) :
    s.signed (.finite x) =
      (d.withZeros 0 (missingPlaces s.precision d)).signedText s.flags.plus := by
  have hnonneg : isNonneg (.finite x) = !d.negative := by
    rw [Bool.eq_iff_iff, x.isNonneg_iff_floor, Bool.not_eq_true', ← Bool.not_eq_true,
      h.negative_iff, Int.not_lt]
  rw [signed, h.body_eq s hs, extend_text, hnonneg, signedText, PointedDecimal.text,
    PointedDecimal.sign]
  -- zeros leave the sign as it is
  have hsame : (d.withZeros 0 (missingPlaces s.precision d)).negative = d.negative := rfl
  rw [hsame]
  cases d.negative <;> cases s.flags.plus <;> rfl

/-- Without a width the zeros of the precision are all that is added to the decimal. -/
theorem apply_eq (h : kind.Writes x d) (flags : Flags) (precision : Option ℕ) :
    apply ⟨flags, none, precision, kind⟩ (.finite x) =
      pointed (d.sign flags.plus ++ d.whole)
        (d.fraction ++ List.replicate (missingPlaces precision d) '0') := by
  rw [apply_of_width_eq_none rfl, h.signed_eq rfl, signedText_withZeros]

theorem apply_eq_extendFraction (h : kind.Writes x d) (flags : Flags) (precision : ℕ) :
    apply ⟨flags, none, some precision, kind⟩ (.finite x) =
      extendFraction precision (apply ⟨flags, none, none, kind⟩ (.finite x)) := by
  have hnone : missingPlaces none d = 0 := Nat.zero_sub _
  rw [h.apply_eq, h.apply_eq, hnone, List.replicate_zero, List.append_nil,
    extendFraction_pointed (d.notMem_sign_append _)]
  rfl

theorem readDecimal?_apply (h : kind.Writes x d) (flags : Flags) (precision : Option ℕ) :
    readDecimal? (apply ⟨flags, none, precision, kind⟩ (.finite x)) =
      some (d.negative, d.toRat) := by
  rw [h.apply_eq, ← signedText_withZeros, readDecimal?_withZeros h.whole_ne_nil]

theorem readDecimal?_stripBlanks_apply (h : kind.Writes x d) (flags : Flags)
    (width precision : Option ℕ) :
    readDecimal? (stripBlanks (apply ⟨flags, width, precision, kind⟩ (.finite x))) =
      some (d.negative, d.toRat) := by
  have hwhole := whole_withZeros_ne_nil h.whole_ne_nil 0 (missingPlaces precision d)
  rw [apply, h.signed_eq rfl, readDecimal?_stripBlanks_pad _ hwhole, toRat_withZeros]
  rfl

/-- A greater precision adds what is still missing after a smaller one. -/
theorem apply_isPrefix (h : kind.Writes x d) (flags : Flags) {p q : Option ℕ}
    (hpq : p.getD 0 ≤ q.getD 0) :
    apply ⟨flags, none, p, kind⟩ (.finite x) <+: apply ⟨flags, none, q, kind⟩ (.finite x) := by
  obtain ⟨more, hmore⟩ : ∃ more, missingPlaces q d = missingPlaces p d + more :=
    Nat.exists_eq_add_of_le (Nat.sub_le_sub_right hpq _)
  rw [h.apply_eq, h.apply_eq, hmore, List.replicate_add, ← List.append_assoc]
  exact pointed_isPrefix _ _ _

theorem length_fraction_apply (h : kind.Writes x d) (flags : Flags) (precision : Option ℕ) :
    (fraction (apply ⟨flags, none, precision, kind⟩ (.finite x))).length =
      max (precision.getD 0) d.fraction.length := by
  rw [h.apply_eq, fraction_pointed (d.notMem_sign_append _), List.length_append,
    List.length_replicate, missingPlaces]
  omega

theorem count_point_apply_le (h : kind.Writes x d) (flags : Flags) (precision : Option ℕ) :
    (apply ⟨flags, none, precision, kind⟩ (.finite x)).count '.' ≤ 1 := by
  rw [h.apply_eq]
  refine count_point_le (d.notMem_sign_append _) fun hmem => ?_
  exact ne_point_of_isDigit ((d.withZeros 0 _).isDigit_fraction _ hmem) rfl

end Kind.Writes

/-! ### What a precision does -/

/-- Nothing but the kinds in decimal digits heeds a precision. -/
theorem signed_precision_eq {x : Binary64} {kind : Kind}
    (h : (∀ y, x ≠ .finite y) ∨ kind ∈ [Kind.lowerHex, .upperHex, .binary, .octal])
    (flags : Flags) (width precision : Option ℕ) :
    signed ⟨flags, width, precision, kind⟩ x = signed ⟨flags, width, none, kind⟩ x := by
  have hbody : body ⟨flags, width, precision, kind⟩ x = body ⟨flags, width, none, kind⟩ x := by
    rcases h with h | h
    · cases x with
      | finite y => exact absurd rfl (h y)
      | nan | infinity => rfl
    · cases x with
      | finite y =>
        cases kind with
        | decimal | fixed | general => exact absurd h (by decide)
        | lowerHex | upperHex | binary | octal => rfl
      | nan | infinity => rfl
  rw [signed, signed, hbody]

/-- No string has room for a greater precision. -/
theorem applied?_of_maxBytes_lt_precision {precision : ℕ} (h : maxBytes < precision) {kind : Kind}
    (hkind : kind ∈ [Kind.decimal, .fixed, .general]) (flags : Flags) (x : Finite) :
    applied? ⟨flags, none, some precision, kind⟩ (.finite x) = none := by
  obtain ⟨d, hd⟩ := Kind.exists_writes x hkind
  have hplaces := hd.length_fraction_apply flags (some precision)
  have hlength :=
    (fraction_sublist (apply ⟨flags, none, some precision, kind⟩ (.finite x))).length_le
  rw [hplaces, Option.getD_some] at hlength
  exact applied?_eq_none_iff.mpr (h.trans_le ((Nat.le_max_left _ _).trans hlength))

/-- What a precision does to a number.  A finite number under a kind in decimal digits is written as
without one, with zeros behind it until the places are met, and a point if there was none and one is
needed; a greater precision adds more of them.  The text has the sign and the value it has without a
precision, with a width and zeros in front too, the blanks being taken off.  Under the other kinds,
and of what is not finite, a precision makes no difference.

A number has a text under a precision exactly if a string can hold it, which is so of all that a
specifier asks for that is read from a text. -/
theorem extended_to_precision (x : Binary64) (flags : Flags) (kind : Kind) :
    (∀ y, x = .finite y → kind ∈ [Kind.decimal, .fixed, .general] →
      ∃ text, applied? ⟨flags, none, none, kind⟩ x = some text ∧ (readDecimal? text).isSome ∧
        (∀ precision,
          (maxBytes < extendedLength precision text →
            applied? ⟨flags, none, some precision, kind⟩ x = none) ∧
          (extendedLength precision text ≤ maxBytes →
            ∃ longer, applied? ⟨flags, none, some precision, kind⟩ x = some longer ∧
              text <+: longer ∧ longer.count '.' ≤ 1 ∧
              (fraction longer).length = max precision (fraction text).length ∧
              (precision = 0 → longer = text) ∧ readDecimal? longer = readDecimal? text)) ∧
        (∀ p q longer, p ≤ q → applied? ⟨flags, none, some q, kind⟩ x = some longer →
          ∃ shorter, applied? ⟨flags, none, some p, kind⟩ x = some shorter ∧ shorter <+: longer) ∧
        ∀ width precision padded, applied? ⟨flags, width, precision, kind⟩ x = some padded →
          readDecimal? (stripBlanks padded) = readDecimal? text) ∧
    ((∀ y, x ≠ .finite y) ∨ kind ∈ [Kind.lowerHex, .upperHex, .binary, .octal] →
      ∀ width precision,
        applied? ⟨flags, width, precision, kind⟩ x = applied? ⟨flags, width, none, kind⟩ x) ∧
    ∀ width precision, IsBounded ⟨flags, width, precision, kind⟩ →
      ∃ text, applied? ⟨flags, width, precision, kind⟩ x = some text := by
  refine ⟨?_, fun h width precision => ?_, fun width precision h => ⟨_, h.applied?_eq_some x⟩⟩
  · rintro y rfl hkind
    obtain ⟨d, h⟩ := Kind.exists_writes y hkind
    have hbounded : IsBounded ⟨flags, none, none, kind⟩ := ⟨nofun, nofun⟩
    have hread := h.readDecimal?_apply flags none
    refine ⟨_, hbounded.applied?_eq_some _, by rw [hread]; rfl, fun precision => ?_, ?_, ?_⟩
    · rw [← length_extendFraction, ← h.apply_eq_extendFraction]
      refine ⟨applied?_eq_none_iff.mpr, fun hfits => ⟨_, applied?_eq_some_iff.mpr ⟨rfl, hfits⟩, ?_⟩⟩
      refine ⟨h.apply_isPrefix flags (Nat.zero_le _), h.count_point_apply_le flags _, ?_, ?_, ?_⟩
      · rw [h.length_fraction_apply, h.length_fraction_apply, Option.getD_some, Option.getD_none,
          Nat.zero_max]
      · rintro rfl
        rw [h.apply_eq, h.apply_eq]
        rfl
      · rw [h.readDecimal?_apply, hread]
    · intro p q longer hpq hlonger
      obtain ⟨rfl, hfits⟩ := applied?_eq_some_iff.mp hlonger
      have hprefix := h.apply_isPrefix flags (p := some p) (q := some q) hpq
      exact ⟨_, applied?_eq_some_iff.mpr ⟨rfl, hprefix.length_le.trans hfits⟩, hprefix⟩
    · intro width precision padded hpadded
      obtain ⟨rfl, -⟩ := applied?_eq_some_iff.mp hpadded
      rw [h.readDecimal?_stripBlanks_apply, hread]
  · rw [applied?_eq, applied?_eq, apply, apply, signed_precision_eq h]
    rfl

/-- One, which has a text of one character, has none with as many places as a precision can ask
for. -/
theorem no_text_of_greatest_precision :
    applied? {} (.finite ⟨false, 2 ^ 52, 1022, by decide⟩) = some ['1'] ∧
      applied? { precision := some (2 ^ 64 - 1) }
        (.finite ⟨false, 2 ^ 52, 1022, by decide⟩) = none :=
  ⟨by decide +kernel, applied?_of_maxBytes_lt_precision (by decide) (by decide) {} _⟩

end Specifier

end TextTemplate
