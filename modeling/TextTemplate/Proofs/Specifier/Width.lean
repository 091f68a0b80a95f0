import TextTemplate.Proofs.Specifier.Checked
import TextTemplate.Proofs.Specifier.IntegerKinds

/-!
# Width and sign

A number under a specifier is digits behind at most one sign (`signed_eq_append`): a minus below
zero, which the digits bring along, and from zero on a plus, which is put in front of them where the
flag asks for one.  So the two never meet, and a width finds the sign where it is to go around it:
it adds one block of fill characters, and all else stays as it is without the width
(`filled_to_width`).  A width that no string has room for leaves the number without a text
(`applied?_of_maxBytes_lt`).
-/

namespace TextTemplate

/-! ### Below zero -/

namespace Binary64

/-- Whether a number is below zero, which `-0` and `nan` are not. -/
def isNegative : Binary64 → Bool
  | .nan => false
  | .infinity negative => negative
  | .finite x => x.floor < 0

variable {x : Binary64}

theorem isNegative_iff :
    x.isNegative ↔ x = .infinity true ∨ ∃ y, x = .finite y ∧ y.toRat < 0 := by
  cases x with
  | nan => simp [isNegative]
  | infinity negative => simp [isNegative]
  | finite y => simp [isNegative, y.toRat_neg_iff]

theorem isNonneg_iff :
    x.isNonneg ↔ x = .infinity false ∨ ∃ y, x = .finite y ∧ 0 ≤ y.toRat := by
  cases x with
  | nan => simp [isNonneg]
  | infinity negative => simp [isNonneg]
  | finite y => simp [y.isNonneg_iff_floor, y.toRat_nonneg_iff]

theorem isNonneg_of_isNegative (h : x.isNegative) : x.isNonneg = false := by
  cases x with
  | nan => rfl
  | infinity negative => simpa [isNegative, isNonneg] using h
  | finite y =>
    have hfloor : y.floor < 0 := by simpa [isNegative] using h
    rw [← Bool.not_eq_true, y.isNonneg_iff_floor, Int.not_le]
    exact hfloor

end Binary64

namespace Specifier

variable {x : Binary64} {cs digits : List Char}

/-! ### The sign and the digits -/

/-- The text of a number without a plus sign: a minus if the number is below zero, and no other sign
behind it. -/
def IsMinusSigned (x : Binary64) (cs : List Char) : Prop :=
  ∃ digits, (∀ c ∈ digits, ¬ isSign c) ∧ cs = (if x.isNegative then ['-'] else []) ++ digits

theorem isMinusSigned_text (x : Binary64) : IsMinusSigned x x.text := by
  cases x with
  | nan => exact ⟨['N', 'a', 'N'], by simp [isSign], rfl⟩
  | infinity negative =>
    exact ⟨['I', 'n', 'f', 'i', 'n', 'i', 't', 'y'], by simp [isSign], rfl⟩
  | finite y =>
    obtain ⟨whole, fraction, htext, hwhole, hfraction⟩ := y.text_eq_pointed
    refine ⟨pointed whole fraction, fun c hc => ?_, ?_⟩
    · rcases List.mem_append.mp hc with hc | hc
      · exact not_isSign_of_isDigit (hwhole.isDigit c hc)
      · split at hc
        · cases hc
        · rcases List.mem_cons.mp hc with rfl | hc
          · decide
          · exact not_isSign_of_isDigit (hfraction c hc)
    · simp only [Binary64.text, htext, y.quanta_neg_iff_floor, Binary64.isNegative,
        decide_eq_true_eq]

theorem isMinusSigned_integerText {y : Binary64.Finite} {radix : Nat} (hlow : 1 < radix)
    (hhigh : radix ≤ 16) : IsMinusSigned (.finite y) (integerText radix y.floor) := by
  refine ⟨Nat.toDigits radix y.floor.natAbs, fun c hc => ?_, ?_⟩
  · obtain ⟨d, hd, rfl⟩ := Numeral.exists_digitChar_of_mem_toDigits hlow hc
    have hall : ∀ d < 16, ¬ isSign (Nat.digitChar d) := by decide
    exact hall d (by omega)
  · simp only [integerText, Binary64.isNegative, decide_eq_true_eq]
    split <;> rfl

/-- Capitals are no signs. -/
theorem isSign_toUpper (c : Char) : isSign c.toUpper = isSign c := by
  by_cases hascii : c.toNat < 128
  · exact forall_ascii (P := fun c => isSign c.toUpper = isSign c) (by decide) hascii
  · have hself : c.toUpper = c := by
      refine dif_neg fun hlower => ?_
      have hle : c.toNat ≤ 122 := UInt32.le_iff_toNat_le.mp hlower.2
      omega
    rw [hself]

theorem IsMinusSigned.map_toUpper (h : IsMinusSigned x cs) :
    IsMinusSigned x (cs.map Char.toUpper) := by
  obtain ⟨digits, hdigits, rfl⟩ := h
  refine ⟨digits.map Char.toUpper, fun c hc => ?_, ?_⟩
  · obtain ⟨d, hd, rfl⟩ := List.mem_map.mp hc
    rw [isSign_toUpper]
    exact hdigits d hd
  · rw [List.map_append]
    split <;> rfl

theorem IsMinusSigned.extendFraction (h : IsMinusSigned x cs) (precision : Nat) :
    IsMinusSigned x (extendFraction precision cs) := by
  obtain ⟨digits, hdigits, rfl⟩ := h
  obtain ⟨more, hmore, -, hchars⟩ := extendFraction_eq_append precision
    ((if x.isNegative then ['-'] else []) ++ digits)
  refine ⟨digits ++ more, fun c hc => ?_, by rw [hmore, List.append_assoc]⟩
  rcases List.mem_append.mp hc with hc | hc
  · exact hdigits c hc
  · rcases hchars c hc with rfl | rfl <;> decide

theorem isMinusSigned_body (s : Specifier) (x : Binary64) : IsMinusSigned x (s.body x) := by
  refine body_induction (isMinusSigned_text x) ?_ (fun _ h => h.map_toUpper)
    (fun precision _ h => h.extendFraction precision) s
  rintro y radix rfl hlow hhigh
  exact isMinusSigned_integerText hlow hhigh

/-- The sign in front of a number: a minus below zero, and elsewhere a plus where the flag asks for
one.  There is none in front of `nan`. -/
def leadingSign (s : Specifier) (x : Binary64) : List Char :=
  if x.isNegative then ['-'] else if s.flags.plus && x.isNonneg then ['+'] else []

/-- A number is its digits behind its sign. -/
theorem signed_eq_append (s : Specifier) (x : Binary64) :
    ∃ digits, (∀ c ∈ digits, ¬ isSign c) ∧ s.signed x = s.leadingSign x ++ digits := by
  obtain ⟨digits, hdigits, hbody⟩ := s.isMinusSigned_body x
  refine ⟨digits, hdigits, ?_⟩
  rw [signed, hbody, leadingSign]
  by_cases hnegative : x.isNegative
  · -- a plus is never put in front of a minus
    rw [Binary64.isNonneg_of_isNegative hnegative, Bool.and_false, if_pos hnegative,
      if_pos hnegative]
    rfl
  · rw [if_neg hnegative, if_neg hnegative]
    split <;> rfl

theorem leadingSign_cases (s : Specifier) (x : Binary64) :
    s.leadingSign x = [] ∨ s.leadingSign x = ['+'] ∨ s.leadingSign x = ['-'] :=
  ite_sign_cases _ _

theorem isSign_of_mem_leadingSign {s : Specifier} {c : Char} (hc : c ∈ s.leadingSign x) :
    isSign c := by
  rcases s.leadingSign_cases x with h | h | h <;> rw [h] at hc
  · cases hc
  · rw [List.mem_singleton.mp hc]
    rfl
  · rw [List.mem_singleton.mp hc]
    rfl

theorem minus_mem_leadingSign_iff {s : Specifier} : '-' ∈ s.leadingSign x ↔ x.isNegative := by
  unfold leadingSign
  split
  · next h => simp [h]
  · next h => split <;> simp [h]

theorem plus_mem_leadingSign_iff {s : Specifier} :
    '+' ∈ s.leadingSign x ↔ s.flags.plus = true ∧ x.isNonneg := by
  unfold leadingSign
  split
  · next h => simp [Binary64.isNonneg_of_isNegative h]
  · next h => split <;> simp_all

/-! ### The sign in the padded text -/

/-- In front of the sign stand blanks only, and no sign stands behind it. -/
theorem exists_apply_eq_append (s : Specifier) (x : Binary64) :
    ∃ blanks behind, s.apply x = List.replicate blanks ' ' ++ (s.leadingSign x ++ behind) ∧
      ∀ c ∈ behind, ¬ isSign c := by
  obtain ⟨digits, hdigits, hsigned⟩ := s.signed_eq_append x
  have hpad := s.pad_append (s.leadingSign_cases x)
    fun c hc => hdigits c (List.mem_of_mem_head? hc)
  generalize s.padding (s.leadingSign x ++ digits).length = p at hpad
  refine ⟨p.before, List.replicate p.zeros '0' ++ digits ++ List.replicate p.after ' ', ?_, ?_⟩
  · rw [apply, hsigned, hpad]
    simp only [List.append_assoc]
  · intro c hc
    simp only [List.mem_append] at hc
    rcases hc with (hc | hc) | hc
    · rw [List.eq_of_mem_replicate hc]
      decide
    · exact hdigits c hc
    · rw [List.eq_of_mem_replicate hc]
      decide

theorem mem_apply_iff {s : Specifier} {c : Char} (hc : isSign c) :
    c ∈ s.apply x ↔ c ∈ s.leadingSign x := by
  obtain ⟨blanks, behind, happly, hbehind⟩ := s.exists_apply_eq_append x
  rw [happly, List.mem_append, List.mem_append]
  constructor
  · rintro (hmem | hmem | hmem)
    · rw [List.eq_of_mem_replicate hmem] at hc
      exact absurd hc (by decide)
    · exact hmem
    · exact absurd hc (hbehind c hmem)
  · exact fun hmem => .inr (.inl hmem)

theorem countP_isSign_apply_le (s : Specifier) (x : Binary64) :
    (s.apply x).countP isSign ≤ 1 := by
  obtain ⟨blanks, behind, happly, hbehind⟩ := s.exists_apply_eq_append x
  have hblanks : (List.replicate blanks ' ').countP isSign = 0 :=
    List.countP_eq_zero.mpr fun c hc => by
      rw [List.eq_of_mem_replicate hc]
      decide
  rw [happly, List.countP_append, List.countP_append, hblanks, List.countP_eq_zero.mpr hbehind,
    Nat.zero_add, Nat.add_zero]
  rcases s.leadingSign_cases x with h | h | h <;> rw [h] <;> decide

/-- Nothing but blanks stands in front of a sign. -/
theorem eq_blank_of_apply_eq_append {s : Specifier} {front back : List Char} {sign : Char}
    (h : s.apply x = front ++ sign :: back) (hsign : isSign sign) : ∀ c ∈ front, c = ' ' := by
  obtain ⟨blanks, behind, happly, hbehind⟩ := s.exists_apply_eq_append x
  have hblanks : ∀ c ∈ List.replicate blanks ' ', c = ' ' := fun c hc => List.eq_of_mem_replicate hc
  rw [happly] at h
  rcases List.append_eq_append_iff.mp h with ⟨gone, rfl, hrest⟩ | ⟨gone, hfront, -⟩
  · -- the sign is the leading one, so that nothing is between it and the blanks
    cases gone with
    | nil => rwa [List.append_nil]
    | cons d gone =>
      have hmem : sign ∈ behind := by
        have hmem : sign ∈ gone ++ sign :: back := by simp
        rcases s.leadingSign_cases x with hlead | hlead | hlead <;> rw [hlead] at hrest
        · have hbehind : behind = d :: (gone ++ sign :: back) := hrest
          exact hbehind ▸ List.mem_cons_of_mem d hmem
        · have hbehind : behind = gone ++ sign :: back := (List.cons.inj hrest).2
          exact hbehind ▸ hmem
        · have hbehind : behind = gone ++ sign :: back := (List.cons.inj hrest).2
          exact hbehind ▸ hmem
      exact absurd hsign (hbehind sign hmem)
  · exact fun c hc => hblanks c (hfront ▸ List.mem_append_left gone hc)

/-! ### What a width does -/

/-- A width adds its block of fill characters behind the text, behind the sign, or in front. -/
theorem apply_of_width_eq_some (s : Specifier) (x : Binary64) (width : Nat) {bare wide : List Char}
    (hbare : bare = apply { s with width := none } x)
    (hwide : wide = apply { s with width := some width } x) :
    wide.length = max width bare.length ∧
    (s.flags.minus → wide = bare ++ List.replicate (width - bare.length) ' ') ∧
    (¬ s.flags.minus → s.flags.zero →
      wide = bare.takeWhile isSign ++
        (List.replicate (width - bare.length) '0' ++ bare.dropWhile isSign)) ∧
    (¬ s.flags.minus → ¬ s.flags.zero →
      wide = List.replicate (width - bare.length) ' ' ++ bare) := by
  have hsigned : bare = s.signed x := hbare.trans (apply_of_width_eq_none rfl x)
  have hpad : wide = pad { s with width := some width } bare := by
    rw [hwide, hsigned]
    rfl
  refine ⟨?_, fun hminus => ?_, fun hminus hzero => ?_, fun hminus hzero => ?_⟩
  · rw [hpad, length_pad]
    rfl
  · rw [hpad]
    exact if_pos hminus
  · obtain ⟨digits, hdigits, happend⟩ := s.signed_eq_append x
    have hhead : ∀ c ∈ digits.head?, ¬ isSign c := fun c hc => hdigits c (List.mem_of_mem_head? hc)
    have hlead : ∀ c ∈ s.leadingSign x, isSign c := fun c hc => isSign_of_mem_leadingSign hc
    have hbare' : bare = s.leadingSign x ++ digits := hsigned.trans happend
    have hfill : wide = zeroFill (List.replicate (width - bare.length) '0') bare := by
      rw [hpad]
      exact (if_neg hminus).trans (if_pos hzero)
    rw [hfill, hbare', takeWhile_append_of_head? hlead hhead,
      dropWhile_append_of_head? hlead hhead]
    exact zeroFill_append (s.leadingSign_cases x) hhead _
  · rw [hpad]
    exact (if_neg hminus).trans (if_neg hzero)

/-- No string has room for a greater width. -/
theorem applied?_of_maxBytes_lt {width : Nat} (h : maxBytes < width) (s : Specifier)
    (x : Binary64) : applied? { s with width := some width } x = none := by
  rw [applied?_eq_none_iff, apply, length_pad]
  exact h.trans_le (Nat.le_max_left _ _)

/-- What is too long without a width is too long with one. -/
theorem applied?_of_bare_eq_none {s : Specifier} {x : Binary64}
    (h : applied? { s with width := none } x = none) (width : Nat) :
    applied? { s with width := some width } x = none := by
  have hbare := apply_of_width_eq_none (s := { s with width := none }) rfl x
  rw [applied?_eq_none_iff, hbare] at h
  rw [applied?_eq_none_iff, apply, length_pad]
  exact h.trans_le (Nat.le_max_right _ _)

/-- A number under a specifier with a width is the same without it and one block of fill characters
more, up to the width: blanks behind it for the minus flag, whatever the zero flag is; else zeros
behind its sign for the zero flag; else blanks in front.  There is at most one sign in it, with
blanks only in front: a minus exactly if the number is below zero, and a plus exactly if the flag
asks for one and it is not.  So `nan` has none.  The alternate flag makes no difference.  The text
has as many bytes as characters.

All this holds of the texts that a string can hold.  A specifier that is read from a text asks for
no other; under one that is not, a number has no text if its width is beyond what a string can hold,
or if it has none without the width. -/
theorem filled_to_width (s : Specifier) (x : Binary64) :
    (∀ bare, applied? { s with width := none } x = some bare → ∀ width,
      (maxBytes < width → applied? { s with width := some width } x = none) ∧
      (width ≤ maxBytes → ∃ wide, applied? { s with width := some width } x = some wide ∧
        wide.length = max width bare.length ∧
        (s.flags.minus → wide = bare ++ List.replicate (width - bare.length) ' ') ∧
        (¬ s.flags.minus → s.flags.zero →
          wide = bare.takeWhile isSign ++
            (List.replicate (width - bare.length) '0' ++ bare.dropWhile isSign)) ∧
        (¬ s.flags.minus → ¬ s.flags.zero →
          wide = List.replicate (width - bare.length) ' ' ++ bare))) ∧
    (applied? { s with width := none } x = none →
      ∀ width, applied? { s with width := some width } x = none) ∧
    (s.IsBounded → ∃ text, s.applied? x = some text) ∧
    (∀ text, s.applied? x = some text →
      text.countP isSign ≤ 1 ∧
      (∀ front sign back, text = front ++ sign :: back → isSign sign → ∀ c ∈ front, c = ' ') ∧
      ('-' ∈ text ↔ x = .infinity true ∨ ∃ y, x = .finite y ∧ y.toRat < 0) ∧
      ('+' ∈ text ↔
        s.flags.plus = true ∧ (x = .infinity false ∨ ∃ y, x = .finite y ∧ 0 ≤ y.toRat)) ∧
      byteLength text = text.length) ∧
    ∀ alternate, applied? { s with flags := { s.flags with alternate } } x = s.applied? x := by
  refine ⟨fun bare hbare width => ⟨(applied?_of_maxBytes_lt · s x), fun hwidth => ?_⟩,
    applied?_of_bare_eq_none, fun hbounded => ⟨_, hbounded.applied?_eq_some x⟩,
    fun text htext => ?_, fun alternate => rfl⟩
  · obtain ⟨hbare, hfits⟩ := applied?_eq_some_iff.mp hbare
    have hlaws := s.apply_of_width_eq_some x width hbare.symm rfl
    refine ⟨_, applied?_eq_some_iff.mpr ⟨rfl, ?_⟩, hlaws⟩
    rw [hlaws.1]
    exact Nat.max_le.mpr ⟨hwidth, hfits⟩
  · obtain ⟨rfl, -⟩ := applied?_eq_some_iff.mp htext
    refine ⟨s.countP_isSign_apply_le x, fun front sign back => eq_blank_of_apply_eq_append, ?_, ?_,
      (s.isAscii_apply x).byteLength_eq⟩
    · rw [mem_apply_iff rfl, minus_mem_leadingSign_iff, Binary64.isNegative_iff]
    · rw [mem_apply_iff rfl, plus_mem_leadingSign_iff, Binary64.isNonneg_iff]

/-- One, which has a text of one character, has none that is as wide as a width can ask for. -/
theorem no_text_of_greatest_width :
    applied? {} (.finite ⟨false, 2 ^ 52, 1022, by decide⟩) = some ['1'] ∧
      applied? { width := some (2 ^ 64 - 1) } (.finite ⟨false, 2 ^ 52, 1022, by decide⟩) = none :=
  ⟨by decide +kernel, applied?_of_maxBytes_lt (by decide) {} _⟩

end Specifier

end TextTemplate
