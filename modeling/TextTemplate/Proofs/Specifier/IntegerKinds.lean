import Mathlib.Data.List.TakeWhile
import TextTemplate.Binary64.Rounding
import TextTemplate.Proofs.Binary64.Value
import TextTemplate.Proofs.Numeral.Digits
import TextTemplate.Proofs.Specifier.Grammar
import TextTemplate.Proofs.Specifier.Padding

/-!
# Integer kinds

Under an integer kind a number has the text of its floor, as long as that is below the limit
(`formatNumber_integer`): a sign, digits that read back as the magnitude of the floor, and for
decimals maybe zeros behind a point, with blanks around them.

The text is a function of the floor alone, `integerLayout`; `apply_eq_integerLayout` follows the
steps of writing a number to it, and everything else is read off it.
-/

namespace TextTemplate

/-- The limit of the integer kinds is a binary64 number, the one nearest to `1.7e38`. -/
theorem exists_toRat_eq_integralLimit : ∃ x : Binary64.Finite,
    Binary64.ofDecimal false ⟨17, 37⟩ = .finite x ∧ x.toRat = integralLimit := by
  have hquanta : Binary64.Finite.quanta ⟨false, 8999725064576941, 1148, by decide⟩ =
      ((integralLimit * Binary64.quantaPerUnit : Nat) : Int) := by decide +kernel
  refine ⟨⟨false, 8999725064576941, 1148, by decide⟩, by decide +kernel, ?_⟩
  rw [Binary64.Finite.toRat, div_eq_iff (by exact_mod_cast Binary64.Finite.quantaPerUnit_pos.ne'),
    hquanta, Int.cast_natCast, Nat.cast_mul]

namespace Specifier

/-! ### The parts of the text -/

namespace Kind

/-- The radix of an integer kind. -/
def radix? : Kind → Option Nat
  | decimal => some 10
  | lowerHex | upperHex => some 16
  | binary => some 2
  | octal => some 8
  | fixed | general => none

/-- The case in which a kind has its letters. -/
def spell : Kind → Char → Char
  | upperHex => Char.toUpper
  | _ => id

theorem radix?_bounds {k : Kind} {radix : Nat} (h : k.radix? = some radix) :
    1 < radix ∧ radix ≤ 16 := by
  cases k <;> simp [radix?] at h <;> omega

theorem digit?_spell (k : Kind) {radix d : Nat} (hradix : radix ≤ 16) (hd : d < radix) :
    Numeral.digit? radix (k.spell (Nat.digitChar d)) = some d := by
  refine Numeral.digit?_eq_some_of_lt hd ?_
  have hd16 : d < 16 := by omega
  cases k with
  | upperHex => exact Numeral.digit?_toUpper_digitChar d hd16
  | _ => exact Numeral.digit?_digitChar d hd16

/-- The digits of a kind are told apart from everything that can stand around them. -/
theorem spell_digitChar (k : Kind) : ∀ d < 16,
    k.spell (Nat.digitChar d) ≠ ' ' ∧ k.spell (Nat.digitChar d) ≠ '.' ∧
      ¬ isSign (k.spell (Nat.digitChar d)) := by
  cases k <;> decide

theorem case_spell_digitChar (k : Kind) : ∀ d < 16,
    (k = upperHex → ¬ (k.spell (Nat.digitChar d)).isLower) ∧
      (k ≠ upperHex → ¬ (k.spell (Nat.digitChar d)).isUpper) := by
  cases k <;> decide

end Kind

/-- The sign of an integer. -/
def sign (s : Specifier) (n : Int) : List Char :=
  if n < 0 then ['-'] else if s.flags.plus then ['+'] else []

/-- The digits of the magnitude of an integer. -/
def digits (s : Specifier) (radix : Nat) (n : Int) : List Char :=
  (Nat.toDigits radix n.natAbs).map s.kind.spell

/-- The zeros behind the point of an integer, with the point. -/
def fractionZeros (s : Specifier) : List Char :=
  match s.kind, s.precision with
  | .decimal, some (p + 1) => '.' :: List.replicate (p + 1) '0'
  | _, _ => []

/-- An integer under a specifier: its parts between the blanks and behind the zeros of the
padding. -/
def integerLayout (s : Specifier) (radix : Nat) (n : Int) : List Char :=
  let rest := s.digits radix n ++ s.fractionZeros
  let p := s.padding (s.sign n ++ rest).length
  List.replicate p.before ' ' ++ (s.sign n ++ (List.replicate p.zeros '0' ++ rest)) ++
    List.replicate p.after ' '

section Parts

variable {s : Specifier} {radix : Nat} {n : Int} {c : Char}

theorem sign_cases (s : Specifier) (n : Int) :
    s.sign n = [] ∨ s.sign n = ['+'] ∨ s.sign n = ['-'] :=
  ite_sign_cases _ _

theorem fractionZeros_cases (s : Specifier) :
    s.fractionZeros = [] ∨
      s.kind = .decimal ∧ ∃ n, s.fractionZeros = '.' :: List.replicate (n + 1) '0' := by
  unfold fractionZeros
  split
  · next p hkind _ => exact .inr ⟨hkind, p, rfl⟩
  · exact .inl rfl

theorem exists_spell_of_mem_digits (hradix : s.kind.radix? = some radix)
    (hc : c ∈ s.digits radix n) : ∃ d < 16, c = s.kind.spell (Nat.digitChar d) := by
  obtain ⟨hlow, hhigh⟩ := Kind.radix?_bounds hradix
  obtain ⟨b, hb, rfl⟩ := List.mem_map.mp hc
  obtain ⟨d, hd, rfl⟩ := Numeral.exists_digitChar_of_mem_toDigits hlow hb
  exact ⟨d, by omega, rfl⟩

theorem of_mem_digits (hradix : s.kind.radix? = some radix) (hc : c ∈ s.digits radix n) :
    c ≠ ' ' ∧ c ≠ '.' ∧ ¬ isSign c := by
  obtain ⟨d, hd, rfl⟩ := exists_spell_of_mem_digits hradix hc
  exact s.kind.spell_digitChar d hd

theorem case_of_mem_digits (hradix : s.kind.radix? = some radix) (hc : c ∈ s.digits radix n) :
    (s.kind = .upperHex → ¬ c.isLower) ∧ (s.kind ≠ .upperHex → ¬ c.isUpper) := by
  obtain ⟨d, hd, rfl⟩ := exists_spell_of_mem_digits hradix hc
  exact s.kind.case_spell_digitChar d hd

theorem of_mem_fractionZeros (hc : c ∈ s.fractionZeros) : c = '.' ∨ c = '0' := by
  rcases s.fractionZeros_cases with hnil | ⟨-, n, hzeros⟩
  · rw [hnil] at hc
    cases hc
  · rw [hzeros] at hc
    rcases List.mem_cons.mp hc with rfl | hc
    · exact .inl rfl
    · exact .inr (List.eq_of_mem_replicate hc)

theorem digits_of_ne (hkind : s.kind ≠ .upperHex) :
    s.digits radix n = Nat.toDigits radix n.natAbs := by
  unfold digits Kind.spell
  split
  · next h => exact absurd h hkind
  · exact List.map_id _

theorem fractionZeros_of_ne (hkind : s.kind ≠ .decimal) : s.fractionZeros = [] := by
  unfold fractionZeros
  split
  · next h _ => exact absurd h hkind
  · rfl

/-- The magnitude is read back from the digits, with the zeros of the padding in front. -/
theorem ofDigits?_digits (hradix : s.kind.radix? = some radix) (zeros : Nat) (n : Int) :
    Numeral.ofDigits? radix (List.replicate zeros '0' ++ s.digits radix n) = some n.natAbs := by
  obtain ⟨hlow, hhigh⟩ := Kind.radix?_bounds hradix
  exact Numeral.ofDigits?_toDigits hlow (fun d hd => s.kind.digit?_spell hhigh hd) zeros n.natAbs

end Parts

/-! ### Writing a number -/

section Writing

variable {s : Specifier} {radix : Nat} {x : Binary64.Finite}

theorem extendFraction_of_notMem {cs : List Char} (h : '.' ∉ cs) (precision : Nat) :
    extendFraction precision cs =
      if precision = 0 then cs else cs ++ '.' :: List.replicate precision '0' := by
  have hfraction : fraction cs = [] := by
    have hdrop : cs.dropWhile (· != '.') = [] := by
      rw [List.dropWhile_eq_nil_iff]
      intro c hc
      rw [bne_iff_ne]
      rintro rfl
      exact h hc
    rw [fraction, hdrop]
    rfl
  have hcontains : cs.contains '.' = false := by simpa using h
  simp only [extendFraction, hfraction, List.length_nil, Nat.sub_zero, hcontains]
  rfl

/-- Below the limit the floor is written with a minus sign in front of its digits. -/
theorem floorText_eq (hx : x.floor.natAbs < integralLimit) (radix : Nat) :
    x.floorText radix =
      (if x.floor < 0 then ['-'] else []) ++ Nat.toDigits radix x.floor.natAbs := by
  rw [Binary64.Finite.floorText, if_pos hx, integerText]
  split <;> rfl

theorem notMem_minus_append (hradix : s.kind.radix? = some radix) (n : Int) :
    '.' ∉ (if n < 0 then ['-'] else []) ++ s.digits radix n := by
  rw [List.mem_append, not_or]
  refine ⟨by split <;> decide, fun hmem => ?_⟩
  exact (of_mem_digits hradix hmem).2.1 rfl

/-- A decimal is extended by the zeros its precision asks for. -/
theorem extend_decimal {cs : List Char} (hkind : s.kind = .decimal) (h : '.' ∉ cs) :
    s.extend cs = cs ++ s.fractionZeros := by
  unfold extend fractionZeros
  rw [hkind]
  cases s.precision with
  | none => exact (List.append_nil cs).symm
  | some precision =>
    show extendFraction precision cs = _
    rw [extendFraction_of_notMem h]
    cases precision with
    | zero => exact (List.append_nil cs).symm
    | succ p => rfl

/-- Below the limit the body is the floor with a minus sign, and zeros behind it for decimals. -/
theorem body_finite (hradix : s.kind.radix? = some radix)
    (hx : x.floor.natAbs < integralLimit) :
    s.body (.finite x) =
      (if x.floor < 0 then ['-'] else []) ++ (s.digits radix x.floor ++ s.fractionZeros) := by
  have htext := floorText_eq hx radix
  have hpoint := notMem_minus_append hradix x.floor
  rw [← List.append_assoc]
  cases hkind : s.kind with
  | decimal =>
    -- the floor has no point yet, so the precision is met by a new one
    rw [hkind] at hradix
    cases hradix
    rw [← extend_decimal hkind hpoint, digits_of_ne (by rw [hkind]; decide), ← htext]
    simp only [body, hkind]
  | upperHex =>
    -- capitals leave the minus sign as it is
    rw [hkind] at hradix
    cases hradix
    rw [fractionZeros_of_ne (by rw [hkind]; decide), List.append_nil]
    simp only [body, hkind, htext, List.map_append, digits]
    split <;> rfl
  | lowerHex | binary | octal =>
    rw [hkind] at hradix
    cases hradix
    rw [fractionZeros_of_ne (by rw [hkind]; decide), List.append_nil,
      digits_of_ne (by rw [hkind]; decide)]
    simp only [body, hkind, htext]
  | fixed | general =>
    rw [hkind] at hradix
    cases hradix

/-- Below the limit the number is written with the sign of its floor. -/
theorem signed_finite (hradix : s.kind.radix? = some radix)
    (hx : x.floor.natAbs < integralLimit) :
    s.signed (.finite x) =
      s.sign x.floor ++ (s.digits radix x.floor ++ s.fractionZeros) := by
  have hnonneg := x.isNonneg_iff_floor
  rw [signed, body_finite hradix hx, sign]
  by_cases hneg : x.floor < 0
  · -- a plus is never put in front of a minus
    have hfalse : Binary64.isNonneg (.finite x) = false := by
      rw [← Bool.not_eq_true, hnonneg]
      omega
    rw [hfalse, Bool.and_false, if_pos hneg, if_pos hneg]
    rfl
  · have htrue : Binary64.isNonneg (.finite x) = true := hnonneg.mpr (by omega)
    rw [htrue, Bool.and_true, if_neg hneg, if_neg hneg]
    split <;> rfl

theorem not_isSign_head_digits (hradix : s.kind.radix? = some radix) (n : Int) :
    ∀ c ∈ (s.digits radix n ++ s.fractionZeros).head?, ¬ isSign c := by
  intro c hc
  have hne : s.digits radix n ≠ [] := by simp [digits]
  rw [List.head?_append_of_ne_nil _ hne] at hc
  exact (of_mem_digits hradix (List.mem_of_mem_head? hc)).2.2

/-- Below the limit a number is written as its floor. -/
theorem apply_eq_integerLayout (hradix : s.kind.radix? = some radix)
    (hx : x.floor.natAbs < integralLimit) :
    s.apply (.finite x) = s.integerLayout radix x.floor := by
  rw [apply, signed_finite hradix hx,
    pad_append s (sign_cases s _) (not_isSign_head_digits hradix _)]
  rfl

end Writing

/-! ### Reading the text -/

section Reading

variable {s : Specifier} {radix : Nat} {n : Int} {c : Char}

/-- An integer is its magnitude with its sign. -/
theorem eq_natAbs_of_sign (s : Specifier) (n : Int) :
    n = if s.sign n = ['-'] then -(n.natAbs : Int) else n.natAbs := by
  by_cases hneg : n < 0
  · rw [sign, if_pos hneg, if_pos rfl]
    omega
  · have hsign : s.sign n ≠ ['-'] := by
      rw [sign, if_neg hneg]
      split <;> simp
    rw [if_neg hsign]
    omega

theorem minus_mem_sign_iff : '-' ∈ s.sign n ↔ n < 0 := by
  unfold sign
  split
  · next h => simp [h]
  · next h => split <;> simp [h]

theorem plus_mem_sign_iff : '+' ∈ s.sign n ↔ s.flags.plus = true ∧ 0 ≤ n := by
  unfold sign
  split
  · next h => simp [h]
  · next h => split <;> simp_all

/-- What stands behind the sign, zeros of the padding included, holds no sign and no blank. -/
theorem of_mem_behind_sign (hradix : s.kind.radix? = some radix) {zeros : Nat}
    (hc : c ∈ List.replicate zeros '0' ++ (s.digits radix n ++ s.fractionZeros)) :
    c ≠ ' ' ∧ ¬ isSign c := by
  rcases List.mem_append.mp hc with hc | hc
  · rw [List.eq_of_mem_replicate hc]
    decide
  · rcases List.mem_append.mp hc with hc | hc
    · exact ⟨(of_mem_digits hradix hc).1, (of_mem_digits hradix hc).2.2⟩
    · rcases of_mem_fractionZeros hc with rfl | rfl <;> decide

/-- The only sign in the text is that of the integer. -/
theorem mem_integerLayout_iff (hradix : s.kind.radix? = some radix) (hc : isSign c) :
    c ∈ s.integerLayout radix n ↔ c ∈ s.sign n := by
  have hblank : ∀ k, c ∉ List.replicate k ' ' := by
    intro k hmem
    rw [List.eq_of_mem_replicate hmem] at hc
    exact absurd hc (by decide)
  constructor
  · intro hmem
    rcases List.mem_append.mp hmem with hmem | hmem
    · rcases List.mem_append.mp hmem with hmem | hmem
      · exact absurd hmem (hblank _)
      · rcases List.mem_append.mp hmem with hmem | hmem
        · exact hmem
        · exact absurd hc (of_mem_behind_sign hradix hmem).2
    · exact absurd hmem (hblank _)
  · intro hmem
    exact List.mem_append_left _ (List.mem_append_right _ (List.mem_append_left _ hmem))

/-- Between the blanks stand the sign, the digits behind some zeros, and the zeros behind the
point. -/
theorem stripBlanks_integerLayout (hradix : s.kind.radix? = some radix) (n : Int) :
    ∃ zeros, stripBlanks (s.integerLayout radix n) =
      s.sign n ++ (List.replicate zeros '0' ++ s.digits radix n) ++ s.fractionZeros := by
  refine ⟨(s.padding (s.sign n ++ (s.digits radix n ++ s.fractionZeros)).length).zeros, ?_⟩
  rw [integerLayout, stripBlanks_append]
  · simp only [List.append_assoc]
  · simp [digits]
  · intro hmem
    rcases List.mem_append.mp hmem with hmem | hmem
    · rcases s.sign_cases n with hsign | hsign | hsign <;> rw [hsign] at hmem <;>
        exact absurd hmem (by decide)
    · exact (of_mem_behind_sign hradix hmem).1 rfl

/-- Different integers have different texts. -/
theorem integerLayout_injective (hradix : s.kind.radix? = some radix) :
    Function.Injective (s.integerLayout radix) := by
  intro n m h
  have hneg : n < 0 ↔ m < 0 := by
    rw [← minus_mem_sign_iff (s := s), ← mem_integerLayout_iff hradix rfl, h,
      mem_integerLayout_iff hradix rfl, minus_mem_sign_iff]
  have hsign : s.sign n = s.sign m := by
    unfold sign
    rw [if_congr hneg rfl rfl]
  -- the signs agree, so they can be taken off, and the digits are left to be read
  obtain ⟨zeros, hn⟩ := stripBlanks_integerLayout hradix n
  obtain ⟨zeros', hm⟩ := stripBlanks_integerLayout hradix m
  rw [h, hm, hsign] at hn
  have hdigits := List.append_cancel_left (List.append_cancel_right hn)
  have hread := ofDigits?_digits hradix zeros n
  rw [← hdigits, ofDigits?_digits hradix zeros' m, Option.some.injEq] at hread
  omega

/-- The upper hexadecimal text is the lower one in capitals. -/
theorem map_toUpper_integerLayout {lower upper : Specifier} (hlower : lower.kind = .lowerHex)
    (hupper : upper.kind = .upperHex) (hflags : lower.flags = upper.flags)
    (hwidth : lower.width = upper.width) (n : Int) :
    (lower.integerLayout 16 n).map Char.toUpper = upper.integerLayout 16 n := by
  have hdigits : upper.digits 16 n = (lower.digits 16 n).map Char.toUpper := by
    have hlowerDigits : lower.digits 16 n = Nat.toDigits 16 n.natAbs :=
      digits_of_ne (by rw [hlower]; decide)
    rw [hlowerDigits, digits, hupper]
    rfl
  have hsign : upper.sign n = (lower.sign n).map Char.toUpper := by
    unfold sign
    rw [hflags]
    split
    · rfl
    · split <;> rfl
  have hlowerZeros : lower.fractionZeros = [] := fractionZeros_of_ne (by rw [hlower]; decide)
  have hupperZeros : upper.fractionZeros = [] := fractionZeros_of_ne (by rw [hupper]; decide)
  have hpadding : upper.padding = lower.padding := by
    funext length
    unfold padding
    rw [hflags, hwidth]
  have hblank : Char.toUpper ' ' = ' ' := rfl
  have hzero : Char.toUpper '0' = '0' := rfl
  simp only [integerLayout, hlowerZeros, hupperZeros, hsign, hdigits, hpadding, List.append_nil,
    List.map_append, List.map_replicate, List.length_append, List.length_map, hblank, hzero]

end Reading

/-! ### The text of a number under an integer kind -/

theorem formatNumber_eq_integerLayout {x : Binary64.Finite} {specifier : List Char} {radix : Nat}
    (hradix : (parse specifier).kind.radix? = some radix) (hx : |⌊x.toRat⌋| < integralLimit) :
    formatNumber (.finite x) (some specifier) =
      (parse specifier).integerLayout radix ⌊x.toRat⌋ := by
  have hlimit : x.floor.natAbs < integralLimit := x.abs_floor_lt_iff.mp hx
  rw [x.floor_toRat, formatNumber_some, apply_eq_integerLayout hradix hlimit]

/-- Under an integer kind a number below the limit is written as its floor: between blanks, a sign,
digits of the radix in the case of the kind which denote the floor with that sign, and nothing else
but zeros behind the point of a decimal.  A minus stands there exactly if the number is below zero,
a plus exactly if the flag asks for one and it is not.  Capitals are the only difference between
the two hexadecimal kinds, and numbers have the same text exactly if they have the same floor. -/
theorem formatNumber_integer {x : Binary64.Finite} {specifier : List Char} {radix : Nat}
    (hradix : (parse specifier).kind.radix? = some radix) (hx : |⌊x.toRat⌋| < integralLimit) :
    (∃ sign digits zeros,
      stripBlanks (formatNumber (.finite x) (some specifier)) = sign ++ digits ++ zeros ∧
      (sign = [] ∨ sign = ['+'] ∨ sign = ['-']) ∧
      (∃ magnitude : Nat, Numeral.ofDigits? radix digits = some magnitude ∧
        ⌊x.toRat⌋ = if sign = ['-'] then -(magnitude : Int) else magnitude) ∧
      (∀ c ∈ digits, ((parse specifier).kind = .upperHex → ¬ c.isLower) ∧
        ((parse specifier).kind ≠ .upperHex → ¬ c.isUpper)) ∧
      (zeros = [] ∨ (parse specifier).kind = .decimal ∧
        ∃ n, zeros = '.' :: List.replicate (n + 1) '0')) ∧
    ('-' ∈ formatNumber (.finite x) (some specifier) ↔ x.toRat < 0) ∧
    ('+' ∈ formatNumber (.finite x) (some specifier) ↔
      (parse specifier).flags.plus = true ∧ 0 ≤ x.toRat) ∧
    (∀ lower, (parse specifier).kind = .upperHex → (parse lower).kind = .lowerHex →
      (parse lower).flags = (parse specifier).flags →
      (parse lower).width = (parse specifier).width →
      formatNumber (.finite x) (some specifier) =
        (formatNumber (.finite x) (some lower)).map Char.toUpper) ∧
    ∀ y : Binary64.Finite, |⌊y.toRat⌋| < integralLimit →
      (formatNumber (.finite x) (some specifier) = formatNumber (.finite y) (some specifier) ↔
        ⌊x.toRat⌋ = ⌊y.toRat⌋) := by
  have htext := formatNumber_eq_integerLayout hradix hx
  refine ⟨?_, ?_, ?_, fun lower hupper hlower hflags hwidth => ?_, fun y hy => ?_⟩
  · obtain ⟨zeros, hstrip⟩ := stripBlanks_integerLayout hradix ⌊x.toRat⌋
    refine ⟨(parse specifier).sign ⌊x.toRat⌋, _, _, htext ▸ hstrip, sign_cases _ _,
      ⟨_, ofDigits?_digits hradix zeros _, eq_natAbs_of_sign _ _⟩, fun c hc => ?_,
      fractionZeros_cases _⟩
    rcases List.mem_append.mp hc with hc | hc
    · rw [List.eq_of_mem_replicate hc]
      exact ⟨fun _ => by decide, fun _ => by decide⟩
    · exact case_of_mem_digits hradix hc
  · rw [htext, mem_integerLayout_iff hradix rfl, minus_mem_sign_iff, x.toRat_neg_iff, x.floor_toRat]
  · rw [htext, mem_integerLayout_iff hradix rfl, plus_mem_sign_iff, x.toRat_nonneg_iff,
      x.floor_toRat]
  · rw [hupper] at hradix
    cases hradix
    have hlowerRadix : (parse lower).kind.radix? = some 16 := by
      rw [hlower]
      rfl
    rw [htext, formatNumber_eq_integerLayout hlowerRadix hx,
      map_toUpper_integerLayout hlower hupper hflags hwidth]
  · rw [htext, formatNumber_eq_integerLayout hradix hy]
    exact (integerLayout_injective hradix).eq_iff

theorem formatNumber_integer_decimal :
    ∃ x : Binary64.Finite, ⌊x.toRat⌋ = -3 ∧
      (parse ['+', '0', '8', '.', '2', 'd']).kind.radix? = some 10 ∧
      |⌊x.toRat⌋| < integralLimit ∧
      '-' ∈ formatNumber (.finite x) (some ['+', '0', '8', '.', '2', 'd']) := by
  let x : Binary64.Finite := ⟨true, 5 * 2 ^ 50, 1023, by decide⟩
  have hfloor : ⌊x.toRat⌋ = -3 := by
    rw [x.floor_toRat]
    decide +kernel
  have hradix : (parse ['+', '0', '8', '.', '2', 'd']).kind.radix? = some 10 := rfl
  have hx : |⌊x.toRat⌋| < integralLimit := by
    rw [hfloor]
    decide
  have hneg : x.toRat < 0 := by
    rw [x.toRat_neg_iff, ← x.floor_toRat, hfloor]
    decide
  exact ⟨x, hfloor, hradix, hx, (formatNumber_integer hradix hx).2.1.mpr hneg⟩

end Specifier

end TextTemplate
