/-!
# Numerals

Digit runs and the natural numbers they denote, in a radix up to sixteen.  `ofDigits` reads a run
of digits, leading zeros allowed; `ofDigits?` refuses what is not a run of digits of the radix;
`index?` accepts the one written form of a number without superfluous zeros, so that each number
is reached by exactly one text (`index?_eq_some_iff`).  Writing is the core library's
`Nat.toDigits`.
-/

namespace TextTemplate.Numeral

/-! ### Digits -/

/-- The value of a digit, letters of either case standing for ten and above; `none` for a
character that is no digit of the radix. -/
def digit? (radix : Nat) (c : Char) : Option Nat :=
  let value? :=
    if '0' ≤ c ∧ c ≤ '9' then some (c.toNat - '0'.toNat)
    else if 'a' ≤ c ∧ c ≤ 'f' then some (c.toNat - 'a'.toNat + 10)
    else if 'A' ≤ c ∧ c ≤ 'F' then some (c.toNat - 'A'.toNat + 10)
    else none
  value?.filter (· < radix)

/-! ### Runs of digits -/

/-- The number a run of decimal digits denotes. -/
def ofDigits (digits : List Char) : Nat :=
  Nat.ofDigitChars 10 digits 0

/-- The number a non-empty run of digits of the radix denotes. -/
def ofDigits? (radix : Nat) : List Char → Option Nat
  | [] => none
  | digits => digits.foldlM (fun n c => (digit? radix c).map (radix * n + ·)) 0

@[simp]
theorem ofDigits_toDigits (n : Nat) : ofDigits (Nat.toDigits 10 n) = n :=
  Nat.ofDigitChars_toDigits (by decide) (by decide)

/-! ### Canonical numerals -/

/-- The number of which `text` is the decimal numeral: ASCII digits without a sign and without
leading zeros. -/
def index? (text : List Char) : Option Nat :=
  if Nat.toDigits 10 (ofDigits text) = text then some (ofDigits text) else none

theorem index?_eq_some_iff {text : List Char} {n : Nat} :
    index? text = some n ↔ text = Nat.toDigits 10 n := by
  unfold index?
  constructor
  · intro h
    split at h
    · next h' => rw [← Option.some.inj h, h']
    · cases h
  · rintro rfl
    simp

end TextTemplate.Numeral
