import Mathlib.Algebra.Group.Nat.Defs
import Mathlib.Data.List.DropRight
import Mathlib.Data.List.Induction
import TextTemplate.Numeral
import TextTemplate.Proofs.Text.Runs

/-!
# Reading written digits

The digits of a number in a radix up to sixteen read back as the number (`ofDigits?_toDigits`),
with letters of either case and with zeros in front.  A run of decimal digits denotes the one number
of which it is the numeral behind some zeros (`Denotes`, `ofDigits_eq_iff`).  Its significant digits
are what is left of it without the zeros at its ends (`exists_zeros_append_significant`).
-/

namespace TextTemplate.Numeral

/-! ### Single digits -/

/-- The characters of a numeral are digits below the radix. -/
theorem exists_digitChar_of_mem_toDigits {radix n : Nat} {c : Char} (hradix : 1 < radix)
    (hc : c ∈ Nat.toDigits radix n) : ∃ d < radix, c = Nat.digitChar d := by
  induction n using Nat.base_induction radix hradix with
  | single d hd =>
    rw [Nat.toDigits_of_lt_base hd, List.mem_singleton] at hc
    exact ⟨d, hd, hc⟩
  | digit m d hd hm ih =>
    rw [← Nat.toDigits_append_toDigits hradix hm hd, List.mem_append] at hc
    rcases hc with hc | hc
    · exact ih hc
    · rw [Nat.toDigits_of_lt_base hd, List.mem_singleton] at hc
      exact ⟨d, hd, hc⟩

theorem digit?_eq_some_of_lt {radix d : Nat} {c : Char} (hd : d < radix)
    (h : digit? 16 c = some d) : digit? radix c = some d := by
  unfold digit? at h ⊢
  rw [Option.filter_eq_some_iff] at h ⊢
  exact ⟨h.1, by simpa using hd⟩

theorem digit?_digitChar : ∀ d < 16, digit? 16 (Nat.digitChar d) = some d := by decide

theorem digit?_toUpper_digitChar : ∀ d < 16, digit? 16 (Nat.digitChar d).toUpper = some d := by
  decide

/-! ### Runs of digits -/

/-- The number denoted by a run of digits behind the digits of `n`. -/
def readFrom (radix n : Nat) (digits : List Char) : Option Nat :=
  digits.foldlM (fun n c => (digit? radix c).map (radix * n + ·)) n

theorem ofDigits?_of_ne_nil {radix : Nat} {digits : List Char} (h : digits ≠ []) :
    ofDigits? radix digits = readFrom radix 0 digits := by
  cases digits with
  | nil => exact absurd rfl h
  | cons c digits => rfl

theorem readFrom_append (radix n : Nat) (s t : List Char) :
    readFrom radix n (s ++ t) = (readFrom radix n s).bind fun m => readFrom radix m t := by
  rw [readFrom, List.foldlM_append]
  rfl

theorem readFrom_singleton {radix n d : Nat} {c : Char} (h : digit? radix c = some d) :
    readFrom radix n [c] = some (radix * n + d) := by
  rw [readFrom, List.foldlM_cons, h]
  rfl

theorem readFrom_replicate_zero {radix : Nat} (hradix : 0 < radix) (k : Nat) :
    readFrom radix 0 (List.replicate k '0') = some 0 := by
  have hzero : digit? radix '0' = some 0 := by
    unfold digit?
    rw [Option.filter_eq_some_iff]
    exact ⟨rfl, by simpa using hradix⟩
  induction k with
  | zero => rfl
  | succ k ih =>
    rw [List.replicate_succ', readFrom_append, ih]
    exact readFrom_singleton hzero

/-- Written digits read back, however each of them is spelled. -/
theorem readFrom_toDigits {radix : Nat} {spell : Char → Char} (hradix : 1 < radix)
    (hspell : ∀ d < radix, digit? radix (spell (Nat.digitChar d)) = some d) (n : Nat) :
    readFrom radix 0 ((Nat.toDigits radix n).map spell) = some n := by
  induction n using Nat.base_induction radix hradix with
  | single d hd =>
    rw [Nat.toDigits_of_lt_base hd, List.map_singleton, readFrom_singleton (hspell d hd),
      Nat.mul_zero, Nat.zero_add]
  | digit m d hd hm ih =>
    -- `radix * m + d` is written as `m` with one digit behind it
    rw [← Nat.toDigits_append_toDigits hradix hm hd, List.map_append, readFrom_append, ih,
      Nat.toDigits_of_lt_base hd]
    exact readFrom_singleton (hspell d hd)

/-- The digits of a number read back behind any number of zeros, however they are spelled. -/
theorem ofDigits?_toDigits {radix : Nat} {spell : Char → Char} (hradix : 1 < radix)
    (hspell : ∀ d < radix, digit? radix (spell (Nat.digitChar d)) = some d) (zeros n : Nat) :
    ofDigits? radix (List.replicate zeros '0' ++ (Nat.toDigits radix n).map spell) = some n := by
  have hne : List.replicate zeros '0' ++ (Nat.toDigits radix n).map spell ≠ [] := by simp
  rw [ofDigits?_of_ne_nil hne, readFrom_append, readFrom_replicate_zero (by omega)]
  exact readFrom_toDigits hradix hspell n

/-! ### Runs of decimal digits -/

/-- The digits are the decimal numeral of a number, behind any number of zeros. -/
def Denotes (digits : List Char) (n : Nat) : Prop :=
  ∃ zeros, digits = List.replicate zeros '0' ++ Nat.toDigits 10 n

theorem toDigits_injective : Function.Injective (Nat.toDigits 10) := by
  intro m n h
  rw [← ofDigits_toDigits m, h, ofDigits_toDigits]

theorem denotes_toDigits (n : Nat) : Denotes (Nat.toDigits 10 n) n := ⟨0, rfl⟩

theorem Denotes.ne_nil {digits : List Char} {n : Nat} (h : Denotes digits n) : digits ≠ [] := by
  obtain ⟨zeros, rfl⟩ := h
  simp

theorem exists_digitChar_of_isDigit {c : Char} (h : c.isDigit) :
    ∃ d < 10, c = Nat.digitChar d ∧ c.toNat - '0'.toNat = d := by
  have hbounds : 48 ≤ c.toNat ∧ c.toNat ≤ 57 := Char.isDigit_iff_toNat.mp h
  refine ⟨c.toNat - 48, by omega, ?_, rfl⟩
  apply Char.toNat_inj.mp
  rw [Nat.toNat_digitChar_of_lt_ten (by omega)]
  omega

theorem ofDigits_concat (digits : List Char) (c : Char) :
    ofDigits (digits ++ [c]) = 10 * ofDigits digits + (c.toNat - '0'.toNat) := by
  rw [ofDigits, Nat.ofDigitChars_append, Nat.ofDigitChars_cons, Nat.ofDigitChars_nil]
  rfl

/-- A run of digits is the numeral of the number it denotes, behind some zeros. -/
theorem denotes_ofDigits {digits : List Char} (hne : digits ≠ [])
    (hdigits : ∀ c ∈ digits, c.isDigit) : Denotes digits (ofDigits digits) := by
  induction digits using List.reverseRecOn with
  | nil => exact absurd rfl hne
  | append_singleton digits c ih =>
    obtain ⟨d, hd, hc, hvalue⟩ := exists_digitChar_of_isDigit (hdigits c (by simp))
    have hlast : Nat.toDigits 10 d = [c] := by rw [Nat.toDigits_of_lt_base hd, hc]
    have hconcat : ofDigits (digits ++ [c]) = 10 * ofDigits digits + d := by
      rw [ofDigits_concat, hvalue]
    by_cases hnil : digits = []
    · subst hnil
      refine ⟨0, ?_⟩
      rw [hconcat]
      show [c] = Nat.toDigits 10 (10 * 0 + d)
      rw [Nat.mul_zero, Nat.zero_add, hlast]
    · obtain ⟨zeros, hzeros⟩ := ih hnil fun b hb => hdigits b (by simp [hb])
      by_cases hzero : ofDigits digits = 0
      · -- all digits so far are zeros, which the last one has in front of it
        refine ⟨zeros + 1, ?_⟩
        rw [hzero] at hconcat hzeros
        rw [hconcat, Nat.mul_zero, Nat.zero_add, hlast, List.replicate_succ',
          ← Nat.toDigits_zero 10, ← hzeros]
      · refine ⟨zeros, ?_⟩
        rw [hconcat, ← Nat.toDigits_append_toDigits (by decide) (Nat.pos_of_ne_zero hzero) hd,
          hlast, ← List.append_assoc, ← hzeros]

theorem ofDigits_zeros_append (n : Nat) (digits : List Char) :
    ofDigits (List.replicate n '0' ++ digits) = ofDigits digits := by
  rw [ofDigits, Nat.ofDigitChars_append, Nat.ofDigitChars_replicate_zero, Nat.mul_zero]
  rfl

/-- A run of digits denotes the one number of which it is the numeral behind some zeros. -/
theorem ofDigits_eq_iff {digits : List Char} (hne : digits ≠ [])
    (hdigits : ∀ c ∈ digits, c.isDigit) {n : Nat} : ofDigits digits = n ↔ Denotes digits n := by
  constructor
  · rintro rfl
    exact denotes_ofDigits hne hdigits
  · rintro ⟨zeros, rfl⟩
    rw [ofDigits_zeros_append, ofDigits_toDigits]

theorem ofDigits_append_zeros (digits : List Char) (n : Nat) :
    ofDigits (digits ++ List.replicate n '0') = ofDigits digits * 10 ^ n := by
  induction n with
  | zero =>
    rw [List.replicate_zero, List.append_nil]
    exact (Nat.mul_one _).symm
  | succ n ih =>
    have hpow : 10 ^ (n + 1) = 10 ^ n * 10 := Nat.pow_succ ..
    have hzero : '0'.toNat - '0'.toNat = 0 := rfl
    rw [List.replicate_succ', ← List.append_assoc, ofDigits_concat, ih, hpow, hzero, Nat.add_zero,
      Nat.mul_comm 10, Nat.mul_assoc]

theorem ofDigits_lt {digits : List Char} (hdigits : ∀ c ∈ digits, c.isDigit) :
    ofDigits digits < 10 ^ digits.length := by
  induction digits using List.reverseRecOn with
  | nil => exact Nat.one_pos
  | append_singleton digits c ih =>
    obtain ⟨d, hd, -, hvalue⟩ := exists_digitChar_of_isDigit (hdigits c (by simp))
    have hpow : 10 ^ (digits.length + 1) = 10 ^ digits.length * 10 := Nat.pow_succ ..
    have hlt := ih fun b hb => hdigits b (by simp [hb])
    rw [ofDigits_concat, hvalue, List.length_append, List.length_singleton, hpow]
    omega

/-- Zeros behind the digits of a number multiply it by a power of ten. -/
theorem toDigits_mul_pow {n : Nat} (h : n ≠ 0) (zeros : Nat) :
    Nat.toDigits 10 (n * 10 ^ zeros) = Nat.toDigits 10 n ++ List.replicate zeros '0' := by
  induction zeros with
  | zero =>
    rw [List.replicate_zero, List.append_nil]
    exact congrArg _ (Nat.mul_one n)
  | succ zeros ih =>
    have hpos : 0 < n * 10 ^ zeros :=
      Nat.mul_pos (Nat.pos_of_ne_zero h) (Nat.pow_pos (by decide))
    have hpow : n * 10 ^ (zeros + 1) = 10 * (n * 10 ^ zeros) + 0 := by
      have hsucc : 10 ^ (zeros + 1) = 10 ^ zeros * 10 := Nat.pow_succ ..
      rw [hsucc, Nat.add_zero, Nat.mul_comm 10, Nat.mul_assoc]
    rw [hpow, ← Nat.toDigits_append_toDigits (by decide) hpos (by decide), ih,
      List.replicate_succ', List.append_assoc]
    rfl

/-! ### Significant digits -/

/-- A run of digits without the zeros at its ends. -/
def significant (digits : List Char) : List Char :=
  (digits.dropWhile (· == '0')).rdropWhile (· == '0')

theorem eq_replicate_zero {run : List Char} (h : ∀ c ∈ run, c = '0') :
    run = List.replicate run.length '0' := by
  rw [List.eq_replicate_iff]
  exact ⟨rfl, h⟩

theorem exists_zeros_append_significant (digits : List Char) :
    ∃ before after, digits =
      List.replicate before '0' ++ (significant digits ++ List.replicate after '0') := by
  let rest := digits.dropWhile (· == '0')
  have hbefore : ∀ c ∈ digits.takeWhile (· == '0'), c = '0' := fun c hc => by
    simpa using List.mem_takeWhile_imp hc
  have hafter : ∀ c ∈ rest.rtakeWhile (· == '0'), c = '0' := fun c hc => by
    simpa using List.mem_rtakeWhile_imp hc
  refine ⟨(digits.takeWhile (· == '0')).length, (rest.rtakeWhile (· == '0')).length, ?_⟩
  rw [← eq_replicate_zero hbefore, ← eq_replicate_zero hafter, significant,
    List.rdropWhile_append_rtakeWhile, List.takeWhile_append_dropWhile]

/-- Zeros around a run of digits that neither begins nor ends with one are not significant. -/
theorem significant_append {digits : List Char} (hne : digits ≠ [])
    (hhead : digits.head? ≠ some '0') (hlast : digits.getLast? ≠ some '0') (before after : Nat) :
    significant (List.replicate before '0' ++ (digits ++ List.replicate after '0')) = digits := by
  have hzeros : ∀ n, ∀ c ∈ List.replicate n '0', (c == '0') = true := by
    intro n c hc
    simpa using List.eq_of_mem_replicate hc
  have hfront : ∀ c ∈ (digits ++ List.replicate after '0').head?, ¬ (c == '0') = true := by
    intro c hc
    rw [List.head?_append_of_ne_nil _ hne] at hc
    rw [beq_iff_eq]
    rintro rfl
    exact hhead hc
  have hback : ∀ c ∈ digits.reverse.head?, ¬ (c == '0') = true := by
    intro c hc
    rw [List.head?_reverse] at hc
    rw [beq_iff_eq]
    rintro rfl
    exact hlast hc
  rw [significant, dropWhile_append_of_head? (hzeros before) hfront, List.rdropWhile,
    List.reverse_append, List.reverse_replicate, dropWhile_append_of_head? (hzeros after) hback,
    List.reverse_reverse]

end TextTemplate.Numeral
