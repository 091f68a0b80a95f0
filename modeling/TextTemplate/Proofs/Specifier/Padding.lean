import Mathlib.Data.List.DropRight
import TextTemplate.Specifier.Format

/-!
# Padding

Filling a text up to a width puts one block of fill characters into it: blanks in front or behind,
or zeros behind the sign (`pad_append`).  The width is a least length (`length_pad`).  Blanks at the
ends of the text can be taken off again (`stripBlanks_append`).
-/

namespace TextTemplate.Specifier

/-- How many fill characters go to each place: blanks in front, zeros behind the sign, and blanks
behind. -/
structure Padding where
  before : Nat
  zeros : Nat
  after : Nat

/-- The padding of a text of the given length. -/
def padding (s : Specifier) (length : Nat) : Padding :=
  let missing := s.width.getD 0 - length
  if s.flags.minus then ⟨0, 0, missing⟩
  else if s.flags.zero then ⟨0, missing, 0⟩
  else ⟨missing, 0, 0⟩

/-- Whether a character is a sign. -/
def isSign (c : Char) : Bool := c == '+' || c == '-'

theorem not_isSign_of_isDigit {c : Char} (h : c.isDigit) : ¬ isSign c := by
  rw [isSign, Bool.or_eq_true, beq_iff_eq, beq_iff_eq]
  rintro (rfl | rfl) <;> exact absurd h (by decide)

/-- A sign is nothing, a plus or a minus. -/
theorem ite_sign_cases (minus plus : Prop) [Decidable minus] [Decidable plus] :
    let sign := if minus then ['-'] else if plus then ['+'] else []
    sign = [] ∨ sign = ['+'] ∨ sign = ['-'] := by
  intro sign
  by_cases hminus : minus
  · exact .inr (.inr (if_pos hminus))
  · by_cases hplus : plus
    · exact .inr (.inl ((if_neg hminus).trans (if_pos hplus)))
    · exact .inl ((if_neg hminus).trans (if_neg hplus))

theorem zeroFill_of_not_isSign {zeros cs : List Char} (h : ∀ c ∈ cs.head?, ¬ isSign c) :
    zeroFill zeros cs = zeros ++ cs := by
  unfold zeroFill
  split
  · exact absurd rfl (h '+' rfl)
  · exact absurd rfl (h '-' rfl)
  · rfl

/-- Zeros go behind the sign, where there is one. -/
theorem zeroFill_append {sign digits : List Char}
    (hsign : sign = [] ∨ sign = ['+'] ∨ sign = ['-'])
    (hdigits : ∀ c ∈ digits.head?, ¬ isSign c) (zeros : List Char) :
    zeroFill zeros (sign ++ digits) = sign ++ (zeros ++ digits) := by
  rcases hsign with rfl | rfl | rfl
  · exact zeroFill_of_not_isSign hdigits
  · rfl
  · rfl

/-- Padding leaves a text as it is but for one block of fill characters. -/
theorem pad_append (s : Specifier) {sign digits : List Char}
    (hsign : sign = [] ∨ sign = ['+'] ∨ sign = ['-'])
    (hdigits : ∀ c ∈ digits.head?, ¬ isSign c) :
    s.pad (sign ++ digits) =
      List.replicate (s.padding (sign ++ digits).length).before ' ' ++
        (sign ++ (List.replicate (s.padding (sign ++ digits).length).zeros '0' ++ digits)) ++
        List.replicate (s.padding (sign ++ digits).length).after ' ' := by
  unfold pad padding
  split
  · simp
  · split
    · simp [zeroFill_append hsign hdigits]
    · simp

theorem length_zeroFill (zeros cs : List Char) :
    (zeroFill zeros cs).length = zeros.length + cs.length := by
  unfold zeroFill
  split <;> simp only [List.length_cons, List.length_append] <;> omega

/-- A width is a least length. -/
theorem length_pad (s : Specifier) (cs : List Char) :
    (s.pad cs).length = max (s.width.getD 0) cs.length := by
  have hmissing : s.width.getD 0 - cs.length + cs.length = max (s.width.getD 0) cs.length := by
    omega
  rw [← hmissing]
  simp only [pad]
  split
  · rw [List.length_append, List.length_replicate, Nat.add_comm]
  · split
    · rw [length_zeroFill, List.length_replicate]
    · rw [List.length_append, List.length_replicate]

/-- A text as long as the width stays as it is. -/
theorem pad_of_le {s : Specifier} {cs : List Char} (h : s.width.getD 0 ≤ cs.length) :
    s.pad cs = cs := by
  have hmissing : s.width.getD 0 - cs.length = 0 := Nat.sub_eq_zero_of_le h
  have hzeros : zeroFill [] cs = cs := by
    unfold zeroFill
    split <;> rfl
  simp only [pad, hmissing, List.replicate_zero, List.append_nil, List.nil_append, hzeros, ite_self]

theorem apply_of_width_eq_none {s : Specifier} (h : s.width = none) (x : Binary64) :
    s.apply x = s.signed x :=
  pad_of_le (by rw [h]; exact Nat.zero_le _)

/-- The specifier that asks for a kind and for nothing else. -/
def Kind.alone (kind : Kind) : Specifier := { kind }

theorem Kind.parse_code (kind : Kind) : parse kind.code = kind.alone := by
  cases kind <;> decide

theorem Kind.apply_alone (kind : Kind) (x : Binary64) : kind.alone.apply x = kind.alone.body x :=
  apply_of_width_eq_none rfl x

/-! ### Taking blanks off -/

/-- The text without the blanks at its ends. -/
def stripBlanks (text : List Char) : List Char := (text.dropWhile (· == ' ')).rdropWhile (· == ' ')

theorem dropWhile_blank_cons {c : Char} (hc : c ≠ ' ') (text : List Char) :
    (c :: text).dropWhile (· == ' ') = c :: text := by
  rw [List.dropWhile_cons, if_neg (by simpa using hc)]

theorem dropWhile_blank_of_notMem {text : List Char} (h : ' ' ∉ text) :
    text.dropWhile (· == ' ') = text := by
  cases text with
  | nil => rfl
  | cons c text => exact dropWhile_blank_cons (fun hc => h (hc ▸ List.mem_cons_self)) text

theorem dropWhile_replicate_blank_append (n : Nat) (text : List Char) :
    (List.replicate n ' ' ++ text).dropWhile (· == ' ') = text.dropWhile (· == ' ') := by
  rw [List.dropWhile_append_of_pos]
  intro c hc
  rw [List.eq_of_mem_replicate hc]
  rfl

/-- A text without blanks is what is left of it between blanks. -/
theorem stripBlanks_append {text : List Char} (hne : text ≠ []) (h : ' ' ∉ text)
    (before after : Nat) :
    stripBlanks (List.replicate before ' ' ++ text ++ List.replicate after ' ') = text := by
  obtain ⟨c, text, rfl⟩ := List.exists_cons_of_ne_nil hne
  have hc : c ≠ ' ' := fun hc => h (hc ▸ List.mem_cons_self)
  have hreverse : ' ' ∉ (c :: text).reverse := fun hmem => h (List.mem_reverse.mp hmem)
  rw [stripBlanks, List.append_assoc, dropWhile_replicate_blank_append, List.cons_append,
    dropWhile_blank_cons hc, ← List.cons_append, List.rdropWhile, List.reverse_append,
    List.reverse_replicate, dropWhile_replicate_blank_append,
    dropWhile_blank_of_notMem hreverse, List.reverse_reverse]

end TextTemplate.Specifier
