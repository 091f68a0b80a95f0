import TextTemplate.Proofs.Specifier.Grammar

/-!
# Numbers read as specifiers

The default text of a number is the text of a specifier too: its minus sign is a flag, its whole
part a width and its fraction a precision (`parse_text`).  The zero of a number below one in
magnitude is a flag and leaves no width.
-/

namespace TextTemplate.Specifier

/-- Flags, a width and a precision are read as what they are, if the width does not begin with a
flag. -/
theorem parse_append_pointed {flags width precision : List Char}
    (hflags : ∀ c ∈ flags, Flags.isFlag c) (hwidth : ∀ c ∈ width, c.isDigit)
    (hprecision : ∀ c ∈ precision, c.isDigit) (hzero : width.head? ≠ some '0') :
    parse (flags ++ pointed width precision) =
      { flags := Flags.ofChars flags
        width := padding? width
        precision := padding? precision } := by
  let parts : Parts := ⟨flags, width, precision, []⟩
  have hdivides : parts.Divides (flags ++ pointed width precision) := by
    have hkind : ∀ c ∈ parts.kind.head?, ¬ Flags.isFlag c ∧ ¬ c.isDigit ∧ c ≠ '.' := by
      intro c hc
      cases hc
    have h : parts.Divides (flags ++ (width ++ (parts.point ++ []))) :=
      Parts.divides_append hflags hwidth hzero hprecision hkind
    rwa [List.append_nil] at h
  exact hdivides.parse_eq

section Sign

variable (negative : Prop) [Decidable negative]

theorem isFlag_of_mem_sign {c : Char} (hc : c ∈ if negative then ['-'] else []) :
    Flags.isFlag c := by
  split at hc
  · rw [List.mem_singleton.mp hc]
    rfl
  · cases hc

theorem ofChars_sign :
    Flags.ofChars (if negative then ['-'] else []) = { minus := negative } := by
  by_cases h : negative
  · rw [if_pos h, decide_eq_true h]
    rfl
  · rw [if_neg h, decide_eq_false h]
    rfl

theorem ofChars_sign_zero :
    Flags.ofChars ((if negative then ['-'] else []) ++ ['0']) =
      { minus := negative, zero := true } := by
  by_cases h : negative
  · rw [if_pos h, decide_eq_true h]
    rfl
  · rw [if_neg h, decide_eq_false h]
    rfl

end Sign

/-- What the text of a finite number asks for as a specifier. -/
theorem parse_text (x : Binary64.Finite) :
    ∃ whole fraction,
      x.text = (if x.quanta < 0 then ['-'] else []) ++ pointed whole fraction ∧
        IsWhole whole ∧ (∀ c ∈ fraction, c.isDigit) ∧
        parse x.text =
          { flags := { minus := x.quanta < 0, zero := whole = ['0'] }
            width := if whole = ['0'] then none else padding? whole
            precision := padding? fraction } := by
  obtain ⟨whole, fraction, htext, hwhole, hfraction⟩ := x.text_eq_pointed
  refine ⟨whole, fraction, htext, hwhole, hfraction, ?_⟩
  rw [htext]
  by_cases hzero : whole = ['0']
  · -- the zero goes to the flags
    subst hzero
    have hflags : ∀ c ∈ (if x.quanta < 0 then ['-'] else []) ++ ['0'], Flags.isFlag c := by
      intro c hc
      rcases List.mem_append.mp hc with hc | hc
      · exact isFlag_of_mem_sign _ hc
      · rw [List.mem_singleton.mp hc]
        rfl
    have hparse := parse_append_pointed hflags (fun c hc => absurd hc List.not_mem_nil) hfraction
      (by decide)
    rw [List.append_assoc, ofChars_sign_zero] at hparse
    exact hparse
  · have hhead := hwhole.eq_or_head?.resolve_left hzero
    rw [parse_append_pointed (fun c => isFlag_of_mem_sign _) hwhole.isDigit hfraction hhead,
      ofChars_sign, if_neg hzero, decide_eq_false hzero]

end TextTemplate.Specifier
