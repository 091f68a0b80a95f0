import TextTemplate.Proofs.Decimal.Positional
import TextTemplate.Proofs.Numeral.Digits
import TextTemplate.Proofs.Text.Places

/-!
# The characters of numbers

Before it is padded, a number is its default text or its floor in some digits, maybe in capitals and
with zeros behind a point (`Specifier.body_induction`), and maybe behind a plus sign.  So it is
ASCII, and has as many bytes as characters (`Specifier.isAscii_signed`), and padded or not it has at
least one character (`formatNumber_ne_nil`).
-/

namespace TextTemplate

/-! ### ASCII -/

section Ascii

variable {cs ds : List Char} {c : Char}

/-- Every character of the text is ASCII. -/
def IsAscii (cs : List Char) : Prop := ∀ c ∈ cs, c.toNat < 128

instance (cs : List Char) : Decidable (IsAscii cs) :=
  List.decidableBAll (fun c : Char => c.toNat < 128) cs

theorem IsAscii.append (hcs : IsAscii cs) (hds : IsAscii ds) : IsAscii (cs ++ ds) := by
  intro c hc
  rcases List.mem_append.mp hc with hc | hc
  · exact hcs c hc
  · exact hds c hc

theorem IsAscii.cons (hc : c.toNat < 128) (hcs : IsAscii cs) : IsAscii (c :: cs) :=
  List.forall_mem_cons.mpr ⟨hc, hcs⟩

theorem isAscii_replicate (n : Nat) (hc : c.toNat < 128) : IsAscii (List.replicate n c) := by
  intro d hd
  rwa [List.eq_of_mem_replicate hd]

theorem utf8Size_of_lt (h : c.toNat < 128) : c.utf8Size = 1 := by
  rw [Char.utf8Size_eq_one_iff, UInt32.le_iff_toNat_le]
  exact Nat.le_of_lt_succ h

/-- ASCII text has as many bytes as characters. -/
theorem IsAscii.byteLength_eq (h : IsAscii cs) : byteLength cs = cs.length :=
  byteLength_eq_length fun c hc => utf8Size_of_lt (h c hc)

theorem toNat_lt_of_isDigit (h : c.isDigit) : c.toNat < 128 := by
  have hle : c.toNat ≤ 57 := by
    simp only [Char.isDigit, Bool.and_eq_true, decide_eq_true_eq] at h
    exact h.2
  omega

/-- What holds of the first 128 characters holds of all that are ASCII. -/
theorem forall_ascii {P : Char → Prop} (h : ∀ n < 128, P (Char.ofNat n)) (hc : c.toNat < 128) :
    P c := by
  have hn := h c.toNat hc
  rwa [Char.ofNat_toNat] at hn

theorem IsAscii.map_toUpper (h : IsAscii cs) : IsAscii (cs.map Char.toUpper) := by
  intro c hc
  obtain ⟨d, hd, rfl⟩ := List.mem_map.mp hc
  exact forall_ascii (P := fun d => d.toUpper.toNat < 128) (by decide) (h d hd)

end Ascii

/-! ### What a number is made of -/

namespace Specifier

section Induction

variable {P : List Char → Prop}

theorem floorText_induction {x : Binary64.Finite} {radix : Nat} (htext : P x.text)
    (hinteger : P (integerText radix x.floor)) : P (x.floorText radix) := by
  unfold Binary64.Finite.floorText
  split
  · exact hinteger
  · exact htext

/-- What holds of the default text of a number and of its floor in digits, and is kept by capitals
and by zeros behind a point, holds of the number under every kind. -/
theorem body_induction {x : Binary64} (htext : P x.text)
    (hinteger : ∀ y radix, x = .finite y → 1 < radix → radix ≤ 16 → P (integerText radix y.floor))
    (hupper : ∀ cs, P cs → P (cs.map Char.toUpper))
    (hextend : ∀ precision cs, P cs → P (extendFraction precision cs)) (s : Specifier) :
    P (s.body x) := by
  have hprecision : ∀ cs, P cs → P (s.extend cs) := by
    intro cs h
    unfold extend
    split
    · exact h
    · exact hextend _ cs h
  cases x with
  | nan | infinity => exact htext
  | finite y =>
    have hfloor : ∀ radix, 1 < radix → radix ≤ 16 → P (y.floorText radix) :=
      fun radix hlow hhigh => floorText_induction htext (hinteger y radix rfl hlow hhigh)
    simp only [body]
    split
    · exact hprecision _ (hfloor 10 (by decide) (by decide))
    · exact hfloor 16 (by decide) (by decide)
    · exact hupper _ (hfloor 16 (by decide) (by decide))
    · exact hfloor 2 (by decide) (by decide)
    · exact hfloor 8 (by decide) (by decide)
    · exact hprecision _ htext
    · exact hprecision _ htext

/-- What holds of default texts and of integers, and is kept by capitals, by zeros behind a point
and by a plus sign, holds of every number before it is padded. -/
theorem signed_induction (htext : ∀ x : Binary64, P x.text)
    (hinteger : ∀ radix n, 1 < radix → radix ≤ 16 → P (integerText radix n))
    (hupper : ∀ cs, P cs → P (cs.map Char.toUpper))
    (hextend : ∀ precision cs, P cs → P (extendFraction precision cs))
    (hplus : ∀ cs, P cs → P ('+' :: cs)) (s : Specifier) (x : Binary64) : P (s.signed x) := by
  have hbody : P (s.body x) :=
    body_induction (htext x) (fun _ radix _ hlow hhigh => hinteger radix _ hlow hhigh) hupper
      hextend s
  unfold signed
  split
  · exact hplus _ hbody
  · exact hbody

end Induction

end Specifier

/-- What a precision adds stands behind the text: zeros, and a point in front of them where there
was none. -/
theorem extendFraction_eq_append (precision : Nat) (cs : List Char) :
    ∃ more, extendFraction precision cs = cs ++ more ∧ more.length ≤ precision + 1 ∧
      ∀ c ∈ more, c = '.' ∨ c = '0' := by
  have hzeros : ∀ n, ∀ c ∈ List.replicate n '0', c = '.' ∨ c = '0' :=
    fun n c hc => .inr (List.eq_of_mem_replicate hc)
  simp only [extendFraction]
  split
  · exact ⟨[], (List.append_nil cs).symm, Nat.zero_le _, nofun⟩
  · split
    · refine ⟨_, rfl, ?_, hzeros _⟩
      rw [List.length_replicate]
      omega
    · refine ⟨_, rfl, ?_, List.forall_mem_cons.mpr ⟨.inl rfl, hzeros _⟩⟩
      rw [List.length_cons, List.length_replicate]
      omega

/-! ### All of it is ASCII -/

theorem Binary64.isAscii_text (x : Binary64) : IsAscii x.text := by
  cases x with
  | nan => decide
  | infinity negative => cases negative <;> decide
  | finite x =>
    intro c hc
    rcases Finite.of_mem_text hc with rfl | rfl | hdigit
    · decide
    · decide
    · exact toNat_lt_of_isDigit hdigit

theorem isAscii_integerText {radix : Nat} (n : Int) (hlow : 1 < radix) (hhigh : radix ≤ 16) :
    IsAscii (integerText radix n) := by
  have hdigits : IsAscii (Nat.toDigits radix n.natAbs) := by
    intro c hc
    obtain ⟨d, hd, rfl⟩ := Numeral.exists_digitChar_of_mem_toDigits hlow hc
    have hall : ∀ d < 16, (Nat.digitChar d).toNat < 128 := by decide
    exact hall d (by omega)
  unfold integerText
  split
  · exact hdigits.cons (by decide)
  · exact hdigits

theorem Binary64.Finite.isAscii_floorText (x : Finite) {radix : Nat} (hlow : 1 < radix)
    (hhigh : radix ≤ 16) : IsAscii (x.floorText radix) :=
  Specifier.floorText_induction (isAscii_text (.finite x)) (isAscii_integerText x.floor hlow hhigh)

theorem isAscii_extendFraction {cs : List Char} (h : IsAscii cs) (precision : Nat) :
    IsAscii (extendFraction precision cs) := by
  obtain ⟨more, hmore, -, hchars⟩ := extendFraction_eq_append precision cs
  rw [hmore]
  refine h.append fun c hc => ?_
  rcases hchars c hc with rfl | rfl <;> decide

theorem Specifier.isAscii_signed (s : Specifier) (x : Binary64) : IsAscii (s.signed x) :=
  signed_induction Binary64.isAscii_text (fun _ n hlow hhigh => isAscii_integerText n hlow hhigh)
    (fun _ h => h.map_toUpper) (fun precision _ h => isAscii_extendFraction h precision)
    (fun _ h => h.cons (by decide)) s x

namespace Specifier

variable {zeros cs : List Char}

theorem isAscii_zeroFill (hzeros : IsAscii zeros) (h : IsAscii cs) :
    IsAscii (zeroFill zeros cs) := by
  unfold zeroFill
  split
  · exact (hzeros.append (List.forall_mem_cons.mp h).2).cons (by decide)
  · exact (hzeros.append (List.forall_mem_cons.mp h).2).cons (by decide)
  · exact hzeros.append h

theorem isAscii_pad (s : Specifier) (h : IsAscii cs) : IsAscii (s.pad cs) := by
  simp only [pad]
  split
  · exact h.append (isAscii_replicate _ (by decide))
  · split
    · exact isAscii_zeroFill (isAscii_replicate _ (by decide)) h
    · exact (isAscii_replicate _ (by decide)).append h

theorem isAscii_apply (s : Specifier) (x : Binary64) : IsAscii (s.apply x) :=
  isAscii_pad s (isAscii_signed s x)

end Specifier

theorem isAscii_formatNumber (x : Binary64) (specifier : Option (List Char)) :
    IsAscii (formatNumber x specifier) := by
  unfold formatNumber
  split
  · exact x.isAscii_text
  · exact x.isAscii_text
  · exact Specifier.isAscii_apply _ x

/-! ### None of it is empty -/

theorem Binary64.text_ne_nil (x : Binary64) : x.text ≠ [] := by
  cases x with
  | nan => exact List.cons_ne_nil _ _
  | infinity negative => simp [text]
  | finite x =>
    obtain ⟨whole, fraction, htext, hwhole, -⟩ := x.text_eq_pointed
    rw [text, htext, pointed]
    simp [hwhole.ne_nil]

theorem integerText_ne_nil (radix : Nat) (n : Int) : integerText radix n ≠ [] := by
  unfold integerText
  split
  · exact List.cons_ne_nil _ _
  · exact Nat.toDigits_ne_nil

namespace Specifier

variable {cs : List Char}

theorem extendFraction_ne_nil (precision : Nat) (h : cs ≠ []) :
    extendFraction precision cs ≠ [] := by
  obtain ⟨more, hmore, -⟩ := extendFraction_eq_append precision cs
  rw [hmore]
  exact List.append_ne_nil_of_left_ne_nil h more

theorem signed_ne_nil (s : Specifier) (x : Binary64) : s.signed x ≠ [] :=
  signed_induction (P := (· ≠ [])) Binary64.text_ne_nil
    (fun radix n _ _ => integerText_ne_nil radix n)
    (fun _ h hmap => h (List.map_eq_nil_iff.mp hmap))
    (fun precision _ h => extendFraction_ne_nil precision h) (fun _ _ => List.cons_ne_nil _ _) s x

theorem zeroFill_ne_nil (zeros : List Char) (h : cs ≠ []) : zeroFill zeros cs ≠ [] := by
  unfold zeroFill
  split
  · exact List.cons_ne_nil _ _
  · exact List.cons_ne_nil _ _
  · exact List.append_ne_nil_of_right_ne_nil _ h

theorem pad_ne_nil (s : Specifier) (h : cs ≠ []) : s.pad cs ≠ [] := by
  simp only [pad]
  split
  · exact List.append_ne_nil_of_left_ne_nil h _
  · split
    · exact zeroFill_ne_nil _ h
    · exact List.append_ne_nil_of_right_ne_nil _ h

end Specifier

/-- No number is written without a character. -/
theorem formatNumber_ne_nil (x : Binary64) (specifier : Option (List Char)) :
    formatNumber x specifier ≠ [] := by
  unfold formatNumber
  split
  · exact x.text_ne_nil
  · exact x.text_ne_nil
  · exact Specifier.pad_ne_nil _ (Specifier.signed_ne_nil _ x)

end TextTemplate
