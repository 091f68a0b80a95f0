import TextTemplate.Proofs.Binary64.Floor
import TextTemplate.Proofs.Specifier.Length
import TextTemplate.Proofs.Text.Capacity

/-!
# Numbers under a specifier in checked steps

The same steps on a machine: a text is as long as its bytes, a difference has no result below zero
(`sub?`), a number becomes an integer of 128 bits without loss or not at all
(`Binary64.Finite.toInt128?`), a text is cut between characters only (`cut?`), and every text that
is put together, fill characters included, has to fit into a string (`stored?`).

The last is the only step that can fail, and it does exactly for the texts that are too long for a
string (`Specifier.applied?_eq`).  A specifier that is read from a text never asks for one, since
its width and its precision are bounded (`formatNumber?_eq_some_formatNumber`).
-/

namespace TextTemplate

/-- The difference of two counts, which has no result below zero. -/
def sub? (m n : Nat) : Option Nat := if n ≤ m then some (m - n) else none

/-! ### The steps -/

/-- The floor of a number in the digits of a radix, by way of an integer of 128 bits below the
limit. -/
def Binary64.Finite.floorText? (x : Finite) (radix : Nat) : Option (List Char) :=
  if x.roundDown.floor.natAbs < integralLimit then
    x.roundDown.toInt128?.map (integerText radix)
  else some x.roundDown.text

/-- The text with zeros added until `precision` digits stand behind the point. -/
def extendFraction? (precision : Nat) (cs : List Char) : Option (List Char) :=
  if byteLength (fraction cs) < precision then do
    let missing ← sub? precision (byteLength (fraction cs))
    let pointed ← if cs.contains '.' then some cs else stored? (cs ++ ['.'])
    let zeros ← stored? (List.replicate missing '0')
    stored? (pointed ++ zeros)
  else some cs

namespace Specifier

/-- The text extended to the precision, if there is one. -/
def extend? (s : Specifier) (cs : List Char) : Option (List Char) :=
  match s.precision with
  | none => some cs
  | some precision => extendFraction? precision cs

/-- The digits of a number with its minus sign. -/
def body? (s : Specifier) : Binary64 → Option (List Char)
  | .finite x =>
    match s.kind with
    | .decimal => (x.floorText? 10).bind s.extend?
    | .lowerHex => x.floorText? 16
    | .upperHex => (x.floorText? 16).map (·.map Char.toUpper)
    | .binary => x.floorText? 2
    | .octal => x.floorText? 8
    | .fixed | .general => s.extend? x.text
  | x => some x.text

/-- The body, behind a plus sign if the flag asks for one and the number is not below zero. -/
def signed? (s : Specifier) (x : Binary64) : Option (List Char) :=
  (s.body? x).bind fun body =>
    if s.flags.plus && x.isNonneg then stored? ('+' :: body) else some body

/-- Zeros put behind a leading sign, the rest being cut off behind its one byte, or in front where
there is none. -/
def zeroFill? (zeros cs : List Char) : Option (List Char) :=
  match cs.head?.filter isSign with
  | some sign => (cut? cs 1 (byteLength cs)).bind fun rest => stored? (sign :: (zeros ++ rest))
  | none => stored? (zeros ++ cs)

/-- The text filled up to the width, if it is shorter. -/
def pad? (s : Specifier) (cs : List Char) : Option (List Char) :=
  match s.width with
  | none => some cs
  | some width =>
    if width ≤ byteLength cs then some cs
    else do
      let missing ← sub? width (byteLength cs)
      if s.flags.minus then
        let blanks ← stored? (List.replicate missing ' ')
        stored? (cs ++ blanks)
      else if s.flags.zero then
        let zeros ← stored? (List.replicate missing '0')
        zeroFill? zeros cs
      else
        let blanks ← stored? (List.replicate missing ' ')
        stored? (blanks ++ cs)

/-- A number written under a specifier, if a string can hold it. -/
def applied? (s : Specifier) (x : Binary64) : Option (List Char) := (s.signed? x).bind s.pad?

end Specifier

/-- A number written under the text of a specifier. -/
def formatNumber? (x : Binary64) : Option (List Char) → Option (List Char)
  | none | some [] => some x.text
  | some specifier => (Specifier.parse specifier).applied? x

/-! ### Steps that do not fail -/

theorem sub?_eq_some {m n : Nat} (h : n ≤ m) : sub? m n = some (m - n) := if_pos h

theorem integralLimit_lt : integralLimit < 2 ^ 127 := by decide

theorem Binary64.Finite.floorText?_eq_some (x : Finite) (radix : Nat) :
    x.floorText? radix = some (x.floorText radix) := by
  unfold floorText? floorText
  rw [floor_roundDown]
  split
  · next hlimit => rw [toInt128?_roundDown (hlimit.trans integralLimit_lt), Option.map_some]
  · next hlimit =>
    have hlarge : 2 ^ 53 ≤ integralLimit := by decide
    rw [roundDown_eq_self (hlarge.trans (Nat.not_lt.mp hlimit))]

/-- Behind a sign, which takes one byte, a text can be cut. -/
theorem Specifier.cut?_behind_sign {c : Char} (hc : isSign c) (cs : List Char) :
    cut? (c :: cs) 1 (byteLength (c :: cs)) = some cs := by
  have hsize : c.utf8Size = 1 := by
    simp only [isSign, Bool.or_eq_true, beq_iff_eq] at hc
    rcases hc with rfl | rfl <;> rfl
  exact cut?_eq_some [c] [] (by simp)
    (by rw [byteLength_singleton, hsize]) (by simp)

/-! ### Texts that have to fit -/

section Fits

variable {cs : List Char}

/-- The text of a number that no specifier makes longer fits into a string. -/
theorem IsAscii.stored?_eq_some (h : IsAscii cs) (hle : cs.length ≤ 4096) :
    stored? cs = some cs :=
  TextTemplate.stored?_eq_some (h.byteLength_eq.trans_le (hle.trans (by decide)))

theorem fraction_sublist (cs : List Char) : (fraction cs).Sublist cs :=
  (List.drop_sublist _ _).trans (List.dropWhile_sublist _)

theorem extendFraction?_eq (h : IsAscii cs) (hstored : stored? cs = some cs) (precision : Nat) :
    extendFraction? precision cs = stored? (extendFraction precision cs) := by
  have hfraction : byteLength (fraction cs) = (fraction cs).length := by
    have hascii : IsAscii (fraction cs) := fun c hc => h c ((fraction_sublist cs).subset hc)
    exact hascii.byteLength_eq
  by_cases hlt : (fraction cs).length < precision
  · have hmissing : precision - (fraction cs).length ≠ 0 := by omega
    -- the zeros and the text with its point are stored apart, both on the way to the whole
    have hzeros : ∀ pointed n, ((stored? (List.replicate n '0')).bind fun zeros =>
        stored? (pointed ++ zeros)) = stored? (pointed ++ List.replicate n '0') := fun pointed n =>
      stored?_bind (pointed ++ ·) (byteLength_le_of_sublist (List.sublist_append_right _ _))
    rw [extendFraction?, hfraction, if_pos hlt, sub?_eq_some hlt.le]
    simp only [extendFraction, if_neg hmissing, Option.bind_eq_bind, Option.bind_some, hzeros]
    split
    · rfl
    · rw [List.append_cons cs '.' (List.replicate _ '0')]
      exact stored?_bind (· ++ List.replicate _ '0')
        (byteLength_le_of_sublist (List.sublist_append_left _ _))
  · have hmissing : precision - (fraction cs).length = 0 := by omega
    rw [extendFraction?, hfraction, if_neg hlt]
    simp only [extendFraction, if_pos hmissing, hstored]

namespace Specifier

theorem extend?_eq (s : Specifier) (h : IsAscii cs) (hstored : stored? cs = some cs) :
    s.extend? cs = stored? (s.extend cs) := by
  cases hprecision : s.precision with
  | none => simp only [extend?, extend, hprecision, hstored]
  | some precision =>
    simp only [extend?, extend, hprecision]
    exact extendFraction?_eq h hstored precision

theorem body?_eq (s : Specifier) (x : Binary64) : s.body? x = stored? (s.body x) := by
  cases x with
  | nan => exact ((Binary64.isAscii_text .nan).stored?_eq_some (Binary64.length_text_le _)).symm
  | infinity negative =>
    exact ((Binary64.isAscii_text (.infinity negative)).stored?_eq_some
      (Binary64.length_text_le _)).symm
  | finite x =>
    have htext : stored? x.text = some x.text :=
      (Binary64.isAscii_text (.finite x)).stored?_eq_some x.length_text_le
    have hfloor : ∀ radix, 1 < radix → radix ≤ 16 →
        stored? (x.floorText radix) = some (x.floorText radix) := fun radix hlow hhigh =>
      (x.isAscii_floorText hlow hhigh).stored?_eq_some (x.length_floorText_le hlow)
    cases hkind : s.kind with
    | decimal =>
      simp only [body?, body, hkind, x.floorText?_eq_some, Option.bind_some]
      exact s.extend?_eq (x.isAscii_floorText (by decide) (by decide))
        (hfloor 10 (by decide) (by decide))
    | fixed | general =>
      simp only [body?, body, hkind]
      exact s.extend?_eq (Binary64.isAscii_text (.finite x)) htext
    | lowerHex | binary | octal =>
      simp only [body?, body, hkind, x.floorText?_eq_some]
      exact (hfloor _ (by decide) (by decide)).symm
    | upperHex =>
      simp only [body?, body, hkind, x.floorText?_eq_some, Option.map_some]
      refine (IsAscii.stored?_eq_some ?_ ?_).symm
      · exact (x.isAscii_floorText (by decide) (by decide)).map_toUpper
      · exact (List.length_map _).trans_le (x.length_floorText_le (by decide))

theorem signed?_eq (s : Specifier) (x : Binary64) : s.signed? x = stored? (s.signed x) := by
  rw [signed?, body?_eq, signed]
  split
  · exact stored?_bind ('+' :: ·) (byteLength_le_of_sublist (List.sublist_cons_self _ _))
  · exact Option.bind_fun_some _

theorem byteLength_le_zeroFill (zeros cs : List Char) :
    byteLength zeros ≤ byteLength (zeroFill zeros cs) := by
  have hsublist : zeros.Sublist (zeroFill zeros cs) := by
    unfold zeroFill
    split
    · exact (List.sublist_append_left _ _).trans (List.sublist_cons_self _ _)
    · exact (List.sublist_append_left _ _).trans (List.sublist_cons_self _ _)
    · exact List.sublist_append_left _ _
  exact byteLength_le_of_sublist hsublist

theorem zeroFill?_eq (zeros cs : List Char) : zeroFill? zeros cs = stored? (zeroFill zeros cs) := by
  cases hhead : cs.head?.filter isSign with
  | none =>
    have hsign : ∀ c ∈ cs.head?, ¬ isSign c := Option.filter_eq_none_iff.mp hhead
    simp only [zeroFill?, hhead, zeroFill_of_not_isSign hsign]
  | some sign =>
    obtain ⟨hcs, hsign⟩ := Option.filter_eq_some_iff.mp hhead
    obtain ⟨cs, rfl⟩ := List.head?_eq_some_iff.mp hcs
    simp only [zeroFill?, hhead, cut?_behind_sign hsign, Option.bind_some]
    simp only [isSign, Bool.or_eq_true, beq_iff_eq] at hsign
    rcases hsign with rfl | rfl <;> rfl

theorem pad?_eq (s : Specifier) (h : IsAscii cs) (hstored : stored? cs = some cs) :
    s.pad? cs = stored? (s.pad cs) := by
  cases hwidth : s.width with
  | none =>
    have hle : s.width.getD 0 ≤ cs.length := by simp [hwidth]
    simp only [pad?, hwidth, pad_of_le hle, hstored]
  | some width =>
    have hgetD : s.width.getD 0 = width := by rw [hwidth, Option.getD_some]
    simp only [pad?, hwidth, h.byteLength_eq]
    by_cases hle : width ≤ cs.length
    · rw [if_pos hle, pad_of_le (hgetD.trans_le hle), hstored]
    · rw [if_neg hle, sub?_eq_some (Nat.not_le.mp hle).le]
      simp only [pad, hgetD, Option.bind_eq_bind, Option.bind_some, zeroFill?_eq]
      split
      · exact stored?_bind (cs ++ ·) (byteLength_le_of_sublist (List.sublist_append_right _ _))
      · split
        · exact stored?_bind (zeroFill · cs) (byteLength_le_zeroFill _ cs)
        · exact stored?_bind (· ++ cs) (byteLength_le_of_sublist (List.sublist_append_left _ _))

theorem byteLength_le_pad (s : Specifier) (h : IsAscii cs) :
    byteLength cs ≤ byteLength (s.pad cs) := by
  rw [h.byteLength_eq, (isAscii_pad s h).byteLength_eq, length_pad]
  exact Nat.le_max_right _ _

/-- A number under a specifier is what the specifier asks for, as far as a string can hold it. -/
theorem applied?_eq (s : Specifier) (x : Binary64) : s.applied? x = stored? (s.apply x) := by
  have hascii := s.isAscii_signed x
  rw [applied?, signed?_eq]
  -- the laws of padding are about a text that is stored already
  by_cases hfits : byteLength (s.signed x) ≤ maxBytes
  · have hstored := stored?_eq_some hfits
    rw [hstored, Option.bind_some]
    exact s.pad?_eq hascii hstored
  · have hlong := Nat.not_le.mp hfits
    have hpadded := hlong.trans_le (s.byteLength_le_pad hascii)
    rw [stored?_eq_none_iff.mpr hlong, apply, stored?_eq_none_iff.mpr hpadded, Option.bind_none]

theorem applied?_eq_some_iff {s : Specifier} {x : Binary64} {text : List Char} :
    s.applied? x = some text ↔ s.apply x = text ∧ text.length ≤ maxBytes := by
  rw [applied?_eq, stored?_eq_some_iff, (s.isAscii_apply x).byteLength_eq]
  refine and_congr_right ?_
  rintro rfl
  rfl

theorem applied?_eq_none_iff {s : Specifier} {x : Binary64} :
    s.applied? x = none ↔ maxBytes < (s.apply x).length := by
  rw [applied?_eq, stored?_eq_none_iff, (s.isAscii_apply x).byteLength_eq]

theorem IsBounded.applied?_eq_some {s : Specifier} (h : s.IsBounded) (x : Binary64) :
    s.applied? x = some (s.apply x) := by
  have hlength := h.length_apply_le x
  have hbare := s.kind.length_body_alone_le x
  rw [← s.kind.apply_alone x] at hbare
  exact applied?_eq_some_iff.mpr
    ⟨rfl, (hlength.trans (Nat.add_le_add_left hbare _)).trans (by decide)⟩

end Specifier

end Fits

/-- Under a specifier that is read from a text every number has its text. -/
theorem formatNumber?_eq_some_formatNumber (x : Binary64) (specifier : Option (List Char)) :
    formatNumber? x specifier = some (formatNumber x specifier) := by
  cases specifier with
  | none => rfl
  | some specifier =>
    cases specifier with
    | nil => rfl
    | cons c specifier => exact (Specifier.isBounded_parse _).applied?_eq_some x

end TextTemplate
