import TextTemplate.Proofs.Text.Places

/-!
# What a string can hold

A string has at most `maxBytes` bytes, since what it is stored in has a size that is counted by a
signed integer of 64 bits.  A step that makes a text, or makes one longer, gives up where the text
would have more (`stored?`).  The memory for what a string can hold is taken to be there, and a
string to ask for no more of it than its text needs.

Where one text is stored on the way to another that is not shorter, only the last one matters
(`stored?_bind`).
-/

namespace TextTemplate

/-- The most bytes that a string can have. -/
def maxBytes : Nat := 1 <<< 63 - 1

/-- The text as a string, if one can hold it. -/
def stored? (text : List Char) : Option (List Char) :=
  if byteLength text ≤ maxBytes then some text else none

section Stored

variable {text other : List Char}

theorem stored?_eq_some (h : byteLength text ≤ maxBytes) : stored? text = some text := if_pos h

theorem stored?_eq_some_iff :
    stored? text = some other ↔ text = other ∧ byteLength text ≤ maxBytes := by
  unfold stored?
  split
  · next h => simp [h]
  · next h => simp [h]

theorem stored?_eq_none_iff : stored? text = none ↔ maxBytes < byteLength text := by
  unfold stored?
  split
  · next h => simp [h]
  · next h => simpa using h

/-- On the way to a text that is not shorter, storing another one makes no difference. -/
theorem stored?_bind (next : List Char → List Char)
    (h : byteLength text ≤ byteLength (next text)) :
    ((stored? text).bind fun text => stored? (next text)) = stored? (next text) := by
  by_cases hfits : byteLength text ≤ maxBytes
  · rw [stored?_eq_some hfits, Option.bind_some]
  · -- what is too long to be stored on the way is too long at the end
    have hlong := Nat.not_le.mp hfits
    rw [stored?_eq_none_iff.mpr hlong, Option.bind_none, stored?_eq_none_iff.mpr]
    exact hlong.trans_le h

end Stored

end TextTemplate
