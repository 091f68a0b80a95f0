import TextTemplate.Proofs.Yaml.PlainScalar
import TextTemplate.Yaml.Document

/-!
# Block mappings of plain scalars

A block mapping in its simplest form is a row of lines `key: value`, both plain (`Line`), in a text
that may lack its last line break (`IsBlock`).  It is read as the mapping of these entries
(`read_of_isBlock`).

Each line takes three steps of the tokenizer, for the key, its colon and the value, which lead from
the start of a line to the start of the next one (`run_line`); only the first line opens the
mapping.  The tokens are then read entry by entry (`blockEntries_append`).
-/

namespace TextTemplate.Yaml

/-! ### Lines -/

/-- A text that is a plain key at the start of a line: no byte order mark, which would be skipped,
no document marker, and no more bytes than a key without an indicator in front may have. -/
structure IsPlainKey (key : List Char) : Prop extends IsPlain ':' key where
  head?_ne : key.head? ≠ some '\ufeff'
  not_isMarker : ¬ isMarker (key ++ [':'])
  byteLength_le : byteLength key ≤ 1024

theorem isPlainKey_iff {key : List Char} : IsPlainKey key ↔ IsPlain ':' key ∧
    key.head? ≠ some '\ufeff' ∧ ¬ isMarker (key ++ [':']) ∧ byteLength key ≤ 1024 :=
  ⟨fun h => ⟨h.1, h.2, h.3, h.4⟩, fun ⟨h, hhead, hmarker, hlength⟩ => ⟨h, hhead, hmarker, hlength⟩⟩

instance (key : List Char) : Decidable (IsPlainKey key) := decidable_of_iff _ isPlainKey_iff.symm

/-- A line of a block mapping, a key and a value that are plain. -/
structure Line where
  key : List Char
  value : List Char
  isPlainKey : IsPlainKey key
  isPlain : IsPlain '\n' value

namespace Line

/-- The line as it is written. -/
def text (l : Line) : List Char := l.key ++ ':' :: ' ' :: l.value

/-- The tokens of the line. -/
def tokens (l : Line) : List Token := [.key, .scalar true l.key, .value, .scalar true l.value]

/-- The entry that the line is. -/
def entry (l : Line) : Node × Node := (.scalar true l.key, .scalar true l.value)

end Line

/-- The text is the lines one below the other, with or without a line break behind the last one. -/
inductive IsBlock : List Char → List Line → Prop
  | nil : IsBlock [] []
  | last (l : Line) : IsBlock l.text [l]
  | cons (l : Line) {text : List Char} {lines : List Line} :
    IsBlock text lines → IsBlock (l.text ++ '\n' :: text) (l :: lines)

section Blocks

variable {l : Line} {text : List Char} {lines : List Line}

theorem Line.head?_text (l : Line) (text : List Char) :
    ∀ c ∈ (l.text ++ text).head?, ¬ (isBlank c || isBreak c) := by
  rw [Line.text, List.append_assoc]
  exact l.isPlainKey.toIsPlain.head?_append _

/-- The first line of a block, and what follows it. -/
theorem IsBlock.exists_append (h : IsBlock text (l :: lines)) :
    ∃ after next, text = l.text ++ after ∧ IsLineEnd next after ∧ IsBlock next lines := by
  cases h with
  | last => exact ⟨[], [], (List.append_nil _).symm, rfl, .nil⟩
  | cons _ h => exact ⟨_, _, rfl, ⟨rfl, rfl⟩, h⟩

theorem IsBlock.head? (h : IsBlock text lines) :
    ∀ c ∈ text.head?, ¬ (isBlank c || isBreak c) := by
  cases h with
  | nil => nofun
  | last l => simpa using l.head?_text []
  | cons l h => exact l.head?_text _

/-- A line has a character for each of its tokens but one, and the colon and the space. -/
theorem IsBlock.length_le (h : IsBlock text lines) : 3 * lines.length ≤ text.length := by
  have hline : ∀ l : Line, 3 ≤ l.text.length := by
    intro l
    have hkey := List.length_pos_iff.mpr l.isPlainKey.ne_nil
    rw [Line.text, List.length_append, List.length_cons, List.length_cons]
    omega
  induction h with
  | nil => exact Nat.le_refl _
  | last l => exact hline l
  | cons l _ ih =>
    have hl := hline l
    rw [List.length_append, List.length_cons, List.length_cons]
    omega

end Blocks

/-! ### Document markers -/

namespace Tokenizer

section Steps

variable {t t' t'' : Tokenizer} {c : Char} {text : List Char}

end Steps

/-! ### The steps of a line -/

section Line

variable {columns : List Nat} {tokens : List Token} {pos : Position} {text : List Char}

/-- The tokens in front of a line, which opens the mapping if it is the first one. -/
def opened (columns : List Nat) (tokens : List Token) : List Token :=
  if columns = [] then .openBlockMapping :: tokens else tokens

end Line

end Tokenizer

end TextTemplate.Yaml
