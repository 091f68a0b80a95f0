import Mathlib.Algebra.Order.BigOperators.Group.List
import Mathlib.Data.Finset.Lattice.Fold
import Mathlib.Order.Lattice.Nat
import TextTemplate.Proofs.Specifier.Length

/-!
# How long a filled template can be

A specifier makes a number longer than its kind alone does by `maxPadding + 2` characters at most:
a width and a precision are at most `maxPadding`, whatever digits they are read from, a precision
may bring a point and a flag a sign (`length_formatNumber_le`).  So a bound for a filled template
does not depend on what the specifiers in it say or lead to (`textSize_fill_le`).

Texts are measured in characters and in bytes alike: by the sum of the sizes of their characters, of
which those of ASCII count one.
-/

namespace TextTemplate

open Specifier

/-! ### Sizes -/

/-- The size of a text, given the sizes of its characters. -/
def textSize (size : Char → ℕ) (text : List Char) : ℕ := (text.map size).sum

section Size

variable {size : Char → ℕ} {text other : List Char}

theorem textSize_append (size : Char → ℕ) (text other : List Char) :
    textSize size (text ++ other) = textSize size text + textSize size other := by
  rw [textSize, List.map_append, List.sum_append]
  rfl

theorem textSize_one (text : List Char) : textSize (fun _ => 1) text = text.length := by
  simp [textSize]

theorem textSize_utf8Size (text : List Char) : textSize Char.utf8Size text = byteLength text := by
  induction text with
  | nil => rfl
  | cons c text ih =>
    rw [byteLength_cons, ← ih]
    rfl

theorem textSize_le_of_sublist (h : text.Sublist other) :
    textSize size text ≤ textSize size other :=
  (h.map size).sum_le_sum fun _ _ => Nat.zero_le _

/-- ASCII text is as large as it is long. -/
theorem IsAscii.textSize_eq (h : IsAscii text) (hsize : ∀ c : Char, c.toNat < 128 → size c = 1) :
    textSize size text = text.length := by
  have hone : text.map size = text.map fun _ => 1 :=
    List.map_congr_left fun c hc => hsize c (h c hc)
  rw [textSize, hone]
  exact textSize_one text

end Size

/-! ### What a token contributes at most -/

instance : Fintype Kind where
  elems := {.decimal, .lowerHex, .upperHex, .binary, .octal, .fixed, .general}
  complete kind := by cases kind <;> decide

/-- The size of the largest text that a value has under any kind alone. -/
def Value.largest (size : Char → ℕ) (v : Value) : ℕ :=
  Finset.univ.sup fun kind : Kind => textSize size (v.formatted (some kind.code))

/-- The most that a token contributes: a literal its own size, a brace one, and a placeholder the
padding, a point, a sign and the largest text of what it leads to. -/
def Token.mostSize (size : Char → ℕ) (args : List Value) : Token → ℕ
  | literal _ text => textSize size text.toList
  | leftBrace => 1
  | placeholder path _ => maxPadding + 2 + ((path.resolve args).map (Value.largest size)).getD 0

section Bound

variable {size : Char → ℕ}

theorem Value.textSize_formatted_le_largest (size : Char → ℕ) (v : Value) (kind : Kind) :
    textSize size (v.formatted (some kind.code)) ≤ v.largest size :=
  Finset.le_sup (f := fun kind : Kind => textSize size (v.formatted (some kind.code)))
    (Finset.mem_univ kind)

/-- Whatever its specifier is, a value has no larger text than under some kind alone, but for the
padding, a point and a sign. -/
theorem Value.textSize_formatted_le (hsize : ∀ c : Char, c.toNat < 128 → size c = 1) (v : Value)
    (specifier : Option (List Char)) :
    textSize size (v.formatted specifier) ≤ maxPadding + 2 + v.largest size := by
  have hgeneral := v.textSize_formatted_le_largest size .general
  cases v with
  | number x =>
    obtain ⟨text, htext⟩ : ∃ text, formatNumber x specifier = formatNumber x (some text) := by
      cases specifier with
      | none => exact ⟨[], rfl⟩
      | some text => exact ⟨text, rfl⟩
    have hlargest := (Value.number x).textSize_formatted_le_largest size (parse text).kind
    have hlength := length_formatNumber_le x text
    rw [Value.formatted, htext, (isAscii_formatNumber x _).textSize_eq hsize]
    rw [Value.formatted, (isAscii_formatNumber x _).textSize_eq hsize] at hlargest
    omega
  | null | bool | string | array | object =>
    -- the specifier makes no difference
    exact hgeneral.trans (Nat.le_add_left _ (maxPadding + 2))

theorem Token.textSize_fill_le (hsize : ∀ c : Char, c.toNat < 128 → size c = 1)
    (args : List Value) (policy : FalsyPolicy) (token : Token) :
    textSize size (token.fill args policy) ≤ token.mostSize size args := by
  cases token with
  | literal start text => exact textSize_le_of_sublist (collapse_sublist text.toList)
  | leftBrace => exact (hsize '{' (by decide)).le
  | placeholder path specifier =>
    rw [Token.fill, Token.mostSize]
    cases path.resolve args with
    | none => exact Nat.zero_le _
    | some v =>
      simp only [render]
      split
      · exact Nat.zero_le _
      · exact v.textSize_formatted_le hsize _

/-- A filled template is at most as large as its tokens contribute. -/
theorem textSize_fill_le (hsize : ∀ c : Char, c.toNat < 128 → size c = 1) (tokens : List Token)
    (args : List Value) (policy : FalsyPolicy) :
    textSize size (fill tokens args policy).toList ≤
      (tokens.map (Token.mostSize size args)).sum := by
  rw [fill, String.toList_ofList]
  induction tokens with
  | nil => exact Nat.le_refl _
  | cons token tokens ih =>
    rw [List.flatMap_cons, textSize_append, List.map_cons, List.sum_cons]
    exact Nat.add_le_add (token.textSize_fill_le hsize args policy) ih

end Bound

/-- What a specifier says makes no number longer than its kind alone does by more than `maxPadding`
and two characters.  So the length of a filled template is at most that of its literals, with one
for each brace and with `maxPadding + 2` for each placeholder and the length of the longest text
that the value it leads to has under any kind alone; and the same holds of its bytes. -/
theorem length_fill_le :
    (∀ (x : Binary64) (specifier : List Char),
      (formatNumber x (some specifier)).length ≤
        maxPadding + 2 + (formatNumber x (some (parse specifier).kind.code)).length) ∧
    ∀ (tokens : List Token) (args : List Value) (policy : FalsyPolicy),
      (fill tokens args policy).length ≤ (tokens.map (Token.mostSize (fun _ => 1) args)).sum ∧
      (fill tokens args policy).utf8ByteSize ≤
        (tokens.map (Token.mostSize Char.utf8Size args)).sum := by
  refine ⟨length_formatNumber_le, fun tokens args policy => ⟨?_, ?_⟩⟩
  · rw [← String.length_toList, ← textSize_one]
    exact textSize_fill_le (fun _ _ => rfl) tokens args policy
  · rw [← byteLength_toList, ← textSize_utf8Size]
    exact textSize_fill_le (fun _ => utf8Size_of_lt) tokens args policy

end TextTemplate
