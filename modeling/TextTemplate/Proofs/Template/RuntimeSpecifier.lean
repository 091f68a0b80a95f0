import TextTemplate.Proofs.Specifier.NumberText
import TextTemplate.Proofs.Template.Interpolation

/-!
# Specifiers looked up

A specifier that is looked up counts as its plain text, whatever the value it comes from: the
placeholder is filled as one in which this text is written, or as one without a specifier if there
is no such value (`filled_nested_eq_filled_inline`).  The text is not looked into for a path, and no
policy leaves it blank.

The three placeholders are fields, and a template that is nothing but a field is filled with its
output (`Field.filled_source`).
-/

namespace TextTemplate

/-- A template filled from the arguments under a policy. -/
def filled (template : List Char) (args : List Value) (policy : FalsyPolicy) :
    Except FormatError String :=
  (scan (String.ofList template)).map (fill · args policy)

theorem Field.filled_source (f : Field) (args : List Value) (policy : FalsyPolicy) :
    filled f.source args policy = .ok (String.ofList (f.output args policy)) := by
  have hreads := Reads.field f Reads.nil
  simp only [List.append_nil] at hreads
  obtain ⟨tokens, hscan, hfill⟩ := hreads.fill
  rw [filled, hscan, Except.map, hfill]

/-! ### Texts without braces -/

/-- Strings and arrays apart, no text has a brace in it. -/
theorem Value.brace_notMem_text {v : Value} (hstring : ∀ s, v ≠ string s)
    (harray : ∀ items, v ≠ array items) : '{' ∉ v.text ∧ '}' ∉ v.text := by
  cases v with
  | null => exact ⟨List.not_mem_nil, List.not_mem_nil⟩
  | bool b => cases b <;> exact ⟨by decide, by decide⟩
  | number x =>
    cases x with
    | nan => exact ⟨by decide, by decide⟩
    | infinity negative => cases negative <;> exact ⟨by decide, by decide⟩
    | finite x =>
      have hnumeral : ∀ c ∈ x.text, c ≠ '{' ∧ c ≠ '}' := by
        intro c hc
        rcases Binary64.Finite.of_mem_text hc with rfl | rfl | hdigit
        · decide
        · decide
        · constructor <;> rintro rfl <;> exact absurd hdigit (by decide)
      exact ⟨fun hc => (hnumeral _ hc).1 rfl, fun hc => (hnumeral _ hc).2 rfl⟩
  | string s => exact absurd rfl (hstring s)
  | array items => exact absurd rfl (harray items)
  | object fields =>
    show '{' ∉ objectText ∧ '}' ∉ objectText
    decide

theorem head?_ne_of_notMem {c : Char} {text : List Char} (h : c ∉ text) :
    text.head? ≠ some c :=
  fun hhead => h (List.mem_of_mem_head? hhead)

/-! ### The three placeholders -/

section Placeholder

variable {identifier text : List Char} {path source : Path}
  (hpath : Path.parse identifier = .ok path) (hcolon : ':' ∉ identifier)
  (hclose : '}' ∉ identifier) (hopen : identifier.head? ≠ some '{') (args : List Value)
  (policy : FalsyPolicy)

include hpath hcolon hclose hopen

theorem filled_field (specifier : FieldSpecifier) :
    filled ('{' :: (identifier ++ specifier.written.source ++ ['}'])) args policy =
      .ok (String.ofList (render policy (specifier.resolve args) (path.resolve args))) :=
  let field : Field :=
    { identifier := identifier, path := path, specifier := specifier, parses := hpath,
      colonless := hcolon, closed := hclose, plain := hopen }
  field.filled_source args policy

theorem filled_plain :
    filled ('{' :: (identifier ++ ['}'])) args policy =
      .ok (String.ofList (render policy none (path.resolve args))) := by
  have hfield := filled_field hpath hcolon hclose hopen args policy .absent
  rwa [FieldSpecifier.written, SpecifierText.source, List.append_nil] at hfield

theorem filled_inline (hclosed : '}' ∉ text) (hplain : text.head? ≠ some '{') :
    filled ('{' :: (identifier ++ ':' :: (text ++ ['}']))) args policy =
      .ok (String.ofList (render policy (some text) (path.resolve args))) := by
  have hfield := filled_field hpath hcolon hclose hopen args policy (.inline text hclosed hplain)
  rwa [FieldSpecifier.written, SpecifierText.source, List.append_assoc, List.cons_append] at hfield

theorem filled_nested (hsource : Path.parse text = .ok source) (hclosed : '}' ∉ text) :
    filled ('{' :: (identifier ++ ':' :: '{' :: (text ++ ['}', '}']))) args policy =
      .ok (String.ofList (render policy ((source.resolve args).map Value.text)
        (path.resolve args))) := by
  have hfield := filled_field hpath hcolon hclose hopen args policy
    (.nested text source hclosed hsource)
  rwa [FieldSpecifier.written, SpecifierText.source, List.append_assoc, List.cons_append,
    List.cons_append, List.append_assoc] at hfield

end Placeholder

/-! ### What the values ask for -/

/-- An empty specifier asks for nothing. -/
theorem render_some_nil (policy : FalsyPolicy) (v : Option Value) :
    render policy (some []) v = render policy none v := by
  cases v with
  | none => rfl
  | some v => cases v <;> rfl

/-- A placeholder whose specifier is looked up is filled as one in which the plain text of the value
is written, and as one without a specifier if nothing is found or `null`.  Strings and arrays apart,
all values have texts that can be written.  A number gives its whole part for a width, to be filled
up behind the text if the number is below zero, and its fraction for a precision. -/
theorem filled_nested_eq_filled_inline {identifier text : List Char} {path source : Path}
    (hpath : Path.parse identifier = .ok path) (hcolon : ':' ∉ identifier)
    (hclose : '}' ∉ identifier) (hopen : identifier.head? ≠ some '{')
    (hsource : Path.parse text = .ok source) (hclosed : '}' ∉ text) (args : List Value)
    (policy : FalsyPolicy) :
    (∀ v, source.resolve args = some v →
      filled ('{' :: (identifier ++ ':' :: '{' :: (text ++ ['}', '}']))) args policy =
        .ok (String.ofList (render policy (some v.text) (path.resolve args))) ∧
      ('}' ∉ v.text → v.text.head? ≠ some '{' →
        filled ('{' :: (identifier ++ ':' :: '{' :: (text ++ ['}', '}']))) args policy =
          filled ('{' :: (identifier ++ ':' :: (v.text ++ ['}']))) args policy)) ∧
    (source.resolve args = none ∨ source.resolve args = some .null →
      filled ('{' :: (identifier ++ ':' :: '{' :: (text ++ ['}', '}']))) args policy =
        filled ('{' :: (identifier ++ ['}'])) args policy ∧
      filled ('{' :: (identifier ++ ['}'])) args policy =
        .ok (String.ofList (render policy none (path.resolve args)))) ∧
    (∀ v : Value, (∀ s, v ≠ .string s) → (∀ items, v ≠ .array items) →
      '}' ∉ v.text ∧ v.text.head? ≠ some '{') ∧
    ∀ x z, source.resolve args = some (.number (.finite x)) →
      path.resolve args = some (.number z) → policy.blanks (.number z) = false →
      ∃ whole fraction,
        x.text = (if x.quanta < 0 then ['-'] else []) ++ pointed whole fraction ∧
        IsWhole whole ∧ (∀ c ∈ fraction, c.isDigit) ∧
        filled ('{' :: (identifier ++ ':' :: '{' :: (text ++ ['}', '}']))) args policy =
          .ok (String.ofList (Specifier.apply
            { flags := { minus := x.quanta < 0, zero := whole = ['0'] }
              width := if whole = ['0'] then none else Specifier.padding? whole
              precision := Specifier.padding? fraction } z)) := by
  have hnested := filled_nested hpath hcolon hclose hopen args policy hsource hclosed
  have hplain := filled_plain hpath hcolon hclose hopen args policy
  refine ⟨fun v hv => ⟨?_, fun hvclose hvopen => ?_⟩, fun hv => ⟨?_, hplain⟩,
    fun v hstring harray => ?_, fun x z hx hz hblank => ?_⟩
  · rw [hnested, hv, Option.map_some]
  · rw [hnested, hv, Option.map_some,
      filled_inline hpath hcolon hclose hopen args policy hvclose hvopen]
  · rw [hnested, hplain]
    rcases hv with hv | hv
    · rw [hv, Option.map_none]
    · rw [hv, Option.map_some, Value.text, render_some_nil]
  · obtain ⟨hvopen, hvclose⟩ := Value.brace_notMem_text hstring harray
    exact ⟨hvclose, head?_ne_of_notMem hvopen⟩
  · obtain ⟨whole, fraction, htext, hwhole, hfraction, hparse⟩ := Specifier.parse_text x
    refine ⟨whole, fraction, htext, hwhole, hfraction, ?_⟩
    have hrender : render policy (some x.text) (some (.number z)) =
        formatNumber z (some x.text) := by
      rw [render, hblank]
      rfl
    rw [hnested, hx, hz, Option.map_some, Value.text, Binary64.text, hrender,
      Specifier.formatNumber_some, hparse]

theorem filled_nested_negative_number :
    let args : List Value :=
      [.number (Binary64.ofNat 42),
        .number (.finite ⟨true, 7036874417766400, 1025, by decide⟩)]
    filled "{0:{1}}".toList args .blank =
        filled "{0:-12.5}".toList args .blank ∧
      filled "{0:{1}}".toList args .blank = .ok "42.00000    " := by
  intro args
  have hpath : Path.parse ['0'] = .ok ⟨[.dot "0"]⟩ := by decide +kernel
  have hsource : Path.parse ['1'] = .ok ⟨[.dot "1"]⟩ := by decide +kernel
  have hfound : Path.resolve ⟨[.dot "1"]⟩ args =
      some (.number (.finite ⟨true, 7036874417766400, 1025, by decide⟩)) := by rfl
  have hvalue : Path.resolve ⟨[.dot "0"]⟩ args = some (.number (Binary64.ofNat 42)) := by rfl
  have htext : Value.text (.number (.finite ⟨true, 7036874417766400, 1025, by decide⟩)) =
      ['-', '1', '2', '.', '5'] := by
    rw [Value.text, Binary64.text]
    decide +kernel
  have houtput : render .blank (some ['-', '1', '2', '.', '5'])
      (some (.number (Binary64.ofNat 42))) =
        ['4', '2', '.', '0', '0', '0', '0', '0', ' ', ' ', ' ', ' '] := by
    rw [render]
    decide +kernel
  have hfilled := (filled_nested_eq_filled_inline hpath (by decide) (by decide) (by decide) hsource
    (by decide) args .blank).1 _ hfound
  rw [htext, hvalue, houtput] at hfilled
  exact ⟨hfilled.2 (by decide) (by decide), hfilled.1⟩

end TextTemplate
