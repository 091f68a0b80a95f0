import TextTemplate.Proofs.Template.Slice
import TextTemplate.Template.Printer

/-!
# Interpolation

A template may be made of texts in which every brace is doubled, with fields between them.  A
`Field` is a placeholder that reads the same wherever it stands: its paths can be read, and nothing
in it can be taken for an end of it or join the brace behind it.  Filling such a template gives the
texts back, each field replaced by what it contributes (`fill_interpolation`); the values of the
arguments are not looked into.

`Reads text output` says that a text can be scanned at any place and is then filled as `output`
says.  It is built from the end of a template to its head, one piece at a time (`Reads.cons`).
-/

namespace TextTemplate

/-! ### Fields -/

/-- The specifier of a field, with the path that a nested one denotes. -/
inductive FieldSpecifier where
  | absent
  /-- Written `:text`. -/
  | inline (text : List Char) (closed : '}' ∉ text) (plain : text.head? ≠ some '{')
  /-- Written `:{text}`. -/
  | nested (text : List Char) (path : Path) (closed : '}' ∉ text)
    (parses : Path.parse text = .ok path)

/-- A placeholder that reads the same wherever it stands, with the path its identifier denotes. -/
structure Field where
  identifier : List Char
  path : Path
  specifier : FieldSpecifier
  parses : Path.parse identifier = .ok path
  colonless : ':' ∉ identifier
  closed : '}' ∉ identifier
  plain : identifier.head? ≠ some '{'

namespace FieldSpecifier

/-- The specifier as it is written. -/
def written : FieldSpecifier → SpecifierText
  | absent => .absent
  | inline text _ _ => .inline text
  | nested text _ _ _ => .nested text

/-- The text of the specifier: as written, or the plain text of the value its path leads to. -/
def resolve (args : List Value) : FieldSpecifier → Option (List Char)
  | absent => none
  | inline text _ _ => some text
  | nested _ path _ _ => (path.resolve args).map Value.text

end FieldSpecifier

namespace Field

/-- How a field is written in a template. -/
def source (f : Field) : List Char := '{' :: (f.identifier ++ f.specifier.written.source ++ ['}'])

/-- What a field contributes to a filled template. -/
def output (args : List Value) (policy : FalsyPolicy) (f : Field) : List Char :=
  render policy (f.specifier.resolve args) (f.path.resolve args)

end Field

/-- A text and then fields, each with a text behind it, as a template. -/
def interpolation (head : List Char) (parts : List (Field × List Char)) : String :=
  String.ofList (escape head ++ parts.flatMap fun part => part.1.source ++ escape part.2)

/-! ### Texts that are filled alike at every place -/

/-- Wherever the piece begins, it has a token, which contributes `output`. -/
def Piece.Reads (p : Piece) (output : List Value → FalsyPolicy → List Char) : Prop :=
  ∀ start, ∃ token, Token.ofPiece start p = .ok token ∧
    ∀ args policy, token.fill args policy = output args policy

/-- Wherever the text begins, it can be scanned, and its tokens contribute `output`. -/
def Reads (text : List Char) (output : List Value → FalsyPolicy → List Char) : Prop :=
  ∀ start, ∃ tokens, Token.ofPieces start (pieces text) = .ok tokens ∧
    ∀ args policy, tokens.flatMap (Token.fill args policy) = output args policy

theorem Reads.nil : Reads [] fun _ _ => [] := by
  intro start
  rw [pieces]
  exact ⟨[], rfl, fun _ _ => rfl⟩

/-- A piece is put in front of a text it fits in front of. -/
theorem Reads.cons {p : Piece} {after : List Char}
    {output outputAfter : List Value → FalsyPolicy → List Char} (hfits : p.Fits after)
    (hp : p.Reads output) (hafter : Reads after outputAfter) :
    Reads (p.source ++ after) fun args policy => output args policy ++ outputAfter args policy := by
  intro start
  obtain ⟨token, htoken, hfill⟩ := hp start
  obtain ⟨tokens, htokens, hfillAfter⟩ := hafter (start + byteLength p.source)
  refine ⟨token :: tokens, ?_, fun args policy => ?_⟩
  · rw [pieces_source_append hfits, Token.ofPieces_cons_eq_ok_iff]
    exact ⟨token, tokens, htoken, htokens, rfl⟩
  · rw [List.flatMap_cons, hfill, hfillAfter]

/-! ### Doubled braces -/

theorem escape_append (s t : List Char) : escape (s ++ t) = escape s ++ escape t := by
  rw [escape, List.flatMap_append]
  rfl

theorem escape_cons_of_ne {c : Char} (h : c ≠ '{') (hclose : c ≠ '}') (text : List Char) :
    escape (c :: text) = c :: escape text := by
  rw [escape, List.flatMap_cons, if_neg (by simp [h, hclose])]
  rfl

/-- A run without opening braces stays one when it is escaped. -/
theorem notMem_escape {run : List Char} (h : '{' ∉ run) : '{' ∉ escape run := by
  intro hmem
  obtain ⟨c, hc, hmem⟩ := List.mem_flatMap.mp hmem
  have hne : '{' ≠ c := fun hc' => h (hc' ▸ hc)
  split at hmem
  · simp [hne] at hmem
  · simp [hne] at hmem

theorem escape_ne_nil {text : List Char} (h : text ≠ []) : escape text ≠ [] := by
  obtain ⟨c, text, rfl⟩ := List.exists_cons_of_ne_nil h
  rw [escape, List.flatMap_cons]
  split <;> simp

/-- What stands in front of a brace still does when it is escaped. -/
theorem StopsAt.escape_append {text after : List Char} (htext : StopsAt '{' text)
    (hafter : StopsAt '{' after) : StopsAt '{' (escape text ++ after) := by
  rcases htext with rfl | htext
  · exact hafter
  · obtain ⟨text, rfl⟩ := List.head?_eq_some_iff.mp htext
    exact .inr rfl

theorem collapse_cons_of_ne {c : Char} (h : c ≠ '}') (text : List Char) :
    collapse (c :: text) = c :: collapse text := by
  rw [collapse]
  rintro text rfl
  exact absurd rfl h

theorem collapse_of_notMem {text : List Char} (h : '}' ∉ text) : collapse text = text := by
  induction text with
  | nil => rfl
  | cons c text ih =>
    rw [List.mem_cons, not_or] at h
    rw [collapse_cons_of_ne (Ne.symm h.1), ih h.2]

/-- Doubled closing braces become single again. -/
theorem collapse_escape {run : List Char} (h : '{' ∉ run) : collapse (escape run) = run := by
  induction run with
  | nil => rfl
  | cons c run ih =>
    rw [List.mem_cons, not_or] at h
    by_cases hclose : c = '}'
    · subst hclose
      show collapse ('}' :: '}' :: escape run) = _
      rw [collapse, ih h.2]
    · rw [escape_cons_of_ne (Ne.symm h.1) hclose, collapse_cons_of_ne hclose, ih h.2]

theorem Reads.leftBrace {after : List Char} {output : List Value → FalsyPolicy → List Char}
    (hafter : Reads after output) :
    Reads ('{' :: '{' :: after) fun args policy => '{' :: output args policy := by
  have hfits : Piece.leftBrace.Fits after := trivial
  have hbrace : Piece.leftBrace.Reads fun _ _ => ['{'] :=
    fun _ => ⟨.leftBrace, rfl, fun _ _ => rfl⟩
  exact Reads.cons hfits hbrace hafter

/-- A run without opening braces, its closing ones doubled, is one literal. -/
theorem Reads.run {run after : List Char} {output : List Value → FalsyPolicy → List Char}
    (hne : run ≠ []) (hrun : '{' ∉ run) (hstop : StopsAt '{' after) (hafter : Reads after output) :
    Reads (escape run ++ after) fun args policy => run ++ output args policy := by
  have hfits : (Piece.literal (escape run)).Fits after :=
    ⟨escape_ne_nil hne, notMem_escape hrun, hstop⟩
  have hliteral : (Piece.literal (escape run)).Reads fun _ _ => run := by
    intro start
    refine ⟨.literal start (String.ofList (escape run)), rfl, fun args policy => ?_⟩
    rw [Token.fill, String.toList_ofList, collapse_escape hrun]
  exact Reads.cons hfits hliteral hafter

/-- A text that does not begin with a brace begins with a run up to the next one. -/
theorem exists_run_append {c : Char} (hc : c ≠ '{') (text : List Char) :
    ∃ run rest, c :: text = run ++ rest ∧ run ≠ [] ∧ '{' ∉ run ∧ StopsAt '{' rest := by
  refine ⟨c :: text.takeWhile (· != '{'), text.dropWhile (· != '{'), ?_, List.cons_ne_nil _ _,
    ?_, stopsAt_dropWhile_ne '{' text⟩
  · rw [List.cons_append, List.takeWhile_append_dropWhile]
  · rw [List.mem_cons, not_or]
    exact ⟨Ne.symm hc, notMem_takeWhile_ne '{' text⟩

/-- A text with its braces doubled stands for itself in front of a field. -/
theorem Reads.escape_append (text : List Char) {after : List Char}
    {output : List Value → FalsyPolicy → List Char} (hstop : StopsAt '{' after)
    (hafter : Reads after output) :
    Reads (escape text ++ after) fun args policy => text ++ output args policy := by
  -- a run up to the next opening brace is one literal, so the text shrinks by runs
  induction hlength : text.length using Nat.strong_induction_on generalizing text with
  | _ length ih =>
  subst hlength
  cases text with
  | nil => exact hafter
  | cons c text =>
    by_cases hc : c = '{'
    · subst hc
      exact (ih text.length (by simp) text rfl).leftBrace
    · obtain ⟨run, rest, hsplit, hne, hrun, hrest⟩ := exists_run_append hc text
      have hlt : rest.length < (c :: text).length := by
        have := List.length_pos_iff.mpr hne
        rw [hsplit, List.length_append]
        omega
      have hreads := ih rest.length hlt rest rfl
      rw [hsplit, TextTemplate.escape_append, List.append_assoc]
      simp only [List.append_assoc]
      exact hreads.run hne hrun (hrest.escape_append hstop)

/-! ### Interpolations -/

namespace Field

theorem fits (f : Field) (after : List Char) :
    (Piece.placeholder f.identifier f.specifier.written).Fits after := by
  refine ⟨f.closed, f.colonless, f.plain, ?_⟩
  cases f.specifier with
  | absent => trivial
  | inline text closed plain => exact ⟨closed, fun h => absurd h plain⟩
  | nested text path closed parses => exact closed

/-- The token of a field looks up what the field says. -/
theorem reads (f : Field) :
    (Piece.placeholder f.identifier f.specifier.written).Reads fun args policy =>
      f.output args policy := by
  have hsource : ∃ source, SpecifierSource.ofText? f.specifier.written = .ok source ∧
      ∀ args, source.bind (SpecifierSource.resolve args) = f.specifier.resolve args := by
    cases f.specifier with
    | absent => exact ⟨none, rfl, fun _ => rfl⟩
    | inline text closed plain =>
      refine ⟨some (.inline (String.ofList text)), rfl, fun args => ?_⟩
      show some (String.ofList text).toList = some text
      rw [String.toList_ofList]
    | nested text path closed parses =>
      refine ⟨some (.lookup path), ?_, fun _ => rfl⟩
      exact SpecifierSource.ofText?_nested_eq_ok_iff.mpr ⟨path, parses, rfl⟩
  intro start
  obtain ⟨source, htext, hresolve⟩ := hsource
  refine ⟨.placeholder f.path source, ?_, fun args policy => ?_⟩
  · exact Token.ofPiece_placeholder_eq_ok_iff.mpr ⟨f.path, source, f.parses, htext, rfl⟩
  · rw [Token.fill, hresolve]
    rfl

/-- A string is copied as it is, whatever braces are in it. -/
theorem output_of_resolve_string {f : Field} {args : List Value} {s : String}
    (h : f.path.resolve args = some (.string s)) (policy : FalsyPolicy) :
    f.output args policy = s.toList := by
  rw [output, h, render]
  split
  · next hblank =>
    cases policy with
    | blank =>
      have hempty : s.isEmpty = true := hblank
      rw [String.isEmpty_iff.mp hempty]
      rfl
    | render => cases hblank
  · rfl

end Field

theorem Reads.field (f : Field) {after : List Char} {output : List Value → FalsyPolicy → List Char}
    (hafter : Reads after output) :
    Reads (f.source ++ after) fun args policy => f.output args policy ++ output args policy :=
  Reads.cons (f.fits after) f.reads hafter

theorem stopsAt_parts (parts : List (Field × List Char)) :
    StopsAt '{' (parts.flatMap fun part => part.1.source ++ escape part.2) := by
  cases parts with
  | nil => exact .inl rfl
  | cons part parts => exact .inr rfl

theorem Reads.parts (parts : List (Field × List Char)) :
    Reads (parts.flatMap fun part => part.1.source ++ escape part.2) fun args policy =>
      parts.flatMap fun part => part.1.output args policy ++ part.2 := by
  induction parts with
  | nil => exact Reads.nil
  | cons part parts ih =>
    have hreads := (ih.escape_append part.2 (stopsAt_parts parts)).field part.1
    simpa only [List.flatMap_cons, List.append_assoc] using hreads

theorem Reads.fill {text : List Char} {output : List Value → FalsyPolicy → List Char}
    (h : Reads text output) :
    ∃ tokens, scan (String.ofList text) = .ok tokens ∧
      ∀ args policy, TextTemplate.fill tokens args policy = String.ofList (output args policy) := by
  obtain ⟨tokens, htokens, hfill⟩ := h 0
  refine ⟨tokens, ?_, fun args policy => ?_⟩
  · rw [scan, String.toList_ofList, htokens]
  · rw [TextTemplate.fill, hfill]

/-- Filling puts what each field contributes between the texts and changes nothing else: a text
with its braces doubled stands for itself, and the string a field leads to is not scanned again. -/
theorem fill_interpolation :
    (∀ (head : List Char) (parts : List (Field × List Char)),
      ∃ tokens, scan (interpolation head parts) = .ok tokens ∧
        ∀ args policy,
          fill tokens args policy = String.ofList
            (head ++ parts.flatMap fun part => part.1.output args policy ++ part.2) ∧
          fillBySlices? (interpolation head parts) tokens args policy =
            some (fill tokens args policy)) ∧
    (∀ (text : String) (args : List Value),
      format (String.ofList (escape text.toList)) args = .ok text) ∧
    ∀ (f : Field) (args : List Value) (policy : FalsyPolicy) (s : String),
      f.path.resolve args = some (.string s) → f.output args policy = s.toList := by
  have hinterpolation := fun (head : List Char) (parts : List (Field × List Char)) =>
    ((Reads.parts parts).escape_append head (stopsAt_parts parts)).fill
  refine ⟨fun head parts => ?_, fun text args => ?_, fun f args policy s h => ?_⟩
  · obtain ⟨tokens, hscan, hfill⟩ := hinterpolation head parts
    exact ⟨tokens, hscan, fun args policy =>
      ⟨hfill args policy, fillBySlices?_eq_some_fill hscan args policy⟩⟩
  · obtain ⟨tokens, hscan, hfill⟩ := hinterpolation text.toList []
    rw [List.flatMap_nil, List.append_nil] at hscan
    rw [format, hscan, Except.map, hfill, List.flatMap_nil, List.append_nil, String.ofList_toList]
  · exact Field.output_of_resolve_string h policy

theorem fill_interpolation_between_braces :
    ∃ tokens, scan "\x7d\x7d{{{0:>}}}" = .ok tokens ∧
      fill tokens [.string "a{0}"] .blank = "\x7d{a{0}}" := by
  let f : Field :=
    { identifier := ['0'], path := ⟨[.dot "0"]⟩, specifier := .inline ['>'] (by decide) (by decide)
      parses := by cbv
      colonless := by decide
      closed := by decide
      plain := by decide }
  obtain ⟨tokens, hscan, hfill⟩ := fill_interpolation.1 ['}', '{'] [(f, ['}'])]
  refine ⟨tokens, hscan, (hfill [.string "a{0}"] .blank).1.trans ?_⟩
  rw [List.flatMap_cons, fill_interpolation.2.2 f _ _ "a{0}" rfl]
  rfl

end TextTemplate
