import TextTemplate.Proofs.Path.RoundTrip
import TextTemplate.Proofs.Specifier.Checked
import TextTemplate.Proofs.Template.FirstError
import TextTemplate.Proofs.Template.InPlace

/-!
# Filling comes to an end

A template filled in place: scanned with a loop over its bytes, the literals cut out of it at their
places and collapsed from one doubled brace to the next, and numbers written in checked steps, with
all their fill characters (`formatInPlace?`).  None of it fails and all of it ends, for every
template, all arguments and both policies (`formatInPlace?_eq_some`).  Only a path that cannot be
read is an error.
-/

namespace TextTemplate

/-! ### Literals -/

namespace InPlace

/-- The place of the first doubled closing brace. -/
def doubledPlace? : List Char → Option Nat
  | '}' :: '}' :: _ => some 0
  | c :: text => (doubledPlace? text).map (c.utf8Size + ·)
  | [] => none

theorem doubledPlace?_cons {c : Char} {text : List Char}
    (h : ∀ rest, c = '}' → text = '}' :: rest → False) :
    doubledPlace? (c :: text) = (doubledPlace? text).map (c.utf8Size + ·) :=
  doubledPlace?.eq_2 c text h

theorem collapse_of_doubledPlace?_eq_none {text : List Char} (h : doubledPlace? text = none) :
    collapse text = text := by
  fun_induction collapse text with
  | case1 text ih => cases h
  | case2 c text hnot ih =>
    rw [doubledPlace?_cons hnot, Option.map_eq_none_iff] at h
    rw [ih h]
  | case3 => rfl

/-- Up to the first doubled closing brace a text stays as it is. -/
theorem exists_append_of_doubledPlace? {text : List Char} {place : Nat}
    (h : doubledPlace? text = some place) :
    ∃ before after, text = before ++ '}' :: '}' :: after ∧ place = byteLength before ∧
      collapse text = before ++ '}' :: collapse after := by
  fun_induction collapse text generalizing place with
  | case1 text ih =>
    cases h
    exact ⟨[], text, rfl, rfl, rfl⟩
  | case2 c text hnot ih =>
    rw [doubledPlace?_cons hnot, Option.map_eq_some_iff] at h
    obtain ⟨place, hplace, rfl⟩ := h
    obtain ⟨before, after, htext, rfl, hcollapse⟩ := ih hplace
    refine ⟨c :: before, after, ?_, (byteLength_cons c before).symm, ?_⟩
    · rw [htext, List.cons_append]
    · rw [hcollapse, List.cons_append]
  | case3 => cases h

theorem length_lt_of_cut? {text rest : List Char} {place : Nat}
    (h : cut? text (place + 2) (byteLength text) = some rest) : rest.length < text.length := by
  obtain ⟨before, after, rfl, hplace⟩ := exists_append_of_cut? h
  rw [hplace, cut?_to_end, Option.some.injEq] at h
  subst h
  have hne : before ≠ [] := by
    rintro rfl
    cases hplace
  have hpos := List.length_pos_iff.mpr hne
  rw [List.length_append]
  omega

/-- Literal text up to and with the first brace of each doubled one, and on behind the second. -/
def collapse? (text : List Char) : Option (List Char) :=
  match doubledPlace? text with
  | none => some text
  | some place =>
    match cut? text 0 (place + 1), _h : cut? text (place + 2) (byteLength text) with
    | some head, some rest => (collapse? rest).map (head ++ ·)
    | _, _ => none
termination_by text.length
decreasing_by exact length_lt_of_cut? _h

theorem collapse?_eq_some (text : List Char) : collapse? text = some (collapse text) := by
  -- what is behind a doubled brace is shorter than the text
  generalize hn : text.length = n
  induction n using Nat.strong_induction_on generalizing text with
  | _ n ih =>
  rw [collapse?]
  split
  · next h => rw [collapse_of_doubledPlace?_eq_none h]
  · next place h =>
    obtain ⟨before, after, htext, rfl, hcollapse⟩ := exists_append_of_doubledPlace? h
    have hhead : cut? text 0 (byteLength before + 1) = some (before ++ ['}']) :=
      cut?_eq_some [] ('}' :: after) (by simp [htext]) rfl
        (byteLength_concat before '}').symm
    have hrest : cut? text (byteLength before + 2) (byteLength text) = some after :=
      cut?_eq_some (before ++ ['}', '}']) [] (by simp [htext])
        (by rw [byteLength_append]; rfl) (by simp [htext])
    have hlt : after.length < n := by
      rw [← hn]
      exact length_lt_of_cut? hrest
    split
    · next head rest hhead' hrest' =>
      obtain rfl := Option.some.inj (hhead.symm.trans hhead')
      obtain rfl := Option.some.inj (hrest.symm.trans hrest')
      rw [ih _ hlt after rfl, hcollapse]
      exact congrArg some (List.append_cons before '}' _).symm
    · -- one of the two cuts would have failed
      next hnone => exact absurd hrest (hnone _ _ hhead)

/-! ### Filling -/

/-- What the value found for a placeholder contributes, numbers being written in checked steps. -/
def render? (policy : FalsyPolicy) (specifier : Option (List Char)) :
    Option Value → Option (List Char)
  | none => some []
  | some v =>
    if policy.blanks v then some []
    else
      match v with
      | .number x => formatNumber? x specifier
      | v => some v.text

/-- What a token contributes, a literal being cut out of the template. -/
def contribution? (template : String) (args : List Value) (policy : FalsyPolicy) :
    Token → Option (List Char)
  | .literal start text =>
    (slice? template start (start + text.utf8ByteSize)).bind (collapse? ·.toList)
  | .leftBrace => some ['{']
  | .placeholder path specifier =>
    render? policy (specifier.bind (SpecifierSource.resolve args)) (path.resolve args)

theorem render?_eq_some (policy : FalsyPolicy) (specifier : Option (List Char))
    (v : Option Value) : render? policy specifier v = some (render policy specifier v) := by
  cases v with
  | none => rfl
  | some v =>
    simp only [render?, render]
    split
    · rfl
    · cases v with
      | number x => exact formatNumber?_eq_some_formatNumber x specifier
      | null | bool | string | array | object => rfl

theorem contribution?_eq_some {template : String} {tokens : List Token} {token : Token}
    (h : scan template = .ok tokens) (hmem : token ∈ tokens) (args : List Value)
    (policy : FalsyPolicy) :
    contribution? template args policy token = some (token.fill args policy) := by
  cases token with
  | literal start text =>
    rw [contribution?, slice?_of_scan h hmem, Option.bind_some, collapse?_eq_some, Token.fill]
  | leftBrace => rfl
  | placeholder path specifier => exact render?_eq_some _ _ _

end InPlace

open InPlace

/-- A scanned template filled in place. -/
def fillInPlace? (template : String) (tokens : List Token) (args : List Value)
    (policy : FalsyPolicy) : Option String :=
  (tokens.mapM (contribution? template args policy)).map (String.ofList ·.flatten)

/-- A template scanned and filled in place. -/
def formatInPlace? (template : String) (args : List Value) (policy : FalsyPolicy) :
    Option (Except FormatError String) := do
  let scanned ← scanInPlace? template
  match scanned with
  | .error e => return .error e
  | .ok tokens =>
    let text ← fillInPlace? template tokens args policy
    return .ok text

/-- Filling a scanned template in place comes to an end. -/
theorem fillInPlace?_eq_some_fill {template : String} {tokens : List Token}
    (h : scan template = .ok tokens) (args : List Value) (policy : FalsyPolicy) :
    fillInPlace? template tokens args policy = some (fill tokens args policy) := by
  have htexts := mapM_eq_some_map fun token hmem => contribution?_eq_some h hmem args policy
  rw [fillInPlace?, htexts, fill, List.flatMap_def]
  rfl

theorem formatInPlace?_eq_some (template : String) (args : List Value) (policy : FalsyPolicy) :
    formatInPlace? template args policy = some ((scan template).map (fill · args policy)) := by
  rw [formatInPlace?, scanInPlace?_eq_some_scan]
  cases hscan : scan template with
  | error e => rfl
  | ok tokens =>
    simp only [Option.bind_eq_bind, Option.bind_some, fillInPlace?_eq_some_fill hscan args policy]
    rfl

/-! ### Errors -/

/-- The only thing that can go wrong is that a path cannot be read. -/
def FailsOnPath {α : Type} (result : Except FormatError α) : Prop :=
  ∀ e, result = .error e → ∃ path, e = .invalidIdentifier path

theorem failsOnPath_ok {α : Type} (a : α) : FailsOnPath (.ok a : Except FormatError α) := by
  intro e h
  cases h

theorem FailsOnPath.map {α β : Type} {result : Except FormatError α} {f : α → β}
    (h : FailsOnPath result) : FailsOnPath (result.map f) := by
  intro e he
  exact h e (map_eq_error_iff.mp he)

theorem Path.failsOnPath_parseSegments (text : List Char) : FailsOnPath (parseSegments text) := by
  fun_induction parseSegments text with
  | case1 text h =>
    intro e he
    cases he
    exact ⟨_, rfl⟩
  | case2 text segment h => exact failsOnPath_ok _
  | case3 text segment rest h hrest ih => exact ih.map

theorem Path.failsOnPath_parse (text : List Char) : FailsOnPath (parse text) :=
  (failsOnPath_parseSegments text).map

theorem failsOnPath_scan (template : String) : FailsOnPath (scan template) := by
  intro e he
  obtain ⟨text, -, htext⟩ := (scan_eq_error_iff.mp he).exists_parse_eq_error
  exact Path.failsOnPath_parse text e htext

/-! ### The whole run -/

/-- Filling a template comes to an end, whatever the template, the arguments and the policy.

The scanner takes its turns at places where the template can be cut, each turn finds what it cuts
out, and the next one is further on and still in the template.  Reading a path goes past at least
one character with each segment.  The places of the literals are slices of the template.  Numbers
have no length that is subtracted from a smaller one, are cut only behind a sign, become integers
of 128 bits without loss, and are never longer than a string can be, nor is what they are filled up
with.  So scanning, filling and writing numbers have their results, and the only error is a path
that cannot be read. -/
theorem runs_to_completion (template : String) (args : List Value) (policy : FalsyPolicy) :
    (scanInPlace? template = some (scan template) ∧
      ∀ place, Reached template place →
        (⟨place⟩ : String.Pos.Raw).IsValid template ∧ place ≤ template.utf8ByteSize ∧
          ∃ turn, turn? template.toList place = some turn ∧
            ∀ tokens stop, turn = .next tokens stop →
              place < stop ∧ stop ≤ template.utf8ByteSize) ∧
    (∀ text segment rest, Segment.next? text = some (segment, rest) →
      ∃ taken, text = taken ++ rest ∧ taken ≠ []) ∧
    (∀ tokens, scan template = .ok tokens →
      (∀ start text, .literal start text ∈ tokens →
        slice? template start (start + text.utf8ByteSize) = some text) ∧
      fillInPlace? template tokens args policy = some (fill tokens args policy)) ∧
    (∀ x specifier, formatNumber? x specifier = some (formatNumber x specifier)) ∧
    (∀ x : Binary64.Finite, x.roundDown.toRat = ⌊x.toRat⌋ ∧
      (|⌊x.toRat⌋| < integralLimit → x.roundDown.toInt128? = some ⌊x.toRat⌋)) ∧
    formatInPlace? template args policy = some ((scan template).map (fill · args policy)) ∧
    ∀ e, scan template = .error e → ∃ path, e = .invalidIdentifier path := by
  refine ⟨⟨scanInPlace?_eq_some_scan template, fun place hplace => ?_⟩,
    fun text segment rest hnext => ?_, fun tokens hscan => ⟨fun start text hmem => ?_, ?_⟩,
    formatNumber?_eq_some_formatNumber, fun x => ⟨x.toRat_roundDown, fun hx => ?_⟩,
    formatInPlace?_eq_some template args policy, failsOnPath_scan template⟩
  · exact hplace.isValid_and_exists_turn?
  · obtain ⟨taken, htext, hne, -⟩ := (Segment.next?_eq_some_iff.mp hnext).exists_append
    exact ⟨taken, htext, hne⟩
  · exact slice?_of_scan hscan hmem
  · exact fillInPlace?_eq_some_fill hscan args policy
  · have hlimit : x.floor.natAbs < integralLimit := x.abs_floor_lt_iff.mp hx
    rw [Binary64.Finite.floor_toRat]
    exact Binary64.Finite.toInt128?_roundDown (hlimit.trans integralLimit_lt)

end TextTemplate
