import TextTemplate.Path.Parser
import TextTemplate.Proofs.Text.Runs

/-!
# Paths written and read

`Segment.Begins rest text s` says in which ways a segment can be written in front of `rest`, and a
text begins with at most one segment (`Segment.next?_eq_some_iff`).  A text is read as the segments
it is put together from in these ways (`Path.Spells`, `Path.parse_eq_ok_iff`).  What is read as a
path is well formed: it has a segment, and its keys are not empty and hold no delimiter.  A
well-formed path is read back from its text (`Path.parse_text`).
-/

namespace TextTemplate

/-! ### Keys -/

/-- A key that can be written: it has characters, and none of them parts keys. -/
structure IsKey (key : String) : Prop where
  ne_nil : key.toList ≠ []
  not_isDelimiter : ∀ c ∈ key.toList, ¬ isDelimiter c

/-- A text at which a key ends: there is no more of it, or it goes on with a delimiter. -/
def EndsKey (text : List Char) : Prop := ∀ c ∈ text.head?, isDelimiter c

section Keys

variable {key : String} {text rest : List Char}

/-- A key begins with a character that is no delimiter. -/
theorem IsKey.exists_cons (hkey : IsKey key) :
    ∃ c cs, key.toList = c :: cs ∧ ¬ isDelimiter c := by
  obtain ⟨c, cs, hcons⟩ := List.exists_cons_of_ne_nil hkey.ne_nil
  exact ⟨c, cs, hcons, hkey.not_isDelimiter c (by simp [hcons])⟩

theorem IsKey.not_endsKey_append (hkey : IsKey key) (rest : List Char) :
    ¬ EndsKey (key.toList ++ rest) := by
  obtain ⟨c, cs, hcons, hc⟩ := hkey.exists_cons
  intro hends
  exact hc (hends c (by simp [hcons]))

theorem endsKey_cons {d : Char} (hd : isDelimiter d) (rest : List Char) : EndsKey (d :: rest) := by
  intro c hc
  obtain rfl : d = c := Option.some.inj hc
  exact hd

theorem leadingKey_append (hkey : IsKey key) (hrest : EndsKey rest) :
    leadingKey (key.toList ++ rest) = key.toList :=
  takeWhile_append_of_head? (fun c hc => by simpa using hkey.not_isDelimiter c hc)
    fun c hc => by simpa using hrest c hc

theorem afterKey_append (hkey : IsKey key) (hrest : EndsKey rest) :
    afterKey (key.toList ++ rest) = rest :=
  dropWhile_append_of_head? (fun c hc => by simpa using hkey.not_isDelimiter c hc)
    fun c hc => by simpa using hrest c hc

/-- A text begins with one key only. -/
theorem IsKey.append_inj {other : String} {rest' : List Char} (hkey : IsKey key)
    (hother : IsKey other) (hrest : EndsKey rest) (hrest' : EndsKey rest')
    (h : key.toList ++ rest = other.toList ++ rest') : key = other ∧ rest = rest' := by
  constructor
  · rw [← String.toList_inj, ← leadingKey_append hkey hrest, h, leadingKey_append hother hrest']
  · rw [← afterKey_append hkey hrest, h, afterKey_append hother hrest']

theorem isKey_leadingKey (h : leadingKey text ≠ []) : IsKey (String.ofList (leadingKey text)) := by
  constructor
  · rwa [String.toList_ofList]
  · intro c hc
    rw [String.toList_ofList] at hc
    simpa using List.mem_takeWhile_imp hc

theorem endsKey_afterKey (text : List Char) : EndsKey (afterKey text) := by
  intro c hc
  have h := List.head?_dropWhile_not (!isDelimiter ·) text
  rw [afterKey] at hc
  rw [hc] at h
  simpa using h

end Keys

namespace Segment

/-! ### Single segments -/

/-- The ways in which a segment can be written in front of `rest`. -/
inductive Begins (rest : List Char) : List Char → Segment → Prop
  | bracket {key : String} : IsKey key →
    Begins rest ('[' :: (key.toList ++ ']' :: rest)) (.bracket key)
  | dot {key : String} : IsKey key → EndsKey rest →
    Begins rest ('.' :: (key.toList ++ rest)) (.dot key)
  /-- Without a dot, as at the start of a path. -/
  | bare {key : String} : IsKey key → EndsKey rest → Begins rest (key.toList ++ rest) (.dot key)

variable {text rest : List Char} {s : Segment}

theorem nextDot?_append {key : String} (hkey : IsKey key) (hrest : EndsKey rest) :
    nextDot? (key.toList ++ rest) = some (.dot key, rest) := by
  rw [nextDot?, leadingKey_append hkey hrest, afterKey_append hkey hrest, if_neg hkey.ne_nil,
    String.ofList_toList]

theorem nextBracket?_append {key : String} (hkey : IsKey key) :
    nextBracket? (key.toList ++ ']' :: rest) = some (.bracket key, rest) := by
  have hrest : EndsKey (']' :: rest) := endsKey_cons rfl rest
  rw [nextBracket?, leadingKey_append hkey hrest, afterKey_append hkey hrest, if_neg hkey.ne_nil,
    String.ofList_toList]
  rfl

theorem next?_of_begins (h : Begins rest text s) : next? text = some (s, rest) := by
  cases h with
  | bracket hkey => exact nextBracket?_append hkey
  | dot hkey hrest => exact nextDot?_append hkey hrest
  | @bare key hkey hrest =>
    -- the key begins with no delimiter
    have hdot := nextDot?_append hkey hrest
    obtain ⟨c, cs, hcons, hc⟩ := hkey.exists_cons
    rw [hcons, List.cons_append] at hdot ⊢
    unfold next?
    split
    · next heq =>
      obtain rfl := (List.cons.inj heq).1
      exact absurd rfl hc
    · next heq =>
      obtain rfl := (List.cons.inj heq).1
      exact absurd rfl hc
    · exact hdot

theorem eq_of_nextDot? (h : nextDot? text = some (s, rest)) :
    ∃ key, s = .dot key ∧ IsKey key ∧ EndsKey rest ∧ text = key.toList ++ rest := by
  unfold nextDot? at h
  split at h
  · cases h
  · next hne =>
    cases h
    refine ⟨_, rfl, isKey_leadingKey hne, endsKey_afterKey text, ?_⟩
    rw [String.toList_ofList]
    exact List.takeWhile_append_dropWhile.symm

theorem eq_of_nextBracket? (h : nextBracket? text = some (s, rest)) :
    ∃ key, s = .bracket key ∧ IsKey key ∧ text = key.toList ++ ']' :: rest := by
  unfold nextBracket? at h
  split at h
  · cases h
  · next hne =>
    split at h
    · next heq =>
      cases h
      refine ⟨_, rfl, isKey_leadingKey hne, ?_⟩
      rw [String.toList_ofList, ← heq]
      exact List.takeWhile_append_dropWhile.symm
    · cases h

theorem begins_of_next? (h : next? text = some (s, rest)) : Begins rest text s := by
  unfold next? at h
  split at h
  · obtain ⟨key, rfl, hkey, rfl⟩ := eq_of_nextBracket? h
    exact .bracket hkey
  · obtain ⟨key, rfl, hkey, hrest, rfl⟩ := eq_of_nextDot? h
    exact .dot hkey hrest
  · obtain ⟨key, rfl, hkey, hrest, rfl⟩ := eq_of_nextDot? h
    exact .bare hkey hrest

/-- A text begins with the one segment that is written in front of the rest. -/
theorem next?_eq_some_iff : next? text = some (s, rest) ↔ Begins rest text s :=
  ⟨begins_of_next?, next?_of_begins⟩

theorem Begins.isKey (h : Begins rest text s) : IsKey s.key := by
  cases h with
  | bracket hkey => exact hkey
  | dot hkey _ => exact hkey
  | bare hkey _ => exact hkey

/-- What a segment is written with stands in front of the rest, the key in it. -/
theorem Begins.exists_append (h : Begins rest text s) :
    ∃ taken, text = taken ++ rest ∧ taken ≠ [] ∧ ∀ c ∈ s.key.toList, c ∈ taken := by
  cases h with
  | @bracket key _ =>
    refine ⟨'[' :: (key.toList ++ [']']), by simp, by simp, fun c hc => ?_⟩
    exact List.mem_cons_of_mem _ (List.mem_append_left _ hc)
  | @dot key _ _ => exact ⟨'.' :: key.toList, rfl, by simp, fun c hc => List.mem_cons_of_mem _ hc⟩
  | @bare key hkey _ => exact ⟨key.toList, rfl, hkey.ne_nil, fun c hc => hc⟩

theorem begins_text_append (hkey : IsKey s.key) (hrest : EndsKey rest) :
    Begins rest (s.text ++ rest) s := by
  cases s with
  | bracket key =>
    have h : Begins rest ('[' :: (key.toList ++ ']' :: rest)) (.bracket key) := .bracket hkey
    simpa [text] using h
  | dot key => exact .dot hkey hrest

theorem endsKey_text_append (s : Segment) (rest : List Char) : EndsKey (s.text ++ rest) := by
  cases s with
  | bracket key => exact endsKey_cons rfl _
  | dot key => exact endsKey_cons rfl _

theorem endsKey_flatMap_text (segments : List Segment) :
    EndsKey (segments.flatMap Segment.text) := by
  cases segments with
  | nil =>
    intro c hc
    cases hc
  | cons s segments =>
    rw [List.flatMap_cons]
    exact endsKey_text_append s _

end Segment

/-! ### Outcomes -/

section Outcomes

variable {ε α β : Type} {f : α → β} {result : Except ε α}

theorem map_eq_ok_iff {b : β} : result.map f = .ok b ↔ ∃ a, result = .ok a ∧ f a = b := by
  cases result with
  | error e => exact ⟨nofun, nofun⟩
  | ok a => simp [Except.map]

theorem map_eq_error_iff {e : ε} : result.map f = .error e ↔ result = .error e := by
  cases result with
  | error e' => simp [Except.map]
  | ok a => exact ⟨nofun, nofun⟩

end Outcomes

/-! ### Paths -/

namespace Path

/-- The paths that can be written: there is a segment, and every key can be written. -/
structure IsWritable (p : Path) : Prop where
  ne_nil : p.segments ≠ []
  isKey : ∀ s ∈ p.segments, IsKey s.key

/-- The text is the segments one after the other, each written in front of the ones behind it. -/
inductive Spells : List Char → List Segment → Prop
  | last {text : List Char} {s : Segment} : Segment.Begins [] text s → Spells text [s]
  | more {text rest : List Char} {s : Segment} {segments : List Segment} :
    Segment.Begins rest text s → Spells rest segments → Spells text (s :: segments)

section Segments

variable {text : List Char} {segments : List Segment}

theorem Spells.text_ne_nil (h : Spells text segments) : text ≠ [] := by
  have hbegins : ∃ rest s, Segment.Begins rest text s := by
    cases h with
    | last hs => exact ⟨_, _, hs⟩
    | more hs _ => exact ⟨_, _, hs⟩
  obtain ⟨rest, s, hs⟩ := hbegins
  obtain ⟨taken, rfl, hne, -⟩ := hs.exists_append
  exact List.append_ne_nil_of_left_ne_nil hne _

theorem parseSegments_of_next? {text rest : List Char} {s : Segment}
    (h : Segment.next? text = some (s, rest)) :
    parseSegments text =
      if rest = [] then .ok [s] else (parseSegments rest).map (s :: ·) := by
  rw [parseSegments]
  split
  · next hnone => rw [h] at hnone; cases hnone
  · next hsome =>
    rw [h] at hsome
    cases hsome
    rfl

theorem Spells.parseSegments_eq_ok (h : Spells text segments) :
    parseSegments text = .ok segments := by
  induction h with
  | last hs => rw [parseSegments_of_next? (Segment.next?_of_begins hs), if_pos rfl]
  | more hs hrest ih =>
    rw [parseSegments_of_next? (Segment.next?_of_begins hs), if_neg hrest.text_ne_nil, ih]
    rfl

theorem spells_of_parseSegments (h : parseSegments text = .ok segments) :
    Spells text segments := by
  fun_induction parseSegments text generalizing segments with
  | case1 text hnext => cases h
  | case2 text s hnext =>
    cases h
    exact .last (Segment.begins_of_next? hnext)
  | case3 text s rest hnext hrest ih =>
    obtain ⟨others, hparse, rfl⟩ := map_eq_ok_iff.mp h
    exact .more (Segment.begins_of_next? hnext) (ih hparse)

/-- The segments that are read are the ones the text is put together from. -/
theorem parseSegments_eq_ok_iff : parseSegments text = .ok segments ↔ Spells text segments :=
  ⟨spells_of_parseSegments, Spells.parseSegments_eq_ok⟩

theorem parse_eq_ok_iff {p : Path} : parse text = .ok p ↔ Spells text p.segments := by
  rw [← parseSegments_eq_ok_iff, parse, map_eq_ok_iff]
  constructor
  · rintro ⟨segments, h, rfl⟩
    exact h
  · intro h
    exact ⟨p.segments, h, rfl⟩

theorem spells_cons {s : Segment}
    (hs : Segment.Begins (segments.flatMap Segment.text) text s)
    (hrest : segments ≠ [] → Spells (segments.flatMap Segment.text) segments) :
    Spells text (s :: segments) := by
  cases segments with
  | nil => exact .last hs
  | cons t segments => exact .more hs (hrest (List.cons_ne_nil t segments))

/-- Segments are read back from their texts. -/
theorem spells_flatMap_text (hne : segments ≠ []) (hkeys : ∀ s ∈ segments, IsKey s.key) :
    Spells (segments.flatMap Segment.text) segments := by
  induction segments with
  | nil => exact absurd rfl hne
  | cons s segments ih =>
    refine spells_cons ?_ fun hne => ih hne fun t ht => hkeys t (List.mem_cons_of_mem _ ht)
    exact Segment.begins_text_append (hkeys s List.mem_cons_self)
      (Segment.endsKey_flatMap_text segments)

/-- What is read as segments can be written, and its keys occur in the text. -/
theorem Spells.isKey_and_mem (h : Spells text segments) :
    segments ≠ [] ∧ ∀ s ∈ segments, IsKey s.key ∧ ∀ c ∈ s.key.toList, c ∈ text := by
  induction h with
  | @last text s hs =>
    obtain ⟨taken, rfl, -, hkey⟩ := hs.exists_append
    refine ⟨List.cons_ne_nil _ _, fun t ht => ?_⟩
    rw [List.mem_singleton.mp ht]
    exact ⟨hs.isKey, fun c hc => List.mem_append_left _ (hkey c hc)⟩
  | @more text rest s segments hs _ ih =>
    obtain ⟨taken, rfl, -, hkey⟩ := hs.exists_append
    refine ⟨List.cons_ne_nil _ _, fun t ht => ?_⟩
    rcases List.mem_cons.mp ht with rfl | ht
    · exact ⟨hs.isKey, fun c hc => List.mem_append_left _ (hkey c hc)⟩
    · obtain ⟨ht, hmem⟩ := ih.2 t ht
      exact ⟨ht, fun c hc => List.mem_append_right _ (hmem c hc)⟩

end Segments

/-- A path is read back from its text, of which the first dot is missing. -/
theorem parse_text {p : Path} (h : p.IsWritable) : parse p.text = .ok p := by
  rw [parse_eq_ok_iff]
  obtain ⟨segments⟩ := p
  unfold text
  split
  · next key rest heq =>
    obtain rfl : segments = .dot key :: rest := heq
    have hkey : IsKey key := h.isKey (.dot key) List.mem_cons_self
    refine spells_cons (.bare hkey (Segment.endsKey_flatMap_text rest)) fun hne => ?_
    exact spells_flatMap_text hne fun t ht => h.isKey t (List.mem_cons_of_mem _ ht)
  · exact spells_flatMap_text h.ne_nil h.isKey

theorem isWritable_of_parse {text : List Char} {p : Path} (h : parse text = .ok p) :
    p.IsWritable := by
  obtain ⟨hne, hkeys⟩ := (parse_eq_ok_iff.mp h).isKey_and_mem
  exact ⟨hne, fun s hs => (hkeys s hs).1⟩

/-- The characters of the keys come from the text. -/
theorem mem_of_parse {text : List Char} {p : Path} (h : parse text = .ok p) {key : String}
    (hkey : key ∈ p.keys) {c : Char} (hc : c ∈ key.toList) : c ∈ text := by
  obtain ⟨s, hs, rfl⟩ := List.mem_map.mp hkey
  exact ((parse_eq_ok_iff.mp h).isKey_and_mem.2 s hs).2 c hc

/-- Besides delimiters, a path is written with the characters of its keys. -/
theorem of_mem_text {p : Path} {c : Char} (hc : c ∈ p.text) :
    isDelimiter c ∨ ∃ key ∈ p.keys, c ∈ key.toList := by
  have hsegment : ∀ s : Segment, c ∈ s.text → isDelimiter c ∨ c ∈ s.key.toList := by
    intro s hs
    cases s with
    | bracket key =>
      have hcases : c = '[' ∨ c ∈ key.toList ∨ c = ']' := by simpa [Segment.text] using hs
      rcases hcases with rfl | hmem | rfl
      · exact .inl rfl
      · exact .inr hmem
      · exact .inl rfl
    | dot key =>
      rcases List.mem_cons.mp hs with rfl | hmem
      · exact .inl rfl
      · exact .inr hmem
  have hsegments : ∀ segments : List Segment, c ∈ segments.flatMap Segment.text →
      isDelimiter c ∨ ∃ key ∈ segments.map Segment.key, c ∈ key.toList := by
    intro segments hmem
    obtain ⟨s, hs, hmem⟩ := List.mem_flatMap.mp hmem
    exact (hsegment s hmem).imp_right fun h => ⟨s.key, List.mem_map_of_mem hs, h⟩
  obtain ⟨segments⟩ := p
  unfold text at hc
  split at hc
  · next key rest heq =>
    obtain rfl : segments = .dot key :: rest := heq
    rcases List.mem_append.mp hc with hc | hc
    · exact .inr ⟨key, List.mem_cons_self, hc⟩
    · exact (hsegments rest hc).imp_right fun ⟨k, hk, h⟩ => ⟨k, List.mem_cons_of_mem _ hk, h⟩
  · exact hsegments segments hc

end Path

end TextTemplate
