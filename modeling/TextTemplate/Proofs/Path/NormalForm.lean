import TextTemplate.Proofs.Path.RoundTrip

/-!
# The normal form of a path's text

A path can be written in several ways: a dot may stand in front of the first key, and none need
stand between a bracket and the key behind it.  Writing what was read settles both and changes
nothing else (`Path.text_by_normalText`).

What a later segment is written as depends on what is in front of it only by that dot, so the
induction over the segments is on `led`, the text with the dot a key at its head needs there.
-/

namespace TextTemplate

/-- The text begins with a character that is no delimiter. -/
def beginsKey (text : List Char) : Bool := text.head?.any (!isDelimiter ·)

/-- The text with a dot between every `]` and a character that is no delimiter directly behind
it. -/
def dotted : List Char → List Char
  | [] => []
  | c :: text =>
    if c = ']' ∧ beginsKey text then c :: '.' :: dotted text else c :: dotted text

/-- The text without a dot at its head, and with one behind every `]` that a key follows. -/
def normalText (text : List Char) : List Char :=
  dotted (if text.head? = some '.' then text.tail else text)

/-- The text as it stands behind other segments. -/
def led (text : List Char) : List Char :=
  if beginsKey text then '.' :: dotted text else dotted text

section Dots

variable {key : String} {text rest run : List Char} {s : Segment}

theorem EndsKey.not_beginsKey (h : EndsKey text) : ¬ beginsKey text := by
  cases text with
  | nil => simp [beginsKey]
  | cons c text => simpa [beginsKey] using h c rfl

theorem IsKey.beginsKey_append (hkey : IsKey key) (rest : List Char) :
    beginsKey (key.toList ++ rest) := by
  obtain ⟨c, cs, hcons, hc⟩ := hkey.exists_cons
  simpa [beginsKey, hcons] using hc

theorem dotted_run_append (h : ']' ∉ run) : dotted (run ++ rest) = run ++ dotted rest := by
  induction run with
  | nil => rfl
  | cons c run ih =>
    rw [List.mem_cons, not_or] at h
    rw [List.cons_append, dotted, if_neg fun hc => h.1 hc.1.symm, ih h.2, List.cons_append]

theorem dotted_closing (text : List Char) : dotted (']' :: text) = ']' :: led text := by
  by_cases h : beginsKey text
  · rw [dotted, led, if_pos ⟨rfl, h⟩, if_pos h]
  · rw [dotted, led, if_neg fun hc => h hc.2, if_neg h]

theorem IsKey.dotted_append (hkey : IsKey key) (rest : List Char) :
    dotted (key.toList ++ rest) = key.toList ++ dotted rest :=
  dotted_run_append fun hmem => hkey.not_isDelimiter ']' hmem rfl

theorem led_of_endsKey (h : EndsKey text) : led text = dotted text :=
  if_neg h.not_beginsKey

namespace Segment

/-- Behind other segments, however it was written, a segment has its text. -/
theorem Begins.led_eq (hs : Begins rest text s) : led text = s.text ++ led rest := by
  cases hs with
  | @bracket key hkey =>
    rw [led_of_endsKey (endsKey_cons rfl _), dotted, if_neg (by simp), hkey.dotted_append,
      dotted_closing]
    simp [Segment.text]
  | @dot key hkey hrest =>
    rw [led_of_endsKey (endsKey_cons rfl _), dotted, if_neg (by simp), hkey.dotted_append,
      led_of_endsKey hrest]
    rfl
  | @bare key hkey hrest =>
    rw [led, if_pos (hkey.beginsKey_append rest), hkey.dotted_append, led_of_endsKey hrest]
    rfl

/-- At the start of a path a dot has no dot in front. -/
theorem Begins.normalText_eq {others : List Segment} (hs : Begins rest text s)
    (hrest : led rest = others.flatMap Segment.text) :
    normalText text = Path.text ⟨s :: others⟩ := by
  cases hs with
  | @bracket key hkey =>
    have hled := (@Begins.bracket rest key hkey).led_eq
    rw [led_of_endsKey (endsKey_cons rfl _)] at hled
    rw [normalText, if_neg (by simp), hled, hrest]
    rfl
  | @dot key hkey hends =>
    rw [normalText, List.head?_cons, if_pos rfl, List.tail_cons, hkey.dotted_append,
      ← led_of_endsKey hends, hrest]
    rfl
  | @bare key hkey hends =>
    have hhead : (key.toList ++ rest).head? ≠ some '.' := by
      intro hhead
      have hbegins := hkey.beginsKey_append rest
      simp [beginsKey, hhead, isDelimiter] at hbegins
    rw [normalText, if_neg hhead, hkey.dotted_append, ← led_of_endsKey hends, hrest]
    rfl

end Segment

end Dots

namespace Path

variable {text : List Char} {segments : List Segment}

theorem Spells.led_eq (h : Spells text segments) : led text = segments.flatMap Segment.text := by
  induction h with
  | last hs => simpa [led, beginsKey, dotted] using hs.led_eq
  | more hs _ ih => rw [hs.led_eq, ih, List.flatMap_cons]

/-- The segments are written in the normal form of what they were read from. -/
theorem Spells.normalText_eq (h : Spells text segments) :
    normalText text = Path.text ⟨segments⟩ := by
  cases h with
  | last hs => exact hs.normalText_eq rfl
  | more hs hrest => exact hs.normalText_eq hrest.led_eq

/-- Writing a path and reading it again.

A path with keys that can be written is what its text is read as, kinds of segments included, and
every path that is read has such keys.  It is written in the normal form of the text it was read
from; that is read as the same path, and is its own normal form.  So two paths that were read and
are written alike are the same. -/
theorem text_by_normalText :
    (∀ p : Path, p.IsWritable → parse p.text = .ok p) ∧
    (∀ text p, parse text = .ok p →
      p.IsWritable ∧ p.text = normalText text ∧ parse (normalText text) = .ok p ∧
        normalText (normalText text) = normalText text) ∧
    ∀ text text' p q, parse text = .ok p → parse text' = .ok q → p.text = q.text → p = q := by
  refine ⟨fun p hp => parse_text hp, fun text p hp => ?_, fun text text' p q hp hq heq => ?_⟩
  · have hwritable : p.IsWritable := isWritable_of_parse hp
    have htext : p.text = normalText text := (parse_eq_ok_iff.mp hp).normalText_eq.symm
    have hread : parse (normalText text) = .ok p := htext ▸ parse_text hwritable
    exact ⟨hwritable, htext, hread, (parse_eq_ok_iff.mp hread).normalText_eq.trans htext⟩
  · have hp' : parse p.text = .ok p := parse_text (isWritable_of_parse hp)
    have hq' : parse q.text = .ok q := parse_text (isWritable_of_parse hq)
    rw [heq, hq'] at hp'
    exact (Except.ok.inj hp').symm

/-- Both changes at once: the dot goes from the front to where a key follows a bracket. -/
example : normalText ".a[b]c.d".toList = "a[b].c.d".toList := by decide

end Path

end TextTemplate
