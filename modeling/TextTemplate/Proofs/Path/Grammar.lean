import TextTemplate.Proofs.Path.RoundTrip

/-!
# Which texts are paths

Reading takes one segment after the other, with no look at the whole of the text.  What is read as a
path can be told from where the delimiters stand (`IsWellDelimited`), and the segments from the
longest runs without one (`KeyRun`).  Where reading fails, everything before the rest that is
reported is read as a path (`Path.parse_by_delimiters`).

Each of these facts is shown for one segment in front of a rest, following `Segment.Begins`, and
then for all of them, following `Path.Spells`.
-/

namespace TextTemplate

/-! ### Where delimiters stand -/

/-- A delimiter has its place between what is in front of it and what is behind it. -/
inductive IsPlaced : List Char → Char → List Char → Prop
  | opens {before : List Char} {key : String} {rest : List Char} : IsKey key →
    IsPlaced before '[' (key.toList ++ ']' :: rest)
  | closes {front : List Char} {key : String} {after : List Char} : IsKey key →
    IsPlaced (front ++ '[' :: key.toList) ']' after
  | leads {before : List Char} {c : Char} {rest : List Char} : ¬ isDelimiter c →
    IsPlaced before '.' (c :: rest)

/-- Every delimiter of the text has its place in it. -/
def IsWellDelimited (text : List Char) : Prop :=
  ∀ before d after, text = before ++ d :: after → isDelimiter d → IsPlaced before d after

section Delimiters

variable {key : String} {d : Char} {text rest before after : List Char} {s : Segment}

theorem IsKey.append_eq_append_cons (hkey : IsKey key) (hd : isDelimiter d)
    (h : key.toList ++ rest = before ++ d :: after) :
    ∃ front, before = key.toList ++ front ∧ rest = front ++ d :: after := by
  rcases List.append_eq_append_iff.mp h with ⟨front, hbefore, hrest⟩ | ⟨tail, hsplit, htail⟩
  · exact ⟨front, hbefore, hrest⟩
  · cases tail with
    | nil => exact ⟨[], by simpa using hsplit.symm, by simpa using htail.symm⟩
    | cons c tail =>
      obtain ⟨rfl, -⟩ := List.cons.inj htail
      exact absurd hd (hkey.not_isDelimiter d (by simp [hsplit]))

theorem IsPlaced.append_left (h : IsPlaced before d after) (front : List Char) :
    IsPlaced (front ++ before) d after := by
  cases h with
  | opens hkey => exact .opens hkey
  | closes hkey =>
    rw [← List.append_assoc]
    exact .closes hkey
  | leads hc => exact .leads hc

theorem isWellDelimited_nil : IsWellDelimited [] := by
  intro before d after h
  simp at h

/-- In front of a well delimited text a segment has its delimiters in their places. -/
theorem IsWellDelimited.of_begins (hs : Segment.Begins rest text s) (h : IsWellDelimited rest) :
    IsWellDelimited text := by
  have hkeyed : ∀ {key : String}, IsKey key → IsWellDelimited (key.toList ++ rest) := by
    intro key hkey before d after heq hd
    obtain ⟨front, rfl, hrest⟩ := hkey.append_eq_append_cons hd heq
    exact (h front d after hrest hd).append_left _
  intro before d after heq hd
  cases hs with
  | @bracket key hkey =>
    rcases List.cons_eq_append_iff.mp heq with ⟨rfl, hopen⟩ | ⟨inner, rfl, hinner⟩
    · obtain ⟨rfl, rfl⟩ := List.cons.inj hopen
      exact .opens hkey
    · obtain ⟨front, rfl, hclose⟩ := hkey.append_eq_append_cons hd hinner
      rcases List.cons_eq_append_iff.mp hclose with ⟨rfl, hclose⟩ | ⟨front, rfl, hrest⟩
      · obtain ⟨rfl, rfl⟩ := List.cons.inj hclose
        rw [List.append_nil]
        exact @IsPlaced.closes [] _ _ hkey
      · have hfront := (h front d after hrest hd).append_left ('[' :: (key.toList ++ [']']))
        simpa using hfront
  | @dot key hkey _ =>
    rcases List.cons_eq_append_iff.mp heq with ⟨rfl, hlead⟩ | ⟨inner, rfl, hinner⟩
    · obtain ⟨rfl, rfl⟩ := List.cons.inj hlead
      obtain ⟨c, cs, hcons, hc⟩ := hkey.exists_cons
      rw [hcons]
      exact .leads hc
    · exact (hkeyed hkey inner d after hinner hd).append_left ['.']
  | bare hkey _ => exact hkeyed hkey before d after heq hd

/-- What a bracket behind a segment closes begins behind that segment. -/
theorem Segment.Begins.exists_front {front : List Char} (hs : Segment.Begins rest text s)
    (hkey : IsKey key) (hrest : rest = before ++ ']' :: after)
    (htext : text = front ++ '[' :: (key.toList ++ ']' :: after)) :
    ∃ others, before = others ++ '[' :: key.toList := by
  have hbehind : ∃ others, rest = others ++ '[' :: (key.toList ++ ']' :: after) := by
    cases hs with
    | @bracket first hfirst =>
      rcases List.cons_eq_append_iff.mp htext with ⟨-, hopen⟩ | ⟨inner, -, hinner⟩
      · -- both brackets would close the first one
        obtain ⟨-, hclose⟩ := hkey.append_inj hfirst (endsKey_cons rfl after)
          (endsKey_cons rfl rest) (List.cons.inj hopen).2
        have hlength := congrArg List.length ((List.cons.inj hclose).2.trans hrest)
        rw [List.length_append, List.length_cons] at hlength
        omega
      · obtain ⟨tail, -, hclose⟩ := hfirst.append_eq_append_cons rfl hinner
        rcases List.cons_eq_append_iff.mp hclose with ⟨-, hclose⟩ | ⟨others, -, hothers⟩
        · simp at hclose
        · exact ⟨others, hothers⟩
    | dot hfirst _ =>
      rcases List.cons_eq_append_iff.mp htext with ⟨-, hlead⟩ | ⟨inner, -, hinner⟩
      · simp at hlead
      · obtain ⟨others, -, hothers⟩ := hfirst.append_eq_append_cons rfl hinner
        exact ⟨others, hothers⟩
    | bare hfirst _ =>
      obtain ⟨others, -, hothers⟩ := hfirst.append_eq_append_cons rfl htext
      exact ⟨others, hothers⟩
  obtain ⟨others, hothers⟩ := hbehind
  have hclose : before ++ ']' :: after = (others ++ '[' :: key.toList) ++ ']' :: after := by
    rw [← hrest, hothers]
    simp
  exact ⟨others, List.append_cancel_right hclose⟩

theorem IsWellDelimited.rest_of_begins (hs : Segment.Begins rest text s)
    (h : IsWellDelimited text) : IsWellDelimited rest := by
  intro before d after hrest hd
  obtain ⟨taken, htext, -, -⟩ := hs.exists_append
  have hplaced : IsPlaced (taken ++ before) d after :=
    h _ d after (by rw [htext, hrest, List.append_assoc]) hd
  generalize hwhole : taken ++ before = whole at hplaced
  cases hplaced with
  | opens hkey => exact .opens hkey
  | @closes front key after hkey =>
    have hfront : text = front ++ '[' :: (key.toList ++ ']' :: after) := by
      rw [htext, hrest, ← List.append_assoc, hwhole]
      simp
    obtain ⟨others, rfl⟩ := hs.exists_front hkey hrest hfront
    exact .closes hkey
  | leads hc => exact .leads hc

/-- A character that is no delimiter begins a key. -/
theorem exists_key_append {c : Char} (hc : ¬ isDelimiter c) (rest : List Char) :
    ∃ (key : String) (after : List Char),
      IsKey key ∧ EndsKey after ∧ c :: rest = key.toList ++ after := by
  have hne : leadingKey (c :: rest) ≠ [] := by simp [leadingKey, hc]
  refine ⟨_, _, isKey_leadingKey hne, endsKey_afterKey (c :: rest), ?_⟩
  rw [String.toList_ofList]
  exact List.takeWhile_append_dropWhile.symm

/-- A well delimited text begins with a segment. -/
theorem IsWellDelimited.exists_begins (h : IsWellDelimited text) (hne : text ≠ []) :
    ∃ rest s, Segment.Begins rest text s := by
  obtain ⟨d, after, rfl⟩ := List.exists_cons_of_ne_nil hne
  by_cases hd : isDelimiter d
  · have hplaced : IsPlaced [] d after := h [] d after rfl hd
    generalize hnil : ([] : List Char) = before at hplaced
    cases hplaced with
    | opens hkey => exact ⟨_, _, .bracket hkey⟩
    | closes _ => simp at hnil
    | leads hc =>
      obtain ⟨key, rest, hkey, hrest, heq⟩ := exists_key_append hc _
      rw [heq]
      exact ⟨_, _, .dot hkey hrest⟩
  · obtain ⟨key, rest, hkey, hrest, heq⟩ := exists_key_append hd after
    rw [heq]
    exact ⟨_, _, .bare hkey hrest⟩

end Delimiters

namespace Path

variable {text : List Char} {segments : List Segment}

theorem Spells.isWellDelimited (h : Spells text segments) : IsWellDelimited text := by
  induction h with
  | last hs => exact isWellDelimited_nil.of_begins hs
  | more hs _ ih => exact ih.of_begins hs

theorem exists_spells (h : IsWellDelimited text) (hne : text ≠ []) :
    ∃ segments, Spells text segments := by
  induction hlength : text.length using Nat.strong_induction_on generalizing text with
  | _ length ih =>
  subst hlength
  obtain ⟨rest, s, hs⟩ := h.exists_begins hne
  by_cases hrest : rest = []
  · subst hrest
    exact ⟨[s], .last hs⟩
  · have hlt : rest.length < text.length :=
      Segment.length_lt_of_next? (Segment.next?_of_begins hs)
    obtain ⟨segments, hsegments⟩ := ih _ hlt (h.rest_of_begins hs) hrest rfl
    exact ⟨s :: segments, .more hs hsegments⟩

/-- The texts that are read are the ones in which every delimiter has its place. -/
theorem exists_spells_iff : (∃ segments, Spells text segments) ↔ text ≠ [] ∧ IsWellDelimited text :=
  ⟨fun ⟨_, h⟩ => ⟨h.text_ne_nil, h.isWellDelimited⟩, fun ⟨hne, h⟩ => exists_spells h hne⟩

end Path

/-! ### Runs without a delimiter -/

/-- A run of characters without a delimiter, and what is around it. -/
structure KeyRun where
  before : List Char
  key : String
  after : List Char

namespace KeyRun

/-- The run stands in the text, between delimiters or the ends of the text: it is no part of a
longer one. -/
structure IsIn (r : KeyRun) (text : List Char) : Prop where
  text_eq : text = r.before ++ (r.key.toList ++ r.after)
  isKey : IsKey r.key
  starts : ∀ c ∈ r.before.getLast?, isDelimiter c
  ends : EndsKey r.after

/-- The runs are all there are in the text, the first one first. -/
structure AreAll (runs : List KeyRun) (text : List Char) : Prop where
  mem_iff : ∀ r, r ∈ runs ↔ r.IsIn text
  pairwise : runs.Pairwise fun r r' => r.before.length < r'.before.length

/-- The segment a run makes: a bracket between `[` and `]`, a dot anywhere else. -/
def segment (r : KeyRun) : Segment :=
  if r.before.getLast? = some '[' ∧ r.after.head? = some ']' then .bracket r.key else .dot r.key

/-- The same run where the text has more in front. -/
def behind (taken : List Char) (r : KeyRun) : KeyRun := { r with before := taken ++ r.before }

variable {r : KeyRun} {runs : List KeyRun} {key : String} {d : Char} {text rest : List Char}

theorem map_behind_behind (taken front : List Char) (runs : List KeyRun) :
    (runs.map (behind taken)).map (behind front) = runs.map (behind (front ++ taken)) := by
  simp [behind]

theorem segment_behind {taken : List Char} (h : taken.getLast? ≠ some '[') (r : KeyRun) :
    (r.behind taken).segment = r.segment := by
  simp [segment, behind, h]

theorem isIn_cons_iff (hd : isDelimiter d) :
    r.IsIn (d :: text) ↔ ∃ r', IsIn r' text ∧ r'.behind [d] = r := by
  constructor
  · rintro ⟨htext, hkey, hstarts, hends⟩
    obtain ⟨before, key, after⟩ := r
    rcases List.cons_eq_append_iff.mp htext with ⟨-, hsplit⟩ | ⟨front, rfl, hfront⟩
    · exact absurd (hsplit ▸ endsKey_cons hd text) (hkey.not_endsKey_append after)
    · refine ⟨⟨front, key, after⟩, ⟨hfront, hkey, fun c hc => hstarts c ?_, hends⟩, rfl⟩
      rw [List.getLast?_cons, hc]
      rfl
  · rintro ⟨⟨before, key, after⟩, ⟨rfl, hkey, hstarts, hends⟩, rfl⟩
    refine ⟨rfl, hkey, fun c hc => ?_, hends⟩
    cases hlast : before.getLast? with
    | none =>
      obtain rfl : before = [] := List.getLast?_eq_none_iff.mp hlast
      obtain rfl : d = c := by simpa [behind] using hc
      exact hd
    | some e =>
      obtain rfl : e = c := by simpa [behind, List.getLast?_cons, hlast] using hc
      exact hstarts e hlast

theorem isIn_key_append_iff (hkey : IsKey key) (hrest : EndsKey rest) :
    r.IsIn (key.toList ++ rest) ↔
      r = ⟨[], key, rest⟩ ∨ ∃ r', IsIn r' rest ∧ r'.behind key.toList = r := by
  constructor
  · rintro ⟨htext, hrun, hstarts, hends⟩
    obtain ⟨before, other, after⟩ := r
    by_cases hbefore : before = []
    · subst hbefore
      obtain ⟨rfl, rfl⟩ := hkey.append_inj hrun hrest hends htext
      exact .inl rfl
    · -- what is in front of the run ends with a delimiter, so it goes beyond the key
      obtain ⟨front, d, rfl⟩ := (List.eq_nil_or_concat before).resolve_left hbefore
      have hd : isDelimiter d := hstarts d (by simp)
      have hsplit : key.toList ++ rest = front ++ d :: (other.toList ++ after) :=
        htext.trans (by simp)
      obtain ⟨inner, rfl, rfl⟩ := hkey.append_eq_append_cons hd hsplit
      refine .inr ⟨⟨inner ++ [d], other, after⟩, ⟨by simp, hrun, fun c hc => ?_, hends⟩, ?_⟩
      · obtain rfl : d = c := by simpa using hc
        exact hd
      · simp [behind]
  · rintro (rfl | ⟨⟨before, other, after⟩, ⟨rfl, hrun, hstarts, hends⟩, rfl⟩)
    · exact ⟨rfl, hkey, nofun, hrest⟩
    · refine ⟨by simp [behind], hrun, fun c hc => ?_, hends⟩
      cases hlast : before.getLast? with
      | none =>
        -- the run would go on from the key
        obtain rfl : before = [] := List.getLast?_eq_none_iff.mp hlast
        exact absurd hrest (hrun.not_endsKey_append after)
      | some e =>
        obtain rfl : e = c := by simpa [behind, List.getLast?_append, hlast] using hc
        exact hstarts e hlast

theorem areAll_nil : AreAll [] [] := by
  refine ⟨fun r => ⟨nofun, fun h => ?_⟩, .nil⟩
  have hnil := h.text_eq
  simp [h.isKey.ne_nil] at hnil

theorem AreAll.pairwise_behind (h : AreAll runs text) (taken : List Char) :
    (runs.map (behind taken)).Pairwise fun r r' => r.before.length < r'.before.length := by
  rw [List.pairwise_map]
  exact h.pairwise.imp fun hlt => by simpa [behind] using hlt

theorem AreAll.cons (h : AreAll runs text) (hd : isDelimiter d) :
    AreAll (runs.map (behind [d])) (d :: text) := by
  refine ⟨fun r => ?_, h.pairwise_behind [d]⟩
  simp only [List.mem_map, isIn_cons_iff hd, h.mem_iff]

theorem AreAll.key_append (h : AreAll runs rest) (hkey : IsKey key) (hrest : EndsKey rest) :
    AreAll (⟨[], key, rest⟩ :: runs.map (behind key.toList)) (key.toList ++ rest) := by
  refine ⟨fun r => ?_, List.pairwise_cons.mpr ⟨fun r hr => ?_, h.pairwise_behind key.toList⟩⟩
  · simp only [List.mem_cons, List.mem_map, isIn_key_append_iff hkey hrest, h.mem_iff]
  · obtain ⟨r, -, rfl⟩ := List.mem_map.mp hr
    have hpos : 0 < key.toList.length := List.length_pos_iff.mpr hkey.ne_nil
    simp only [behind, List.length_append, List.length_nil]
    omega

/-- A segment in front of a text adds its run to those of the text. -/
theorem AreAll.exists_of_begins {s : Segment} (hs : Segment.Begins rest text s)
    (h : AreAll runs rest) :
    ∃ runs', AreAll runs' text ∧ runs'.map segment = s :: runs.map segment := by
  have hsegments : ∀ {taken : List Char}, taken.getLast? ≠ some '[' →
      (runs.map (behind taken)).map segment = runs.map segment := by
    intro taken htaken
    rw [List.map_map]
    exact List.map_congr_left fun r _ => segment_behind htaken r
  have hkeyed : ∀ {key : String}, IsKey key → '[' ∉ key.toList :=
    fun hkey hmem => hkey.not_isDelimiter '[' hmem rfl
  cases hs with
  | @bracket key hkey =>
    have hall := ((h.cons (d := ']') rfl).key_append hkey (endsKey_cons rfl rest)).cons
      (d := '[') rfl
    refine ⟨_, hall, ?_⟩
    rw [List.map_cons, map_behind_behind, map_behind_behind, List.map_cons,
      hsegments (by simp [List.getLast?_cons])]
    simp [segment, behind]
  | @dot key hkey hrest =>
    refine ⟨_, (h.key_append hkey hrest).cons (d := '.') rfl, ?_⟩
    have hlast : ('.' :: key.toList).getLast? ≠ some '[' := fun hmem => by
      simpa [hkeyed hkey] using List.mem_of_getLast? hmem
    rw [List.map_cons, map_behind_behind, List.map_cons, List.singleton_append, hsegments hlast]
    simp [segment, behind]
  | @bare key hkey hrest =>
    refine ⟨_, h.key_append hkey hrest, ?_⟩
    rw [List.map_cons, hsegments fun hmem => hkeyed hkey (List.mem_of_getLast? hmem)]
    simp [segment]

end KeyRun

namespace Path

variable {text : List Char} {segments : List Segment}

/-- The segments are those of the runs of the text. -/
theorem Spells.exists_runs (h : Spells text segments) :
    ∃ runs, KeyRun.AreAll runs text ∧ segments = runs.map KeyRun.segment := by
  induction h with
  | last hs =>
    obtain ⟨runs, hall, hruns⟩ := KeyRun.areAll_nil.exists_of_begins hs
    exact ⟨runs, hall, hruns.symm⟩
  | more hs _ ih =>
    obtain ⟨runs, hall, rfl⟩ := ih
    obtain ⟨runs', hall', hruns⟩ := hall.exists_of_begins hs
    exact ⟨runs', hall', hruns.symm⟩

end Path

/-! ### What is kept -/

theorem IsKey.filter_not_isDelimiter {key : String} (hkey : IsKey key) :
    key.toList.filter (!isDelimiter ·) = key.toList :=
  List.filter_eq_self.mpr fun c hc => by simpa using hkey.not_isDelimiter c hc

theorem Segment.Begins.filter_not_isDelimiter {text rest : List Char} {s : Segment}
    (hs : Begins rest text s) :
    text.filter (!isDelimiter ·) = s.key.toList ++ rest.filter (!isDelimiter ·) := by
  cases hs with
  | bracket hkey =>
    rw [List.filter_cons_of_neg (by decide), List.filter_append, hkey.filter_not_isDelimiter,
      List.filter_cons_of_neg (by decide)]
    rfl
  | dot hkey _ =>
    rw [List.filter_cons_of_neg (by decide), List.filter_append, hkey.filter_not_isDelimiter]
    rfl
  | bare hkey _ =>
    rw [List.filter_append, hkey.filter_not_isDelimiter]
    rfl

namespace Path

variable {text : List Char} {segments : List Segment}

/-- Every character but the delimiters is in a key. -/
theorem Spells.flatMap_key (h : Spells text segments) :
    segments.flatMap (·.key.toList) = text.filter (!isDelimiter ·) := by
  induction h with
  | last hs => simp [hs.filter_not_isDelimiter]
  | more hs _ ih => rw [hs.filter_not_isDelimiter, ← ih, List.flatMap_cons]

end Path

/-! ### Where reading fails -/

/-- A segment is there whatever follows the text behind it. -/
theorem Segment.Begins.dropRight {text rest behind : List Char} {s : Segment}
    (hs : Begins (rest ++ behind) text s) :
    ∃ taken, text = taken ++ behind ∧ Begins rest taken s := by
  have hends : EndsKey (rest ++ behind) → EndsKey rest := by
    intro h c hc
    exact h c (by rw [List.head?_append, hc]; rfl)
  cases hs with
  | @bracket key hkey => exact ⟨'[' :: (key.toList ++ ']' :: rest), by simp, .bracket hkey⟩
  | @dot key hkey hrest => exact ⟨'.' :: (key.toList ++ rest), by simp, .dot hkey (hends hrest)⟩
  | @bare key hkey hrest => exact ⟨key.toList ++ rest, by simp, .bare hkey (hends hrest)⟩

namespace Path

/-- Where no segment begins, the text is at its end or at a delimiter. -/
theorem endsKey_of_next?_eq_none {text : List Char} (h : Segment.next? text = none) :
    EndsKey text := by
  intro d hd
  by_contra hnot
  obtain ⟨after, rfl⟩ := List.head?_eq_some_iff.mp hd
  obtain ⟨key, rest, hkey, hrest, heq⟩ := exists_key_append hnot after
  rw [heq, Segment.next?_of_begins (.bare hkey hrest)] at h
  cases h

/-- Reading fails where it has come to, behind what is read as segments. -/
theorem exists_of_parseSegments_eq_error {text : List Char} {e : FormatError}
    (h : parseSegments text = .error e) :
    ∃ read rest, text = read ++ rest ∧ e = .invalidIdentifier (String.ofList rest) ∧
      (read = [] ∨ ∃ segments, Spells read segments) ∧ (rest = [] → text = []) ∧
      Segment.next? rest = none := by
  fun_induction parseSegments text generalizing e with
  | case1 text hnext =>
    cases h
    exact ⟨[], text, rfl, rfl, .inl rfl, id, hnext⟩
  | case2 text s hnext => cases h
  | case3 text s rest hnext hrest ih =>
    obtain ⟨read, behind, rfl, he, hread, hnil, hnone⟩ := ih (map_eq_error_iff.mp h)
    obtain ⟨taken, rfl, hs⟩ := (Segment.begins_of_next? hnext).dropRight
    refine ⟨taken, behind, rfl, he, .inr ?_, fun h => absurd (hnil h) hrest, hnone⟩
    rcases hread with rfl | ⟨segments, hsegments⟩
    · exact ⟨[s], .last hs⟩
    · exact ⟨s :: segments, .more hs hsegments⟩

/-- What is read as a path, what the path is, and what is reported otherwise.

A text is read if it has a character and each of its delimiters its place: `[` in front of a key and
`]`, `]` behind such a bracket, `.` in front of a key.  The segments are then the runs without a
delimiter, brackets where one stands around the run, and every character but the delimiters is in
their keys.  Any other text has a rest, at its end or at a delimiter where no segment begins, behind
nothing or what is read as a path, and this rest is the error. -/
theorem parse_by_delimiters (text : List Char) :
    ((∃ p, parse text = .ok p) ↔ text ≠ [] ∧ IsWellDelimited text) ∧
    (∀ p, parse text = .ok p →
      (∃ runs, KeyRun.AreAll runs text ∧ p.segments = runs.map KeyRun.segment) ∧
        p.keys.flatMap String.toList = text.filter (!isDelimiter ·)) ∧
    ∀ e, parse text = .error e →
      ∃ read rest, text = read ++ rest ∧ e = .invalidIdentifier (String.ofList rest) ∧
        (read = [] ∨ ∃ p, parse read = .ok p) ∧
        (rest = [] ∧ text = [] ∨
          (∃ d ∈ rest.head?, isDelimiter d) ∧ ∀ s behind, ¬ Segment.Begins behind rest s) := by
  have hread : ∀ text, (∃ p, parse text = .ok p) ↔ ∃ segments, Spells text segments := by
    intro text
    simp only [parse_eq_ok_iff]
    exact ⟨fun ⟨p, h⟩ => ⟨p.segments, h⟩, fun ⟨segments, h⟩ => ⟨⟨segments⟩, h⟩⟩
  refine ⟨(hread text).trans exists_spells_iff, fun p hp => ?_, fun e he => ?_⟩
  · have hspells : Spells text p.segments := parse_eq_ok_iff.mp hp
    refine ⟨hspells.exists_runs, ?_⟩
    rw [keys, List.flatMap_map]
    exact hspells.flatMap_key
  · obtain ⟨read, rest, htext, herror, hhead, hnil, hnone⟩ :=
      exists_of_parseSegments_eq_error (map_eq_error_iff.mp he)
    refine ⟨read, rest, htext, herror, by rwa [hread], ?_⟩
    cases rest with
    | nil => exact .inl ⟨rfl, hnil rfl⟩
    | cons d after =>
      refine .inr ⟨⟨d, rfl, endsKey_of_next?_eq_none hnone d rfl⟩, fun s behind hs => ?_⟩
      rw [Segment.next?_of_begins hs] at hnone
      cases hnone

end Path

end TextTemplate
