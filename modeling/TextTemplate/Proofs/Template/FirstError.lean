import TextTemplate.Proofs.Formatter.History
import TextTemplate.Proofs.Template.Concatenation

/-!
# Which error a template gives

Scanning reads the texts in the pieces of a template as paths, from left to right, that of a
placeholder before that of its specifier (`Piece.pathTexts`), and its error is that of the first one
that cannot be read (`FirstRejected`).  Where that stands in a placeholder with a closing brace, no
text behind the template has a part in it: the pieces in front stay what they are, and the
placeholder keeps its identifier even where its specifier becomes another one
(`exists_fits_placeholder`).
-/

namespace TextTemplate

/-! ### Texts read as paths -/

/-- The texts in a specifier that are read as paths. -/
def SpecifierText.pathTexts : SpecifierText → List (List Char)
  | absent | inline _ => []
  | nested path => [path]

/-- The texts in a piece that are read as paths, in the order they are read in. -/
def Piece.pathTexts : Piece → List (List Char)
  | literal _ | leftBrace => []
  | placeholder identifier specifier => identifier :: specifier.pathTexts
  | unclosed behind => [behind.dropLast]

/-- The text can be read as a path. -/
def IsPathText (text : List Char) : Prop := ∃ path, Path.parse text = .ok path

/-- The first of the texts that cannot be read as a path gives the error `e`. -/
inductive FirstRejected (e : FormatError) : List (List Char) → Prop
  | here {text : List Char} {texts : List (List Char)} : Path.parse text = .error e →
    FirstRejected e (text :: texts)
  | later {text : List Char} {texts : List (List Char)} : IsPathText text →
    FirstRejected e texts → FirstRejected e (text :: texts)

section Texts

variable {e : FormatError} {text : List Char} {texts others : List (List Char)}

theorem isPathText_or_parse_eq_error (text : List Char) :
    IsPathText text ∨ ∃ e, Path.parse text = .error e := by
  cases h : Path.parse text with
  | ok path => exact .inl ⟨path, h⟩
  | error e => exact .inr ⟨e, rfl⟩

theorem not_isPathText_of_parse_eq_error (h : Path.parse text = .error e) : ¬ IsPathText text := by
  rintro ⟨path, hpath⟩
  cases h.symm.trans hpath

theorem not_firstRejected_nil : ¬ FirstRejected e [] := nofun

theorem firstRejected_cons_iff :
    FirstRejected e (text :: texts) ↔
      Path.parse text = .error e ∨ IsPathText text ∧ FirstRejected e texts := by
  constructor
  · intro h
    cases h with
    | here htext => exact .inl htext
    | later htext htexts => exact .inr ⟨htext, htexts⟩
  · rintro (htext | ⟨htext, htexts⟩)
    · exact .here htext
    · exact .later htext htexts

theorem FirstRejected.append_right (h : FirstRejected e texts) (others : List (List Char)) :
    FirstRejected e (texts ++ others) := by
  induction h with
  | here htext => exact .here htext
  | later htext _ ih => exact .later htext ih

theorem FirstRejected.append_left (htexts : ∀ text ∈ texts, IsPathText text)
    (h : FirstRejected e others) : FirstRejected e (texts ++ others) := by
  induction texts with
  | nil => exact h
  | cons text texts ih =>
    refine .later (htexts text List.mem_cons_self) (ih fun t ht => ?_)
    exact htexts t (List.mem_cons_of_mem _ ht)

theorem FirstRejected.exists_parse_eq_error (h : FirstRejected e texts) :
    ∃ text ∈ texts, Path.parse text = .error e := by
  induction h with
  | here htext => exact ⟨_, List.mem_cons_self, htext⟩
  | later _ _ ih =>
    obtain ⟨text, hmem, htext⟩ := ih
    exact ⟨text, List.mem_cons_of_mem _ hmem, htext⟩

theorem FirstRejected.unique {e' : FormatError} (h : FirstRejected e texts)
    (h' : FirstRejected e' texts) : e = e' := by
  induction h with
  | here htext =>
    rcases firstRejected_cons_iff.mp h' with htext' | ⟨htext', -⟩
    · exact Except.error.inj (htext.symm.trans htext')
    · exact absurd htext' (not_isPathText_of_parse_eq_error htext)
  | later htext _ ih =>
    rcases firstRejected_cons_iff.mp h' with htext' | ⟨-, h'⟩
    · exact absurd htext (not_isPathText_of_parse_eq_error htext')
    · exact ih h'

/-- There is a first text that cannot be read if there is any. -/
theorem exists_firstRejected_iff :
    (∃ e, FirstRejected e texts) ↔ ∃ text ∈ texts, ¬ IsPathText text := by
  constructor
  · rintro ⟨e, h⟩
    obtain ⟨text, hmem, htext⟩ := h.exists_parse_eq_error
    exact ⟨text, hmem, not_isPathText_of_parse_eq_error htext⟩
  · rintro ⟨text, hmem, hnot⟩
    induction texts with
    | nil => cases hmem
    | cons first texts ih =>
      rcases isPathText_or_parse_eq_error first with hfirst | ⟨e, hfirst⟩
      · rcases List.mem_cons.mp hmem with rfl | hmem
        · exact absurd hfirst hnot
        · obtain ⟨e, h⟩ := ih hmem
          exact ⟨e, .later hfirst h⟩
      · exact ⟨e, .here hfirst⟩

end Texts

/-! ### Pieces in error -/

section Pieces

variable {e : FormatError} {start : Nat} {piece : Piece}

theorem SpecifierSource.ofText?_cases (specifier : SpecifierText) :
    (∃ e, ofText? specifier = .error e ∧ FirstRejected e specifier.pathTexts) ∨
      ∃ source, ofText? specifier = .ok source ∧ ∀ text ∈ specifier.pathTexts, IsPathText text := by
  cases specifier with
  | absent => exact .inr ⟨none, rfl, nofun⟩
  | inline text => exact .inr ⟨some (.inline (String.ofList text)), rfl, nofun⟩
  | nested text =>
    cases htext : Path.parse text with
    | error e =>
      refine .inl ⟨e, ?_, .here htext⟩
      rw [ofText?, htext]
      rfl
    | ok path =>
      refine .inr ⟨_, ofText?_nested_eq_ok_iff.mpr ⟨path, htext, rfl⟩, ?_⟩
      exact List.forall_mem_singleton.mpr ⟨path, htext⟩

/-- A piece has the error of its first text that cannot be read, or a token if all of them can. -/
theorem Token.ofPiece_cases (start : Nat) (piece : Piece) :
    (∃ e, ofPiece start piece = .error e ∧ FirstRejected e piece.pathTexts) ∨
      ∃ token, ofPiece start piece = .ok token ∧ ∀ text ∈ piece.pathTexts, IsPathText text := by
  cases piece with
  | literal text => exact .inr ⟨_, rfl, nofun⟩
  | leftBrace => exact .inr ⟨_, rfl, nofun⟩
  | placeholder identifier specifier =>
    -- the identifier comes first, its error hides that of the specifier
    cases hpath : Path.parse identifier with
    | error e =>
      refine .inl ⟨e, ?_, .here hpath⟩
      rw [ofPiece, hpath]
      rfl
    | ok path =>
      rcases SpecifierSource.ofText?_cases specifier with
        ⟨e, hsource, hfirst⟩ | ⟨source, hsource, hall⟩
      · refine .inl ⟨e, ?_, .later ⟨path, hpath⟩ hfirst⟩
        rw [ofPiece, hpath, hsource]
        rfl
      · refine .inr ⟨_, ofPiece_placeholder_eq_ok_iff.mpr ⟨path, source, hpath, hsource, rfl⟩, ?_⟩
        exact List.forall_mem_cons.mpr ⟨⟨path, hpath⟩, hall⟩
  | unclosed behind =>
    cases hpath : Path.parse behind.dropLast with
    | error e =>
      refine .inl ⟨e, ?_, .here hpath⟩
      rw [ofPiece, hpath]
      rfl
    | ok path =>
      refine .inr ⟨_, ofPiece_unclosed_eq_ok_iff.mpr ⟨path, hpath, rfl⟩, ?_⟩
      exact List.forall_mem_singleton.mpr ⟨path, hpath⟩

/-- Pieces have the error of the first text in them that cannot be read. -/
theorem Token.ofPieces_cases (start : Nat) (ps : List Piece) :
    (∃ e, ofPieces start ps = .error e ∧ FirstRejected e (ps.flatMap Piece.pathTexts)) ∨
      ∃ tokens, ofPieces start ps = .ok tokens ∧
        ∀ text ∈ ps.flatMap Piece.pathTexts, IsPathText text := by
  induction ps generalizing start with
  | nil => exact .inr ⟨[], rfl, nofun⟩
  | cons piece ps ih =>
    rw [List.flatMap_cons]
    rcases ofPiece_cases start piece with ⟨e, htoken, hfirst⟩ | ⟨token, htoken, hall⟩
    · refine .inl ⟨e, ?_, hfirst.append_right _⟩
      rw [ofPieces, htoken]
      rfl
    · rcases ih (start + byteLength piece.source) with ⟨e, hrest, hfirst⟩ | ⟨rest, hrest, hothers⟩
      · refine .inl ⟨e, ?_, hfirst.append_left hall⟩
        rw [ofPieces, htoken, hrest]
        rfl
      · refine .inr ⟨_, ofPieces_cons_eq_ok_iff.mpr ⟨_, _, htoken, hrest, rfl⟩, ?_⟩
        exact List.forall_mem_append.mpr ⟨hall, hothers⟩

end Pieces

theorem scan_eq_error_iff {template : String} {e : FormatError} :
    scan template = .error e ↔
      FirstRejected e ((pieces template.toList).flatMap Piece.pathTexts) := by
  rcases Token.ofPieces_cases 0 (pieces template.toList) with ⟨e', h, hfirst⟩ | ⟨tokens, h, hall⟩
  · rw [scan, h, Except.error.injEq]
    constructor
    · rintro rfl
      exact hfirst
    · exact hfirst.unique
  · rw [scan, h]
    constructor
    · intro herror
      cases herror
    · intro hfirst
      obtain ⟨text, hmem, hnot⟩ := exists_firstRejected_iff.mp ⟨e, hfirst⟩
      exact absurd (hall text hmem) hnot

theorem scan_eq_error_of_pieces {template : String} {before after : List Piece} {piece : Piece}
    {e : FormatError} (hps : pieces template.toList = before ++ piece :: after)
    (hbefore : ∀ text ∈ before.flatMap Piece.pathTexts, IsPathText text)
    (hpiece : FirstRejected e piece.pathTexts) : scan template = .error e := by
  rw [scan_eq_error_iff, hps, List.flatMap_append, List.flatMap_cons]
  exact (hpiece.append_right _).append_left hbefore

/-- With fewer than two characters behind an unclosed brace nothing is left for the path. -/
theorem Path.parse_dropLast_of_length_lt {behind : List Char} (h : behind.length < 2) :
    parse behind.dropLast = .error (.invalidIdentifier "") := by
  have hnil : behind.dropLast = [] := by
    rw [← List.length_eq_zero_iff, List.length_dropLast]
    omega
  rw [hnil]
  decide +kernel

/-! ### Text behind a template in error -/

/-- Where more text follows, a closed placeholder may end further on, the specifier being another
one, but reads the same text first. -/
theorem Piece.exists_fits_placeholder {identifier after : List Char} {specifier : SpecifierText}
    (h : (placeholder identifier specifier).Fits after) (rest : List Char) :
    ∃ specifier' after', (placeholder identifier specifier').Fits after' ∧
      (placeholder identifier specifier).source ++ (after ++ rest) =
        (placeholder identifier specifier').source ++ after' ∧
      ∃ more, (placeholder identifier specifier').pathTexts =
        (placeholder identifier specifier).pathTexts ++ more := by
  obtain ⟨hclose, hcolon, hhead, hspec⟩ := h
  cases specifier with
  | absent => exact ⟨.absent, after ++ rest, ⟨hclose, hcolon, hhead, trivial⟩, rfl, [], rfl⟩
  | nested path =>
    exact ⟨.nested path, after ++ rest, ⟨hclose, hcolon, hhead, hspec⟩, rfl, [], rfl⟩
  | inline text =>
    by_cases hbraces : text.head? = some '{' ∧ (after ++ rest).head? = some '}'
    · -- the brace that follows closes the placeholder, the one before it the path
      obtain ⟨path, rfl⟩ := List.head?_eq_some_iff.mp hbraces.1
      obtain ⟨tail, htail⟩ := List.head?_eq_some_iff.mp hbraces.2
      have hpath : '}' ∉ path := fun hmem => hspec.1 (List.mem_cons_of_mem _ hmem)
      refine ⟨.nested path, tail, ⟨hclose, hcolon, hhead, hpath⟩, ?_, [path], rfl⟩
      simp [source, SpecifierText.source, htail]
    · have htext : text.head? = some '{' → (after ++ rest).head? ≠ some '}' :=
        fun hopen hend => hbraces ⟨hopen, hend⟩
      exact ⟨.inline text, after ++ rest, ⟨hclose, hcolon, hhead, hspec.1, htext⟩, rfl, [], rfl⟩

/-- A text in a closed placeholder that is the first one not to be read is so whatever follows. -/
theorem Cuts.firstRejected_append {text : List Char} {before after : List Piece} {piece : Piece}
    {e : FormatError} (h : Cuts text (before ++ piece :: after))
    (hbefore : ∀ t ∈ before.flatMap Piece.pathTexts, IsPathText t)
    (hpiece : FirstRejected e piece.pathTexts)
    (hclose : '}' ∈ piece.source ++ after.flatMap Piece.source) (rest : List Char) :
    FirstRejected e ((pieces (text ++ rest)).flatMap Piece.pathTexts) := by
  induction before generalizing text with
  | nil =>
    rw [List.nil_append] at h
    cases h with
    | @cons p behind ps hfits hcuts =>
    cases piece with
    | literal run => exact absurd hpiece not_firstRejected_nil
    | leftBrace => exact absurd hpiece not_firstRejected_nil
    | placeholder identifier specifier =>
      obtain ⟨specifier', after', hfits', hsource, more, hmore⟩ :=
        Piece.exists_fits_placeholder hfits rest
      rw [List.append_assoc, hsource, pieces_source_append hfits', List.flatMap_cons, hmore,
        List.append_assoc]
      exact hpiece.append_right _
    | unclosed run =>
      rw [hcuts.flatMap_source, Piece.source, List.singleton_append, List.mem_cons] at hclose
      rcases hclose with hclose | hclose
      · exact absurd hclose (by decide)
      · exact absurd hclose hfits.2.1
  | cons p before ih =>
    rw [List.cons_append] at h
    rw [List.flatMap_cons, List.forall_mem_append] at hbefore
    cases h with
    | @cons p behind ps hfits hcuts =>
    -- the closing brace stands behind the piece in front
    have hmem : '}' ∈ behind := by
      rw [← hcuts.flatMap_source, List.flatMap_append, List.flatMap_cons]
      exact List.mem_append_right _ hclose
    have hopen : ∀ run, p ≠ .unclosed run := by
      rintro run rfl
      exact hfits.2.1 hmem
    have hfits' : p.Fits (behind ++ rest) :=
      hfits.append hopen fun hnil => absurd (hnil ▸ hmem) List.not_mem_nil
    rw [List.append_assoc, pieces_source_append hfits', List.flatMap_cons]
    exact (ih hcuts hbefore.2).append_left hbefore.1

/-! ### Formatters -/

namespace Formatter

variable {f : Formatter} {template : String} {e : FormatError}

theorem Sound.run (hf : f.Sound) (calls : List Call) : (f.run calls).2.Sound := by
  induction calls generalizing f with
  | nil => exact hf
  | cons c calls ih =>
    rw [run_cons]
    exact ih (hf.call c)

/-- A template in error gives its error and leaves the formatter as it is. -/
theorem Sound.tokenize_of_scan_eq_error (hf : f.Sound) (h : scan template = .error e) :
    f.tokenize template = (.error e, f) := by
  rcases f.tokenize_cases template with ⟨shared, hcached, -⟩ | ⟨e', -, hscan, htokenize⟩ |
    ⟨tokens, -, hscan, -⟩
  · cases h.symm.trans (hf.scan_eq_of_cached? hcached)
  · cases h.symm.trans hscan
    exact htokenize
  · cases h.symm.trans hscan

/-- Whatever calls went before, a call of a template in error has its error and changes nothing. -/
theorem call_run_of_scan_eq_error (h : scan template = .error e) (config : FormatterConfig)
    (calls : List Call) :
    let f := (run { config := config } calls).2
    f.call (.tokenize template) = (.tokens (.error e), f) ∧
      ∀ args, f.call (.format template args) = (.text (.error e), f) := by
  intro f
  have hfresh : Sound { config := config } := sound_of_cache_eq_nil rfl
  have htokenize : f.tokenize template = (.error e, f) :=
    (hfresh.run calls).tokenize_of_scan_eq_error h
  constructor
  · rw [call, htokenize]
  · intro args
    rw [call, Formatter.format, htokenize]
    rfl

end Formatter

/-! ### The error of a template -/

/-- Which error a template gives.  It is in error if and only if a text in its pieces that is to be
read as a path cannot be, and then gives the error of the first one, whatever the arguments, the
policy and the state of the formatter, which stays as it is.  If a closing brace stands behind the
opening one of the piece in error, every template that begins with this one has the same error.
If there is none and not even two characters, it is that of the empty path. -/
theorem scan_error_by_first_path (template : String) :
    (∃ ps, (∀ others, Cuts template.toList others ↔ others = ps) ∧
      (∀ e, scan template = .error e ↔ FirstRejected e (ps.flatMap Piece.pathTexts)) ∧
      ((∃ e, scan template = .error e) ↔
        ∃ text ∈ ps.flatMap Piece.pathTexts, ¬ IsPathText text) ∧
      ∀ before piece after, ps = before ++ piece :: after →
        (∀ text ∈ before.flatMap Piece.pathTexts, IsPathText text) →
        (∀ e, FirstRejected e piece.pathTexts →
          scan template = .error e ∧
          ('}' ∈ piece.source ++ after.flatMap Piece.source →
            ∀ rest, scan (template ++ rest) = .error e)) ∧
        ∀ behind, piece = .unclosed behind → behind.length < 2 →
          scan template = .error (.invalidIdentifier "")) ∧
    ∀ e, scan template = .error e →
      (∀ args, format template args = .error e) ∧
      (∀ args policy, (scan template).map (fill · args policy) = .error e) ∧
      ∀ config calls, let f := (Formatter.run { config := config } calls).2
        f.call (.tokenize template) = (.tokens (.error e), f) ∧
        ∀ args, f.call (.format template args) = (.text (.error e), f) := by
  have herror : ∀ e, scan template = .error e ↔
      FirstRejected e ((pieces template.toList).flatMap Piece.pathTexts) :=
    fun _ => scan_eq_error_iff
  refine ⟨⟨pieces template.toList, fun others => cuts_iff.trans eq_comm, herror, ?_, ?_⟩, ?_⟩
  · simp only [herror]
    exact exists_firstRejected_iff
  · intro before piece after hps hbefore
    constructor
    · intro e hfirst
      refine ⟨scan_eq_error_of_pieces hps hbefore hfirst, fun hclose rest => ?_⟩
      rw [scan_eq_error_iff, String.toList_append]
      exact (cuts_iff.mpr hps).firstRejected_append hbefore hfirst hclose rest.toList
    · rintro behind rfl hshort
      have hempty := Path.parse_dropLast_of_length_lt hshort
      exact scan_eq_error_of_pieces hps hbefore (.here hempty)
  · intro e hscan
    refine ⟨fun args => ?_, fun args policy => ?_, Formatter.call_run_of_scan_eq_error hscan⟩
    · rw [format, hscan]
      rfl
    · rw [hscan]
      rfl

end TextTemplate
