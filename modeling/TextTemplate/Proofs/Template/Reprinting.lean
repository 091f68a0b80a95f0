import TextTemplate.Proofs.Path.RoundTrip
import TextTemplate.Proofs.Template.Concatenation
import TextTemplate.Template.Printer

/-!
# Templates written anew

The tokens of a template, written one after the other, are a template with the same tokens, each
placeholder in its plainest form and closed (`scan_source`).  Only the places of the literals
differ.

A token is written as a piece (`Token.piece`).  What is written behind it begins with the character
that stood behind it before (`head?_flatMap_source`), so the piece fits there
(`Token.fits_piece`) and is cut off again.

Two kinds of identifiers would not be read back and must not occur (`Token.IsWritable`): one with a
colon, as only an unclosed placeholder can have, and one that would begin with a second brace once
its dot is gone.
-/

namespace TextTemplate

/-! ### Tokens as pieces -/

/-- The specifier text that a source is written with. -/
def SpecifierSource.written : Option SpecifierSource → SpecifierText
  | none => .absent
  | some (inline text) => .inline text.toList
  | some (lookup path) => .nested path.text

namespace Token

/-- The piece that a token is written as. -/
def piece : Token → Piece
  | literal _ text => .literal text.toList
  | leftBrace => .leftBrace
  | placeholder path specifier => .placeholder path.text (SpecifierSource.written specifier)

/-- The token, a literal being said to begin at byte `start`. -/
def moveTo (start : Nat) : Token → Token
  | literal _ text => literal start text
  | leftBrace => leftBrace
  | placeholder path specifier => placeholder path specifier

/-- The tokens with the places they have when they are written from byte `start` on. -/
def placed (start : Nat) : List Token → List Token
  | [] => []
  | token :: tokens => token.moveTo start :: placed (start + byteLength token.source) tokens

/-- Whether the identifier of a placeholder can be written in its plainest form: it has no colon and
does not begin with a brace. -/
def IsWritable : Token → Prop
  | placeholder path _ =>
    (∀ key ∈ path.keys, ':' ∉ key.toList) ∧
      ∀ key, path.segments.head? = some (.dot key) → key.toList.head? ≠ some '{'
  | _ => True

theorem source_piece (token : Token) : token.piece.source = token.source := by
  cases token with
  | literal start text => rfl
  | leftBrace => rfl
  | placeholder path specifier =>
    rcases specifier with _ | (text | path')
    · simp [piece, source, SpecifierSource.written, Piece.source, SpecifierText.source]
    · rfl
    · rfl

/-- What does not depend on the places of tokens is the same wherever they are written. -/
theorem map_placed {α : Type} {f : Token → α} (hf : ∀ start token, f (moveTo start token) = f token)
    (start : Nat) (tokens : List Token) : (placed start tokens).map f = tokens.map f := by
  induction tokens generalizing start with
  | nil => rfl
  | cons token tokens ih => rw [placed, List.map_cons, List.map_cons, hf, ih]

theorem flatMap_placed {f : Token → List Char}
    (hf : ∀ start token, f (moveTo start token) = f token) (start : Nat) (tokens : List Token) :
    (placed start tokens).flatMap f = tokens.flatMap f := by
  rw [List.flatMap_def, map_placed hf, ← List.flatMap_def]

/-! ### The image of scanning -/

section Image

variable {start : Nat} {p : Piece} {token : Token} {after after' : List Char}

/-- A token begins as the piece it comes from. -/
theorem head?_source (h : ofPiece start p = .ok token) : token.source.head? = p.source.head? := by
  cases p with
  | literal text =>
    cases h
    rw [source, String.toList_ofList]
    rfl
  | leftBrace =>
    cases h
    rfl
  | placeholder identifier specifier =>
    obtain ⟨path, source, -, -, rfl⟩ := ofPiece_placeholder_eq_ok_iff.mp h
    cases source <;> rfl
  | unclosed behind =>
    obtain ⟨path, -, rfl⟩ := ofPiece_unclosed_eq_ok_iff.mp h
    rfl

theorem stopsAt_of_head?_eq {c : Char} (h : StopsAt c after) (hhead : after'.head? = after.head?) :
    StopsAt c after' := by
  rcases h with rfl | h
  · exact .inl (List.head?_eq_none_iff.mp hhead)
  · exact .inr (hhead.trans h)

theorem notMem_text_of_parse {text : List Char} {path : Path} (h : Path.parse text = .ok path)
    {c : Char} (hdelimiter : ¬ isDelimiter c) (hc : c ∉ text) : c ∉ path.text := by
  intro hmem
  rcases Path.of_mem_text hmem with hd | ⟨key, hkey, hmem⟩
  · exact hdelimiter hd
  · exact hc (Path.mem_of_parse h hkey hmem)

/-- An identifier in its plainest form is one that a placeholder can have. -/
theorem identifier_of_parse {text : List Char} {path : Path} {specifier : Option SpecifierSource}
    (h : Path.parse text = .ok path) (hclose : '}' ∉ text)
    (hwritable : IsWritable (placeholder path specifier)) :
    '}' ∉ path.text ∧ ':' ∉ path.text ∧ path.text.head? ≠ some '{' := by
  obtain ⟨hcolon, hopen⟩ := hwritable
  refine ⟨notMem_text_of_parse h (by decide) hclose, fun hmem => ?_, ?_⟩
  · rcases Path.of_mem_text hmem with hd | ⟨key, hkey, hmem⟩
    · exact absurd hd (by decide)
    · exact hcolon key hkey hmem
  · have hpath := Path.isWritable_of_parse h
    obtain ⟨segments⟩ := path
    obtain ⟨s, segments, rfl⟩ := List.exists_cons_of_ne_nil hpath.ne_nil
    cases s with
    | bracket key => simp [Path.text, Segment.text]
    | dot key =>
      have hkey : IsKey key := hpath.isKey (.dot key) List.mem_cons_self
      obtain ⟨c, cs, hcons⟩ := List.exists_cons_of_ne_nil hkey.ne_nil
      have hc := hopen key rfl
      rw [hcons] at hc
      show (key.toList ++ segments.flatMap Segment.text).head? ≠ some '{'
      rwa [hcons]

/-- Where a piece stood, its token can be written, the text behind it beginning as before. -/
theorem fits_piece (hfits : p.Fits after) (h : ofPiece start p = .ok token)
    (hwritable : token.IsWritable) (hhead : after'.head? = after.head?) :
    token.piece.Fits after' := by
  cases p with
  | literal text =>
    cases h
    rw [piece, String.toList_ofList]
    exact ⟨hfits.1, hfits.2.1, stopsAt_of_head?_eq hfits.2.2 hhead⟩
  | leftBrace =>
    cases h
    trivial
  | placeholder identifier specifier =>
    obtain ⟨path, source, hpath, hsource, rfl⟩ := ofPiece_placeholder_eq_ok_iff.mp h
    obtain ⟨hclose, -, -, hspec⟩ := hfits
    obtain ⟨hclose', hcolon', hopen'⟩ := identifier_of_parse hpath hclose hwritable
    refine ⟨hclose', hcolon', hopen', ?_⟩
    cases specifier with
    | absent =>
      cases hsource
      trivial
    | inline text =>
      cases hsource
      rw [SpecifierSource.written, String.toList_ofList]
      exact ⟨hspec.1, fun hopen => hhead ▸ hspec.2 hopen⟩
    | nested text =>
      obtain ⟨path', hpath', rfl⟩ := SpecifierSource.ofText?_nested_eq_ok_iff.mp hsource
      exact notMem_text_of_parse hpath' (by decide) hspec
  | unclosed behind =>
    obtain ⟨path, hpath, rfl⟩ := ofPiece_unclosed_eq_ok_iff.mp h
    obtain ⟨rfl, hclose, -⟩ := hfits
    have hclose' : '}' ∉ behind.dropLast := fun hmem => hclose (List.dropLast_subset _ hmem)
    obtain ⟨hclose', hcolon', hopen'⟩ := identifier_of_parse hpath hclose' hwritable
    exact ⟨hclose', hcolon', hopen', trivial⟩

/-- A token is read back from the piece it is written as. -/
theorem ofPiece_piece (h : ofPiece start p = .ok token) (start' : Nat) :
    ofPiece start' token.piece = .ok (token.moveTo start') := by
  cases p with
  | literal text =>
    cases h
    rw [piece, ofPiece, String.ofList_toList]
    rfl
  | leftBrace =>
    cases h
    rfl
  | placeholder identifier specifier =>
    obtain ⟨path, source, hpath, hsource, rfl⟩ := ofPiece_placeholder_eq_ok_iff.mp h
    refine ofPiece_placeholder_eq_ok_iff.mpr
      ⟨path, source, Path.parse_text (Path.isWritable_of_parse hpath), ?_, rfl⟩
    cases specifier with
    | absent =>
      cases hsource
      rfl
    | inline text =>
      cases hsource
      rw [SpecifierSource.written, SpecifierSource.ofText?, String.ofList_toList]
    | nested text =>
      obtain ⟨path', hpath', rfl⟩ := SpecifierSource.ofText?_nested_eq_ok_iff.mp hsource
      exact SpecifierSource.ofText?_nested_eq_ok_iff.mpr
        ⟨path', Path.parse_text (Path.isWritable_of_parse hpath'), rfl⟩
  | unclosed behind =>
    obtain ⟨path, hpath, rfl⟩ := ofPiece_unclosed_eq_ok_iff.mp h
    exact ofPiece_placeholder_eq_ok_iff.mpr
      ⟨path, none, Path.parse_text (Path.isWritable_of_parse hpath), rfl, rfl⟩

end Image

/-! ### All tokens -/

section Tokens

variable {start : Nat} {text : List Char} {tokens : List Token}

/-- A text written anew begins with the same character. -/
theorem head?_flatMap_source (h : ofPieces start (pieces text) = .ok tokens) :
    (tokens.flatMap source).head? = text.head? := by
  fun_induction pieces text generalizing start tokens with
  | case1 =>
    cases h
    rfl
  | case2 c text ih =>
    obtain ⟨token, rest, htoken, hrest, rfl⟩ := ofPieces_cons_eq_ok_iff.mp h
    rw [List.flatMap_cons, List.head?_append, head?_source htoken, ih hrest, ← List.head?_append,
      Piece.source_next]

/-- What is written anew is cut into the pieces that it was written as. -/
theorem pieces_flatMap_source (h : ofPieces start (pieces text) = .ok tokens)
    (hwritable : ∀ token ∈ tokens, token.IsWritable) :
    pieces (tokens.flatMap source) = tokens.map piece := by
  fun_induction pieces text generalizing start tokens with
  | case1 =>
    cases h
    rw [List.flatMap_nil, pieces, List.map_nil]
  | case2 c text ih =>
    obtain ⟨token, rest, htoken, hrest, rfl⟩ := ofPieces_cons_eq_ok_iff.mp h
    have hfits := fits_piece (Piece.fits_next c text) htoken (hwritable token List.mem_cons_self)
      (head?_flatMap_source hrest)
    have htail := ih hrest fun t ht => hwritable t (List.mem_cons_of_mem _ ht)
    rw [List.flatMap_cons, List.map_cons, ← source_piece, pieces_source_append hfits, htail]

/-- The tokens are read back from the pieces, each at its new place. -/
theorem ofPieces_map_piece {p : List Piece} (h : ofPieces start p = .ok tokens) (start' : Nat) :
    ofPieces start' (tokens.map piece) = .ok (placed start' tokens) := by
  induction p generalizing start start' tokens with
  | nil =>
    cases h
    rfl
  | cons p ps ih =>
    obtain ⟨token, rest, htoken, hrest, rfl⟩ := ofPieces_cons_eq_ok_iff.mp h
    rw [List.map_cons, ofPieces_cons_eq_ok_iff]
    refine ⟨_, _, ofPiece_piece htoken start', ih hrest _, ?_⟩
    rw [placed, source_piece]

end Tokens

end Token

/-! ### Templates -/

theorem scan_source_eq {template : String} {tokens : List Token} (h : scan template = .ok tokens)
    (hwritable : ∀ token ∈ tokens, token.IsWritable) :
    scan (source tokens) = .ok (Token.placed 0 tokens) := by
  rw [scan, source, String.toList_ofList, Token.pieces_flatMap_source h hwritable]
  exact Token.ofPieces_map_piece h 0

theorem closed_source {template : String} {tokens : List Token} (h : scan template = .ok tokens)
    (hwritable : ∀ token ∈ tokens, token.IsWritable) : Closed (source tokens).toList := by
  rw [closed_iff, source, String.toList_ofList, Token.pieces_flatMap_source h hwritable]
  intro behind hmem
  obtain ⟨token, -, hpiece⟩ := List.mem_map.mp hmem
  cases token <;> cases hpiece

/-- A template whose identifiers can be written is written anew as a template with the same tokens,
but for the places of the literals, so it is filled like the first.  All its placeholders are
closed, and writing it anew changes nothing further. -/
theorem scan_source {template : String} {tokens : List Token} (h : scan template = .ok tokens)
    (hwritable : ∀ token ∈ tokens, token.IsWritable) :
    ∃ tokens', scan (source tokens) = .ok tokens' ∧
      tokens'.map (Token.moveTo 0) = tokens.map (Token.moveTo 0) ∧
      (∀ start text, .literal start text ∈ tokens' →
        slice? (source tokens) start (start + text.utf8ByteSize) = some text) ∧
      (∀ args policy,
        fill tokens' args policy = fill tokens args policy ∧
        fillBySlices? (source tokens) tokens' args policy =
          fillBySlices? template tokens args policy) ∧
      Closed (source tokens).toList ∧
      source tokens' = source tokens := by
  have hscan := scan_source_eq h hwritable
  have hfill : ∀ args policy,
      fill (Token.placed 0 tokens) args policy = fill tokens args policy := by
    intro args policy
    rw [fill, Token.flatMap_placed (fun start token => by cases token <;> rfl), fill]
  refine ⟨_, hscan, Token.map_placed (fun start token => by cases token <;> rfl) 0 tokens,
    fun start text hmem => slice?_of_scan hscan hmem, fun args policy => ⟨hfill args policy, ?_⟩,
    closed_source h hwritable, ?_⟩
  · rw [fillBySlices?_eq_some_fill hscan, fillBySlices?_eq_some_fill h, hfill]
  · rw [source, Token.flatMap_placed (fun start token => by cases token <;> rfl), source]

theorem scan_source_unclosed :
    let tokens : List Token :=
      [.placeholder ⟨[.dot "a", .bracket "b", .dot "c"]⟩ (some (.lookup ⟨[.bracket "1"]⟩)),
        .literal 14 "\x7d\x7d", .leftBrace, .placeholder ⟨[.dot "x"]⟩ (some (.inline "\x7by")),
        .literal 24 "é", .placeholder ⟨[.dot "z"]⟩ none, .literal 27 "z!"]
    scan "{.a[b]c:{[1]}}\x7d\x7d\x7b\x7b\x7bx:{y}é\x7bz!" = .ok tokens ∧
      (∀ token ∈ tokens, token.IsWritable) ∧
      source tokens = "{a[b].c:{[1]}}\x7d\x7d\x7b\x7b\x7bx:{y}é{z}z!" ∧
      ∃ tokens', scan (source tokens) = .ok tokens' ∧ source tokens' = source tokens := by
  intro tokens
  have hscan : scan "{.a[b]c:{[1]}}\x7d\x7d\x7b\x7b\x7bx:{y}é\x7bz!" = .ok tokens := by
    decide +kernel
  have hwritable : ∀ token ∈ tokens, token.IsWritable := by
    simp [tokens, Token.IsWritable, Path.keys, Segment.key]
  obtain ⟨tokens', hscan', -, -, -, -, hsource⟩ := scan_source hscan hwritable
  exact ⟨hscan, hwritable, by decide +kernel, tokens', hscan', hsource⟩

end TextTemplate
