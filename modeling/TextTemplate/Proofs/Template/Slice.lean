import TextTemplate.Proofs.Template.Cutting
import TextTemplate.Template.Fill

/-!
# Literals by their place

A literal says at which byte of its template it begins, and its length gives the byte where it
ends.  `slice? template start stop` is the text between two bytes; it fails if they are out of
order, out of bounds, or inside a character.  In a template that has been scanned, every literal is
the slice at its place (`slice?_of_scan`), so the template can be filled by one who keeps only the
places (`fillBySlices?_eq_some_fill`).
-/

namespace TextTemplate

/-- The text from byte `start` to byte `stop` of a template, both of which must be ends of
characters. -/
def slice? (template : String) (start stop : Nat) : Option String :=
  if h : (⟨start⟩ : String.Pos.Raw).IsValid template ∧ (⟨stop⟩ : String.Pos.Raw).IsValid template ∧
      start ≤ stop then
    some (String.extract (template.pos ⟨start⟩ h.1) (template.pos ⟨stop⟩ h.2.1))
  else none

/-- What a token contributes, the text of a literal being cut out of the template. -/
def Token.fillBySlice? (template : String) (args : List Value) (policy : FalsyPolicy) :
    Token → Option (List Char)
  | literal start text =>
    (slice? template start (start + text.utf8ByteSize)).map (collapse ·.toList)
  | token => some (token.fill args policy)

/-- A template filled from the arguments, the texts of the literals being cut out of it. -/
def fillBySlices? (template : String) (tokens : List Token) (args : List Value)
    (policy : FalsyPolicy) : Option String :=
  (tokens.mapM (Token.fillBySlice? template args policy)).map (String.ofList ·.flatten)

/-! ### Byte lengths -/

theorem byteLength_append (s t : List Char) :
    byteLength (s ++ t) = byteLength s + byteLength t := by
  rw [byteLength, String.ofList_append, String.utf8ByteSize_append]
  rfl

/-! ### Slices -/

/-- A text that stands in a template is the slice at its place. -/
theorem slice?_append (before text after : String) :
    slice? (before ++ text ++ after) before.utf8ByteSize
      (before.utf8ByteSize + text.utf8ByteSize) = some text := by
  have hstart : (⟨before.utf8ByteSize⟩ : String.Pos.Raw).IsValid (before ++ text ++ after) := by
    rw [String.Pos.Raw.isValid_iff_exists_append]
    exact ⟨before, text ++ after, String.append_assoc, rfl⟩
  have hstop : (⟨before.utf8ByteSize + text.utf8ByteSize⟩ : String.Pos.Raw).IsValid
      (before ++ text ++ after) := by
    rw [String.Pos.Raw.isValid_iff_exists_append]
    refine ⟨before ++ text, after, rfl, ?_⟩
    rw [String.Pos.Raw.ext_iff, String.byteIdx_rawEndPos, String.utf8ByteSize_append]
  rw [slice?, dif_pos ⟨hstart, hstop, Nat.le_add_right _ _⟩, Option.some.injEq,
    ← String.toByteArray_inj, String.toByteArray_extract]
  show (before.toByteArray ++ text.toByteArray ++ after.toByteArray).extract
    (before.toByteArray.size + 0) (before.toByteArray.size + text.toByteArray.size) = _
  rw [ByteArray.append_assoc, ByteArray.extract_append_size_add,
    ByteArray.extract_append_eq_left rfl]

/-! ### The literals of a scanned template -/

theorem eq_literal_of_ofPiece {start place : Nat} {piece : Piece} {text : String}
    (h : Token.ofPiece start piece = .ok (.literal place text)) :
    piece = .literal text.toList ∧ place = start := by
  cases piece with
  | literal cs =>
    cases h
    rw [String.toList_ofList]
    exact ⟨rfl, rfl⟩
  | leftBrace => cases h
  | placeholder identifier specifier =>
    obtain ⟨path, source, -, -, htoken⟩ := Token.ofPiece_placeholder_eq_ok_iff.mp h
    cases htoken
  | unclosed behind =>
    obtain ⟨path, -, htoken⟩ := Token.ofPiece_unclosed_eq_ok_iff.mp h
    cases htoken

/-- A literal among the tokens of pieces stands where its place says. -/
theorem literal_of_mem_ofPieces {start place : Nat} {pieces : List Piece} {tokens : List Token}
    {text : String} (h : Token.ofPieces start pieces = .ok tokens)
    (hmem : .literal place text ∈ tokens) :
    ∃ before after, pieces.flatMap Piece.source = before ++ text.toList ++ after ∧
      place = start + byteLength before := by
  induction pieces generalizing start tokens with
  | nil =>
    cases h
    cases hmem
  | cons piece pieces ih =>
    -- the rest begins behind the piece, so its places are counted from there
    obtain ⟨token, rest, htoken, hrest, rfl⟩ := Token.ofPieces_cons_eq_ok_iff.mp h
    rw [List.flatMap_cons]
    rcases List.mem_cons.mp hmem with rfl | hmem
    · obtain ⟨rfl, rfl⟩ := eq_literal_of_ofPiece htoken
      exact ⟨[], pieces.flatMap Piece.source, rfl, rfl⟩
    · obtain ⟨before, after, hsource, hplace⟩ := ih hrest hmem
      refine ⟨piece.source ++ before, after, ?_, ?_⟩
      · rw [hsource, List.append_assoc, List.append_assoc, List.append_assoc]
      · rw [hplace, byteLength_append, Nat.add_assoc]

theorem slice?_of_scan {template : String} {tokens : List Token} {start : Nat} {text : String}
    (h : scan template = .ok tokens) (hmem : .literal start text ∈ tokens) :
    slice? template start (start + text.utf8ByteSize) = some text := by
  obtain ⟨before, after, hsource, rfl⟩ := literal_of_mem_ofPieces h hmem
  rw [flatMap_source_pieces] at hsource
  have htemplate : template = String.ofList before ++ text ++ String.ofList after := by
    rw [← String.toList_inj, hsource, String.toList_append, String.toList_append,
      String.toList_ofList, String.toList_ofList]
  rw [htemplate, Nat.zero_add, byteLength]
  exact slice?_append _ _ _

/-! ### Filling by slices -/

theorem fillBySlice?_eq_some_fill {template : String} {args : List Value} {policy : FalsyPolicy}
    {token : Token}
    (h : ∀ start text, token = .literal start text →
      slice? template start (start + text.utf8ByteSize) = some text) :
    token.fillBySlice? template args policy = some (token.fill args policy) := by
  cases token with
  | literal start text =>
    rw [Token.fillBySlice?, h start text rfl]
    rfl
  | leftBrace => rfl
  | placeholder path specifier => rfl

theorem mapM_eq_some_map {tokens : List Token} {f : Token → Option (List Char)}
    {g : Token → List Char} (h : ∀ token ∈ tokens, f token = some (g token)) :
    tokens.mapM f = some (tokens.map g) := by
  induction tokens with
  | nil => rfl
  | cons token tokens ih =>
    have hrest := ih fun t ht => h t (List.mem_cons_of_mem _ ht)
    rw [List.mapM_cons, h token List.mem_cons_self, hrest]
    rfl

/-- One who keeps only the places of the literals fills a scanned template as its tokens do. -/
theorem fillBySlices?_eq_some_fill {template : String} {tokens : List Token}
    (h : scan template = .ok tokens) (args : List Value) (policy : FalsyPolicy) :
    fillBySlices? template tokens args policy = some (fill tokens args policy) := by
  have htexts : tokens.mapM (Token.fillBySlice? template args policy) =
      some (tokens.map (Token.fill args policy)) := by
    refine mapM_eq_some_map fun token hmem => ?_
    refine fillBySlice?_eq_some_fill fun start text htoken => ?_
    exact slice?_of_scan h (htoken ▸ hmem)
  rw [fillBySlices?, htexts, fill, List.flatMap_def]
  rfl

end TextTemplate
