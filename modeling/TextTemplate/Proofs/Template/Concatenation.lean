import TextTemplate.Proofs.Template.Slice

/-!
# Templates behind one another

A template whose placeholders are all closed can be followed by any template that begins with a
brace: the two are cut, scanned and filled as if they stood alone (`scan_append`).  The places of
the second are counted on from the end of the first.

What is looked for ahead of a piece, a closing brace and the character behind it, is found within
the first template or is the brace that the second begins with (`Piece.Fits.append`), so the pieces
of the first stay what they are (`pieces_append`).
-/

namespace TextTemplate

/-- Whether the piece begins with a brace that opens a placeholder. -/
def Piece.opensPlaceholder : Piece → Bool
  | placeholder _ _ | unclosed _ => true
  | literal _ | leftBrace => false

/-- Every brace that opens a placeholder has a closing one behind it. -/
def Closed (text : List Char) : Prop :=
  ∀ before piece after, pieces text = before ++ piece :: after → piece.opensPlaceholder →
    '}' ∈ piece.source ++ after.flatMap Piece.source

/-- The token `n` bytes further on. -/
def Token.shift (n : Nat) : Token → Token
  | literal start text => literal (n + start) text
  | leftBrace => leftBrace
  | placeholder path specifier => placeholder path specifier

/-! ### Pieces -/

section Pieces

variable {text rest : List Char}

/-- Text behind a brace that nothing closes holds no closing brace. -/
theorem notMem_of_pieces_eq_append {before after : List Piece} {behind : List Char}
    (h : pieces text = before ++ .unclosed behind :: after) :
    '}' ∉ after.flatMap Piece.source := by
  fun_induction pieces text generalizing before with
  | case1 =>
    have hlength := congrArg List.length h
    simp at hlength
  | case2 c text ih =>
    cases before with
    | nil =>
      rw [List.nil_append, List.cons.injEq] at h
      obtain ⟨hpiece, rfl⟩ := h
      have hfits := Piece.fits_next c text
      rw [hpiece] at hfits
      rw [flatMap_source_pieces]
      exact hfits.2.1
    | cons piece before =>
      rw [List.cons_append, List.cons.injEq] at h
      exact ih h.2

theorem closed_iff : Closed text ↔ ∀ behind, .unclosed behind ∉ pieces text := by
  constructor
  · intro h behind hmem
    obtain ⟨before, after, hsplit⟩ := List.append_of_mem hmem
    have hclose := h before _ after hsplit rfl
    rw [Piece.source, List.singleton_append, List.mem_cons] at hclose
    rcases hclose with hclose | hclose
    · exact absurd hclose (by decide)
    · exact notMem_of_pieces_eq_append hsplit hclose
  · intro h before piece after hsplit hopen
    rw [List.mem_append]
    left
    cases piece with
    | placeholder identifier specifier => simp [Piece.source]
    | unclosed behind =>
      exact absurd (hsplit ▸ List.mem_append_right _ List.mem_cons_self) (h behind)
    | literal text => cases hopen
    | leftBrace => cases hopen

/-- A piece that fits in front of a text fits there too if more text follows, a brace first unless
something stands between. -/
theorem Piece.Fits.append {p : Piece} {after : List Char} (h : p.Fits after)
    (hclosed : ∀ behind, p ≠ .unclosed behind) (hrest : after = [] → rest.head? = some '{') :
    p.Fits (after ++ rest) := by
  cases p with
  | literal text =>
    obtain ⟨hne, hopen, hstop⟩ := h
    refine ⟨hne, hopen, .inr ?_⟩
    rcases hstop with rfl | hstop
    · exact hrest rfl
    · rw [List.head?_append, hstop]
      rfl
  | leftBrace => trivial
  | placeholder identifier specifier =>
    obtain ⟨hid, hcolon, hhead, hspec⟩ := h
    refine ⟨hid, hcolon, hhead, ?_⟩
    cases specifier with
    | absent => trivial
    | nested path => exact hspec
    | inline text =>
      refine ⟨hspec.1, fun hbrace => ?_⟩
      cases after with
      | nil =>
        rw [List.nil_append, hrest rfl]
        decide
      | cons c after => exact hspec.2 hbrace
  | unclosed behind => exact absurd rfl (hclosed behind)

theorem pieces_append (h : ∀ behind, .unclosed behind ∉ pieces text)
    (hrest : rest.head? = some '{') : pieces (text ++ rest) = pieces text ++ pieces rest := by
  fun_induction pieces text with
  | case1 => rfl
  | case2 c text ih =>
    have hfits := (Piece.fits_next c text).append
      (fun behind heq => h behind (heq ▸ List.mem_cons_self)) fun _ => hrest
    have hafter := ih fun behind hmem => h behind (List.mem_cons_of_mem _ hmem)
    rw [← Piece.source_next c text, List.append_assoc, pieces_source_append hfits, hafter,
      List.cons_append]

end Pieces

/-! ### Tokens -/

namespace Token

theorem ofPiece_add (n start : Nat) (piece : Piece) :
    ofPiece (n + start) piece = (ofPiece start piece).map (shift n) := by
  cases piece with
  | literal text => rfl
  | leftBrace => rfl
  | placeholder identifier specifier =>
    rw [ofPiece, ofPiece]
    cases Path.parse identifier with
    | error e => rfl
    | ok path =>
      cases SpecifierSource.ofText? specifier with
      | error e => rfl
      | ok source => rfl
  | unclosed behind =>
    rw [ofPiece, ofPiece]
    cases Path.parse behind.dropLast with
    | error e => rfl
    | ok path => rfl

/-- Pieces that begin `n` bytes further on have the same tokens, `n` bytes further on. -/
theorem ofPieces_add (n start : Nat) (pieces : List Piece) :
    ofPieces (n + start) pieces = (ofPieces start pieces).map (List.map (shift n)) := by
  induction pieces generalizing start with
  | nil => rfl
  | cons piece pieces ih =>
    rw [ofPieces, ofPieces, ofPiece_add, Nat.add_assoc, ih]
    cases ofPiece start piece with
    | error e => rfl
    | ok token =>
      cases ofPieces (start + byteLength piece.source) pieces with
      | error e => rfl
      | ok tokens => rfl

theorem ofPieces_append {start : Nat} {pieces pieces' : List Piece} {tokens : List Token}
    (h : ofPieces start pieces = .ok tokens) :
    ofPieces start (pieces ++ pieces') =
      (ofPieces (start + byteLength (pieces.flatMap Piece.source)) pieces').map (tokens ++ ·) := by
  induction pieces generalizing start tokens with
  | nil =>
    cases h
    have hnil : byteLength [] = 0 := rfl
    rw [List.nil_append, List.flatMap_nil, hnil, Nat.add_zero]
    cases ofPieces start pieces' with
    | error e => rfl
    | ok tokens' => rfl
  | cons piece pieces ih =>
    obtain ⟨token, rest, htoken, hrest, rfl⟩ := ofPieces_cons_eq_ok_iff.mp h
    rw [List.cons_append, ofPieces, htoken, ih hrest, List.flatMap_cons, byteLength_append,
      Nat.add_assoc]
    cases ofPieces (start + (byteLength piece.source +
      byteLength (pieces.flatMap Piece.source))) pieces' with
    | error e => rfl
    | ok tokens' => rfl

@[simp]
theorem fill_shift (n : Nat) (token : Token) (args : List Value) (policy : FalsyPolicy) :
    (token.shift n).fill args policy = token.fill args policy := by
  cases token <;> rfl

end Token

theorem fill_append_shift (tokens tokens' : List Token) (n : Nat) (args : List Value)
    (policy : FalsyPolicy) :
    fill (tokens ++ tokens'.map (Token.shift n)) args policy =
      fill tokens args policy ++ fill tokens' args policy := by
  simp only [fill, List.flatMap_append, List.flatMap_map, Token.fill_shift, String.ofList_append]

/-! ### Templates -/

theorem scan_append_eq {template template' : String} {tokens : List Token}
    (hscan : scan template = .ok tokens) (hclosed : Closed template.toList)
    (hopen : template'.toList.head? = some '{') :
    scan (template ++ template') =
      (scan template').map fun tokens' =>
        tokens ++ tokens'.map (Token.shift template.utf8ByteSize) := by
  have hlength : byteLength ((pieces template.toList).flatMap Piece.source) =
      template.utf8ByteSize + 0 := by
    rw [flatMap_source_pieces, byteLength, String.ofList_toList, Nat.add_zero]
  rw [scan, String.toList_append, pieces_append (closed_iff.mp hclosed) hopen,
    Token.ofPieces_append hscan, Nat.zero_add, hlength, Token.ofPieces_add, scan]
  cases Token.ofPieces 0 (pieces template'.toList) with
  | error e => rfl
  | ok tokens' => rfl

/-- A template in which every placeholder is closed and a template behind it that begins with a
brace are scanned each for itself, an error of the second being that of both, and are filled one
behind the other. -/
theorem scan_append {template template' : String} {tokens : List Token}
    (hscan : scan template = .ok tokens) (hclosed : Closed template.toList)
    (hopen : template'.toList.head? = some '{') :
    (∀ tokens', scan template' = .ok tokens' →
      ∃ both, scan (template ++ template') = .ok both ∧
        both = tokens ++ tokens'.map (Token.shift template.utf8ByteSize) ∧
        ∀ args policy,
          fill both args policy = fill tokens args policy ++ fill tokens' args policy ∧
          fillBySlices? (template ++ template') both args policy =
            some (fill tokens args policy ++ fill tokens' args policy)) ∧
    ∀ e, scan template' = .error e → scan (template ++ template') = .error e := by
  have happend := scan_append_eq hscan hclosed hopen
  refine ⟨fun tokens' hscan' => ?_, fun e herror => ?_⟩
  · rw [hscan'] at happend
    refine ⟨_, happend, rfl, fun args policy => ?_⟩
    have hfill := fill_append_shift tokens tokens' template.utf8ByteSize args policy
    exact ⟨hfill, hfill ▸ fillBySlices?_eq_some_fill happend args policy⟩
  · rw [happend, herror]
    rfl

theorem scan_append_nested_looking :
    scan ("é\x7b0:{x}" ++ "{1}\x7d") =
      .ok [.literal 0 "é", .placeholder ⟨[.dot "0"]⟩ (some (.inline "\x7bx")),
        .placeholder ⟨[.dot "1"]⟩ none, .literal 11 "\x7d"] := by
  have hpieces : pieces "é\x7b0:{x}".toList =
      [.literal ['é'], .placeholder ['0'] (.inline ['{', 'x'])] := by decide +kernel
  have hclosed : Closed "é\x7b0:{x}".toList := by
    rw [closed_iff, hpieces]
    simp
  have hscan : scan "é\x7b0:{x}" =
      .ok [.literal 0 "é", .placeholder ⟨[.dot "0"]⟩ (some (.inline "\x7bx"))] := by decide +kernel
  have hscan' : scan "{1}\x7d" =
      .ok [.placeholder ⟨[.dot "1"]⟩ none, .literal 3 "\x7d"] := by decide +kernel
  obtain ⟨both, hboth, rfl, -⟩ := (scan_append hscan hclosed rfl).1 _ hscan'
  exact hboth

end TextTemplate
