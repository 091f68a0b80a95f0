import Mathlib.Data.List.Chain
import TextTemplate.Proofs.Template.Slice

/-!
# The grammar of templates

`Stands start piece after token` says which text a token can stand for at byte `start`, with
`after` behind it, and `Tiles start text tokens` that a text is a row of such pieces.  Neither
mentions how a template is read.  Scanning finds the tokens that tile the template, of which there
is at most one list, and fails if there is none (`scan_eq_ok_iff_tiles`).
-/

namespace TextTemplate

/-! ### The grammar -/

/-- The pieces that a token beginning at byte `start` can stand for in front of `after`. -/
inductive Stands (start : Nat) : List Char → List Char → Token → Prop
  /-- A run up to the next opening brace or the end. -/
  | literal {text after : List Char} :
    text ≠ [] → '{' ∉ text → (after = [] ∨ after.head? = some '{') →
    Stands start text after (.literal start (String.ofList text))
  | leftBrace {after : List Char} : Stands start ['{', '{'] after .leftBrace
  /-- A placeholder `{identifier}`. -/
  | plain {identifier after : List Char} {path : Path} :
    '}' ∉ identifier → ':' ∉ identifier → identifier.head? ≠ some '{' →
    Path.parse identifier = .ok path →
    Stands start ('{' :: (identifier ++ ['}'])) after (.placeholder path none)
  /-- A placeholder `{identifier:text}`.  A text that begins with a brace is no inline specifier
  if the brace that closes the placeholder is doubled. -/
  | inline {identifier text after : List Char} {path : Path} :
    '}' ∉ identifier → ':' ∉ identifier → identifier.head? ≠ some '{' →
    Path.parse identifier = .ok path →
    '}' ∉ text → (text.head? = some '{' → after.head? ≠ some '}') →
    Stands start ('{' :: (identifier ++ ':' :: (text ++ ['}']))) after
      (.placeholder path (some (.inline (String.ofList text))))
  /-- A placeholder `{identifier:{text}}`. -/
  | nested {identifier text after : List Char} {path source : Path} :
    '}' ∉ identifier → ':' ∉ identifier → identifier.head? ≠ some '{' →
    Path.parse identifier = .ok path → '}' ∉ text → Path.parse text = .ok source →
    Stands start ('{' :: (identifier ++ ':' :: '{' :: (text ++ ['}', '}']))) after
      (.placeholder path (some (.lookup source)))
  /-- A brace that is never closed, named by the text behind it but for the last character. -/
  | unclosed {after : List Char} {path : Path} :
    after.head? ≠ some '{' → '}' ∉ after → Path.parse after.dropLast = .ok path →
    Stands start ['{'] after (.placeholder path none)

/-- The text that begins at byte `start` is a row of pieces, one for each token. -/
inductive Tiles : Nat → List Char → List Token → Prop
  | nil {start : Nat} : Tiles start [] []
  | cons {start : Nat} {piece after : List Char} {token : Token} {tokens : List Token} :
    Stands start piece after token → Tiles (start + byteLength piece) after tokens →
    Tiles start (piece ++ after) (token :: tokens)

/-- Whether a token is a literal. -/
def Token.isLiteral : Token → Bool
  | literal _ _ => true
  | _ => false

/-! ### Tokens and their pieces -/

section Stands

variable {start : Nat} {after : List Char} {token : Token}

/-- A piece that fits stands for its token. -/
theorem stands_of_fits {p : Piece} (hfits : p.Fits after)
    (htoken : Token.ofPiece start p = .ok token) : Stands start p.source after token := by
  cases p with
  | literal text =>
    cases htoken
    exact .literal hfits.1 hfits.2.1 hfits.2.2
  | leftBrace =>
    cases htoken
    exact .leftBrace
  | placeholder identifier specifier =>
    obtain ⟨path, source, hpath, hsource, rfl⟩ := Token.ofPiece_placeholder_eq_ok_iff.mp htoken
    obtain ⟨hclose, hcolon, hhead, hspec⟩ := hfits
    rw [Piece.source]
    cases specifier with
    | absent =>
      cases hsource
      rw [SpecifierText.source, List.append_nil]
      exact .plain hclose hcolon hhead hpath
    | inline text =>
      cases hsource
      rw [SpecifierText.source, List.append_assoc, List.cons_append]
      exact .inline hclose hcolon hhead hpath hspec.1 hspec.2
    | nested text =>
      obtain ⟨source, hparse, rfl⟩ := SpecifierSource.ofText?_nested_eq_ok_iff.mp hsource
      rw [SpecifierText.source, List.append_assoc, List.cons_append, List.cons_append,
        List.append_assoc]
      exact .nested hclose hcolon hhead hpath hspec hparse
  | unclosed behind =>
    obtain ⟨path, hpath, rfl⟩ := Token.ofPiece_unclosed_eq_ok_iff.mp htoken
    obtain ⟨rfl, hclose, hhead⟩ := hfits
    exact .unclosed hhead hclose hpath

/-- What a token stands for is a piece that fits. -/
theorem exists_fits_of_stands {text : List Char} (h : Stands start text after token) :
    ∃ p : Piece, p.source = text ∧ p.Fits after ∧ Token.ofPiece start p = .ok token := by
  cases h with
  | literal hne hopen hstop => exact ⟨.literal text, rfl, ⟨hne, hopen, hstop⟩, rfl⟩
  | leftBrace => exact ⟨.leftBrace, rfl, trivial, rfl⟩
  | @plain identifier _ path hclose hcolon hhead hpath =>
    refine ⟨.placeholder identifier .absent, ?_, ⟨hclose, hcolon, hhead, trivial⟩, ?_⟩
    · rw [Piece.source, SpecifierText.source, List.append_nil]
    · exact Token.ofPiece_placeholder_eq_ok_iff.mpr ⟨path, none, hpath, rfl, rfl⟩
  | @inline identifier text _ path hclose hcolon hhead hpath htext hbehind =>
    refine ⟨.placeholder identifier (.inline text), ?_,
      ⟨hclose, hcolon, hhead, htext, hbehind⟩, ?_⟩
    · rw [Piece.source, SpecifierText.source, List.append_assoc, List.cons_append]
    · exact Token.ofPiece_placeholder_eq_ok_iff.mpr ⟨path, _, hpath, rfl, rfl⟩
  | @nested identifier text _ path source hclose hcolon hhead hpath htext hparse =>
    refine ⟨.placeholder identifier (.nested text), ?_, ⟨hclose, hcolon, hhead, htext⟩, ?_⟩
    · rw [Piece.source, SpecifierText.source, List.append_assoc, List.cons_append,
        List.cons_append, List.append_assoc]
      rfl
    · have hsource := SpecifierSource.ofText?_nested_eq_ok_iff.mpr ⟨source, hparse, rfl⟩
      exact Token.ofPiece_placeholder_eq_ok_iff.mpr ⟨path, _, hpath, hsource, rfl⟩
  | @unclosed _ path hhead hclose hpath =>
    refine ⟨.unclosed after, rfl, ⟨rfl, hclose, hhead⟩, ?_⟩
    exact Token.ofPiece_unclosed_eq_ok_iff.mpr ⟨path, hpath, rfl⟩

theorem Stands.of_isLiteral {text : List Char} (h : Stands start text after token)
    (hliteral : token.isLiteral) : text ≠ [] ∧ '{' ∉ text ∧ StopsAt '{' after := by
  cases h with
  | literal hne hopen hstop => exact ⟨hne, hopen, hstop⟩
  | leftBrace | plain | inline | nested | unclosed => cases hliteral

end Stands

/-! ### Scanning finds the tiling -/

theorem tiles_of_ofPieces {start : Nat} {text : List Char} {tokens : List Token}
    (h : Token.ofPieces start (pieces text) = .ok tokens) : Tiles start text tokens := by
  fun_induction pieces text generalizing start tokens with
  | case1 =>
    cases h
    exact .nil
  | case2 c text ih =>
    obtain ⟨token, rest, htoken, hrest, rfl⟩ := Token.ofPieces_cons_eq_ok_iff.mp h
    -- the text is its next piece with the rest behind it
    rw [← Piece.source_next c text]
    exact .cons (stands_of_fits (Piece.fits_next c text) htoken) (ih hrest)

theorem ofPieces_of_tiles {start : Nat} {text : List Char} {tokens : List Token}
    (h : Tiles start text tokens) : Token.ofPieces start (pieces text) = .ok tokens := by
  induction h with
  | nil =>
    rw [pieces]
    rfl
  | cons hstands _ ih =>
    obtain ⟨p, rfl, hfits, htoken⟩ := exists_fits_of_stands hstands
    rw [pieces_source_append hfits, Token.ofPieces_cons_eq_ok_iff]
    exact ⟨_, _, htoken, ih, rfl⟩

/-- Behind a literal the text is over or goes on with a brace, so no second literal follows. -/
theorem Tiles.isChain {start : Nat} {text : List Char} {tokens : List Token}
    (h : Tiles start text tokens) :
    tokens.IsChain fun t u => ¬ (t.isLiteral ∧ u.isLiteral) := by
  induction h with
  | nil => exact .nil
  | cons hstands htiles ih =>
    cases htiles with
    | nil => exact .singleton _
    | cons hstands' htiles' =>
      refine .cons_cons ?_ ih
      rintro ⟨hliteral, hliteral'⟩
      obtain ⟨-, -, hstop⟩ := hstands.of_isLiteral hliteral
      obtain ⟨hne, hopen, -⟩ := hstands'.of_isLiteral hliteral'
      -- the second literal would begin with the brace that ends the first
      obtain ⟨c, piece, rfl⟩ := List.exists_cons_of_ne_nil hne
      rcases hstop with hnil | hhead
      · cases hnil
      · rw [List.cons_append, List.head?_cons, Option.some.injEq] at hhead
        exact hopen (hhead ▸ List.mem_cons_self)

/-- Scanning a template gives the one list of tokens that tile it, and fails if there is none.  The
literals are the slices of the template at their places, and no two of them are adjacent. -/
theorem scan_eq_ok_iff_tiles (template : String) (tokens : List Token) :
    (scan template = .ok tokens ↔ Tiles 0 template.toList tokens) ∧
    (Tiles 0 template.toList tokens →
      (∀ start text, .literal start text ∈ tokens →
        slice? template start (start + text.utf8ByteSize) = some text) ∧
      (tokens.IsChain fun t u => ¬ (t.isLiteral ∧ u.isLiteral)) ∧
      ∀ others, Tiles 0 template.toList others → others = tokens) := by
  refine ⟨⟨tiles_of_ofPieces, ofPieces_of_tiles⟩, fun htiles => ⟨fun start text hmem => ?_,
    htiles.isChain, fun others hothers => ?_⟩⟩
  · exact slice?_of_scan (ofPieces_of_tiles htiles) hmem
  · -- both are what scanning gives
    have hscan := (ofPieces_of_tiles hothers).symm.trans (ofPieces_of_tiles htiles)
    exact Except.ok.inj hscan

end TextTemplate
