import TextTemplate.Proofs.Text.Runs
import TextTemplate.Template.Token

/-!
# Where a template is cut

`Piece.Fits after p` lists the pieces that can stand in front of the text `after`.  A text begins
with exactly one of them (`Piece.next_eq_iff`), so a template whose first piece is known is cut on
from behind that piece (`pieces_source_append`), and a row of pieces that fit is what it is cut into
(`cuts_iff`).  The tokens of pieces are read one by one, the place of each being the number of bytes
in front of it (`Token.ofPieces_cons_eq_ok_iff`).
-/

namespace TextTemplate

/-! ### The pieces that fit -/

/-- The specifiers a placeholder can have in front of the text `after`.  One that begins with a
brace is read to the second closing brace if there are two on end. -/
def SpecifierText.Fits (after : List Char) : SpecifierText → Prop
  | absent => True
  | inline text => '}' ∉ text ∧ (text.head? = some '{' → after.head? ≠ some '}')
  | nested path => '}' ∉ path

namespace Piece

/-- The pieces that can stand in front of the text `after`. -/
def Fits (after : List Char) : Piece → Prop
  | literal text => text ≠ [] ∧ '{' ∉ text ∧ StopsAt '{' after
  | leftBrace => True
  | placeholder identifier specifier =>
    '}' ∉ identifier ∧ ':' ∉ identifier ∧ identifier.head? ≠ some '{' ∧ specifier.Fits after
  | unclosed behind => behind = after ∧ '}' ∉ after ∧ after.head? ≠ some '{'

/-! ### The next piece fits -/

theorem fits_ofBody {body : List Char} (hbody : '}' ∉ body) (hhead : body.head? ≠ some '{')
    (rest : List Char) : (ofBody body rest).1.Fits (ofBody body rest).2 := by
  have hcut : body.takeWhile (· != ':') ++ body.dropWhile (· != ':') = body :=
    List.takeWhile_append_dropWhile
  have hcolon := notMem_takeWhile_ne ':' body
  unfold ofBody
  split
  · next h =>
    rw [h, List.append_nil] at hcut
    rw [hcut] at hcolon ⊢
    exact ⟨hbody, hcolon, hhead, trivial⟩
  · next specifier h =>
    -- the body is the identifier, the colon and the specifier
    generalize body.takeWhile (· != ':') = identifier at hcut hcolon ⊢
    rw [h] at hcut
    subst hcut
    rw [List.mem_append, List.mem_cons, not_or, not_or] at hbody
    obtain ⟨hid, -, hspec⟩ := hbody
    have hidhead : identifier.head? ≠ some '{' := by
      cases identifier with
      | nil => simp
      | cons c identifier => simpa using hhead
    split
    · refine ⟨hid, hcolon, hidhead, ?_⟩
      exact fun h => hspec (List.mem_cons_of_mem _ h)
    · next hnot =>
      -- a brace in front and a doubled one behind would have made it nested
      refine ⟨hid, hcolon, hidhead, hspec, ?_⟩
      intro hopen hclose
      obtain ⟨path, rfl⟩ := List.head?_eq_some_iff.mp hopen
      obtain ⟨rest', rfl⟩ := List.head?_eq_some_iff.mp hclose
      exact hnot path rest' rfl rfl

theorem fits_behindBrace {text : List Char} (hhead : text.head? ≠ some '{') :
    (behindBrace text).1.Fits (behindBrace text).2 := by
  unfold behindBrace
  split
  · next h => exact ⟨rfl, notMem_of_dropWhile_ne_eq_nil h, hhead⟩
  · next c rest h =>
    refine fits_ofBody (notMem_takeWhile_ne '}' text) ?_ rest
    cases text with
    | nil => simp
    | cons d text =>
      rw [List.takeWhile_cons]
      split
      · simpa using hhead
      · simp

/-- The piece at the head of a text fits in front of what follows it. -/
theorem fits_next (c : Char) (text : List Char) : (next c text).1.Fits (next c text).2 := by
  unfold next
  split
  · split
    · trivial
    · next hnot =>
      -- a second brace would have made a left brace
      refine fits_behindBrace fun hhead => ?_
      obtain ⟨rest, rfl⟩ := List.head?_eq_some_iff.mp hhead
      exact hnot rest rfl
  · next hc =>
    refine ⟨List.cons_ne_nil _ _, ?_, stopsAt_dropWhile_ne '{' text⟩
    rw [List.mem_cons, not_or]
    exact ⟨fun h => hc h.symm, notMem_takeWhile_ne '{' text⟩

/-! ### A piece that fits is the next one -/

theorem ofBody_of_notMem {identifier : List Char} (h : ':' ∉ identifier) (rest : List Char) :
    ofBody identifier rest = (placeholder identifier .absent, rest) := by
  have htake := takeWhile_run_append h (.inl rfl)
  have hdrop := dropWhile_run_append h (.inl rfl)
  rw [List.append_nil] at htake hdrop
  simp only [ofBody, htake, hdrop]

theorem ofBody_inline {identifier text rest : List Char} (h : ':' ∉ identifier)
    (htext : text.head? = some '{' → rest.head? ≠ some '}') :
    ofBody (identifier ++ ':' :: text) rest = (placeholder identifier (.inline text), rest) := by
  unfold ofBody
  rw [takeWhile_run_append h (.inr rfl), dropWhile_run_append h (.inr rfl)]
  simp only
  split
  · exact absurd rfl (htext rfl)
  · rfl

theorem ofBody_nested {identifier : List Char} (h : ':' ∉ identifier) (path rest : List Char) :
    ofBody (identifier ++ ':' :: '{' :: path) ('}' :: rest) =
      (placeholder identifier (.nested path), rest) := by
  unfold ofBody
  rw [takeWhile_run_append h (.inr rfl), dropWhile_run_append h (.inr rfl)]
  rfl

theorem behindBrace_append {body : List Char} (h : '}' ∉ body) (rest : List Char) :
    behindBrace (body ++ '}' :: rest) = ofBody body rest := by
  unfold behindBrace
  rw [takeWhile_run_append h (.inr rfl), dropWhile_run_append h (.inr rfl)]

theorem behindBrace_of_notMem {text : List Char} (h : '}' ∉ text) :
    behindBrace text = (unclosed text, text) := by
  have hdrop := dropWhile_run_append h (.inl rfl)
  rw [List.append_nil] at hdrop
  simp only [behindBrace, hdrop]

theorem next_of_head?_ne {text : List Char} (h : text.head? ≠ some '{') :
    next '{' text = behindBrace text := by
  unfold next
  rw [if_pos rfl]
  split
  · exact absurd rfl h
  · rfl

/-- What stands behind the brace of a placeholder does not begin with a second one. -/
theorem head?_identifier_append {identifier text : List Char} {c : Char}
    (h : identifier.head? ≠ some '{') (hc : c ≠ '{') :
    (identifier ++ c :: text).head? ≠ some '{' := by
  cases identifier with
  | nil => simpa using hc
  | cons d identifier => simpa using h

theorem next_placeholder {identifier after : List Char} {specifier : SpecifierText}
    (hid : '}' ∉ identifier) (hcolon : ':' ∉ identifier) (hhead : identifier.head? ≠ some '{')
    (hspec : specifier.Fits after) :
    next '{' (identifier ++ specifier.source ++ '}' :: after) =
      (placeholder identifier specifier, after) := by
  cases specifier with
  | absent =>
    rw [SpecifierText.source, List.append_nil,
      next_of_head?_ne (head?_identifier_append hhead (by decide)), behindBrace_append hid,
      ofBody_of_notMem hcolon]
  | inline text =>
    have hbody : '}' ∉ identifier ++ ':' :: text := by simp [hid, hspec.1]
    rw [SpecifierText.source, next_of_head?_ne, behindBrace_append hbody,
      ofBody_inline hcolon hspec.2]
    rw [List.append_assoc, List.cons_append]
    exact head?_identifier_append hhead (by decide)
  | nested path =>
    -- the first of the two closing braces ends the body, the second one is taken along
    have hbody : '}' ∉ identifier ++ ':' :: '{' :: path := by
      have hpath : '}' ∉ path := hspec
      simp [hid, hpath]
    have hsource : identifier ++ SpecifierText.source (.nested path) ++ '}' :: after =
        identifier ++ ':' :: '{' :: path ++ '}' :: '}' :: after := by
      simp [SpecifierText.source]
    rw [hsource, next_of_head?_ne, behindBrace_append hbody, ofBody_nested hcolon]
    rw [List.append_assoc, List.cons_append]
    exact head?_identifier_append hhead (by decide)

/-- A piece that fits is cut off in front of what follows it. -/
theorem next_of_fits {p : Piece} {c : Char} {text after : List Char} (h : p.Fits after)
    (hsource : p.source ++ after = c :: text) : next c text = (p, after) := by
  cases p with
  | literal run =>
    obtain ⟨hne, hopen, hstop⟩ := h
    obtain ⟨d, run, rfl⟩ := List.exists_cons_of_ne_nil hne
    rw [source, List.cons_append, List.cons.injEq] at hsource
    obtain ⟨rfl, rfl⟩ := hsource
    rw [List.mem_cons, not_or] at hopen
    unfold next
    rw [if_neg fun hd => hopen.1 hd.symm, takeWhile_run_append hopen.2 hstop,
      dropWhile_run_append hopen.2 hstop]
  | leftBrace =>
    rw [source, List.cons_append, List.cons.injEq] at hsource
    obtain ⟨rfl, rfl⟩ := hsource
    rfl
  | placeholder identifier specifier =>
    obtain ⟨hid, hcolon, hhead, hspec⟩ := h
    rw [source, List.cons_append, List.cons.injEq] at hsource
    obtain ⟨rfl, htext⟩ := hsource
    rw [← htext, List.append_assoc _ ['}'], List.singleton_append]
    exact next_placeholder hid hcolon hhead hspec
  | unclosed behind =>
    obtain ⟨rfl, hclose, hhead⟩ := h
    rw [source, List.cons_append, List.cons.injEq, List.nil_append] at hsource
    obtain ⟨rfl, rfl⟩ := hsource
    rw [next_of_head?_ne hhead, behindBrace_of_notMem hclose]

/-- A text begins with the one piece that fits in front of the rest. -/
theorem next_eq_iff {p : Piece} {c : Char} {text after : List Char} :
    next c text = (p, after) ↔ p.source ++ after = c :: text ∧ p.Fits after := by
  constructor
  · intro h
    have hsource := source_next c text
    have hfits := fits_next c text
    rw [h] at hsource hfits
    exact ⟨hsource, hfits⟩
  · rintro ⟨hsource, hfits⟩
    exact next_of_fits hfits hsource

theorem source_ne_nil_of_fits {p : Piece} {after : List Char} (h : p.Fits after) :
    p.source ≠ [] := by
  cases p with
  | literal text => exact h.1
  | leftBrace => simp [source]
  | placeholder identifier specifier => simp [source]
  | unclosed behind => simp [source]

end Piece

/-! ### All pieces -/

theorem pieces_source_append {p : Piece} {after : List Char} (h : p.Fits after) :
    pieces (p.source ++ after) = p :: pieces after := by
  obtain ⟨c, source, hsource⟩ := List.exists_cons_of_ne_nil (Piece.source_ne_nil_of_fits h)
  have hnext := Piece.next_of_fits h (by rw [hsource, List.cons_append])
  rw [hsource, List.cons_append, pieces, hnext]

/-- The text is the pieces one after the other, each of which fits in front of the ones behind. -/
inductive Cuts : List Char → List Piece → Prop
  | nil : Cuts [] []
  | cons {p : Piece} {after : List Char} {ps : List Piece} : p.Fits after → Cuts after ps →
    Cuts (p.source ++ after) (p :: ps)

theorem cuts_pieces (text : List Char) : Cuts text (pieces text) := by
  fun_induction pieces text with
  | case1 => exact .nil
  | case2 c text ih =>
    have hcuts := Cuts.cons (Piece.fits_next c text) ih
    rwa [Piece.source_next] at hcuts

/-- There is one way to cut a text. -/
theorem cuts_iff {text : List Char} {ps : List Piece} : Cuts text ps ↔ pieces text = ps := by
  constructor
  · intro h
    induction h with
    | nil => rw [pieces]
    | cons hfits _ ih => rw [pieces_source_append hfits, ih]
  · rintro rfl
    exact cuts_pieces text

theorem Cuts.flatMap_source {text : List Char} {ps : List Piece} (h : Cuts text ps) :
    ps.flatMap Piece.source = text := by
  rw [← cuts_iff.mp h, flatMap_source_pieces]

/-! ### The tokens of pieces -/

namespace Token

variable {start : Nat} {piece : Piece} {pieces : List Piece} {tokens : List Token}

theorem ofPieces_cons_eq_ok_iff :
    ofPieces start (piece :: pieces) = .ok tokens ↔
      ∃ token rest, ofPiece start piece = .ok token ∧
        ofPieces (start + byteLength piece.source) pieces = .ok rest ∧ tokens = token :: rest := by
  rw [ofPieces]
  cases ofPiece start piece with
  | error e => simp [bind, Except.bind]
  | ok token =>
    cases ofPieces (start + byteLength piece.source) pieces with
    | error e => simp [bind, Except.bind]
    | ok rest => simp [bind, Except.bind, pure, Except.pure, eq_comm]

theorem ofPiece_placeholder_eq_ok_iff {identifier : List Char} {specifier : SpecifierText}
    {token : Token} :
    ofPiece start (.placeholder identifier specifier) = .ok token ↔
      ∃ path source, Path.parse identifier = .ok path ∧
        SpecifierSource.ofText? specifier = .ok source ∧ token = .placeholder path source := by
  rw [ofPiece]
  cases Path.parse identifier with
  | error e => simp [bind, Except.bind]
  | ok path =>
    cases SpecifierSource.ofText? specifier with
    | error e => simp [bind, Except.bind]
    | ok source => simp [bind, Except.bind, pure, Except.pure, eq_comm]

theorem ofPiece_unclosed_eq_ok_iff {behind : List Char} {token : Token} :
    ofPiece start (.unclosed behind) = .ok token ↔
      ∃ path, Path.parse behind.dropLast = .ok path ∧ token = .placeholder path none := by
  rw [ofPiece]
  cases Path.parse behind.dropLast with
  | error e => simp [bind, Except.bind]
  | ok path => simp [bind, Except.bind, pure, Except.pure, eq_comm]

end Token

theorem SpecifierSource.ofText?_nested_eq_ok_iff {text : List Char}
    {source : Option SpecifierSource} :
    ofText? (.nested text) = .ok source ↔
      ∃ path, Path.parse text = .ok path ∧ source = some (.lookup path) := by
  rw [ofText?]
  cases Path.parse text with
  | error e => simp [Except.map]
  | ok path => simp [Except.map, eq_comm]

end TextTemplate
