import TextTemplate.Proofs.Text.Places

/-!
# Scanning in place

The same scanner as a loop over one place in the template, with every text it looks at cut out by
its ends (`turn?`, `scanFrom?`).  Nothing is found where a cut is out of order, out of bounds or
inside a character.

At a place where the template can be cut a turn of the loop comes to an end, with tokens that
belong to the text it goes past, and it goes past at least one character
(`exists_turn?_eq_some`).  So the loop ends, no cut fails, and it finds what scanning finds
(`scanInPlace?_eq_some_scan`).
-/

namespace TextTemplate

/-! ### One placeholder -/

/-- The specifier that a text stands for: a path if it is written in braces. -/
def SpecifierSource.ofWritten : List Char → Except FormatError SpecifierSource
  | '{' :: inner =>
    if inner.getLast? = some '}' then (Path.parse inner.dropLast).map .lookup
    else .ok (.inline (String.ofList ('{' :: inner)))
  | text => .ok (.inline (String.ofList text))

namespace InPlace

/-- The parts of a placeholder of which `behind` is what stands behind its brace and `close` the
place of the first closing brace in it: the identifier, the specifier, and the place of the brace
that closes the placeholder.  A specifier that begins with a brace runs on over one closing brace if
there are two on end. -/
def parts? (behind : List Char) (close : Nat) :
    Option (List Char × Option (List Char) × Nat) :=
  match (place? ':' behind).filter (· < close) with
  | some colon => do
    let nested := byteAt? behind (colon + 1) = some '{'.toUInt8 ∧
      byteAt? behind (close + 1) = some '}'.toUInt8
    let stop := if nested then close + 1 else close
    let identifier ← cut? behind 0 colon
    let specifier ← cut? behind (colon + 1) stop
    return (identifier, some specifier, stop)
  | none => do
    let identifier ← cut? behind 0 close
    return (identifier, none, close)

/-- The placeholder whose brace stands in front of byte `start`, and the place behind it.  Without a
closing brace all but the last character are the identifier, and only the brace is gone past. -/
def placeholder? (template : List Char) (start : Nat) :
    Option (Except FormatError (Token × Nat)) := do
  let behind ← cut? template start (byteLength template)
  match place? '}' behind with
  | none => do
    let identifier ← cut? behind 0 (byteLength behind.dropLast)
    return (Path.parse identifier).map fun path => (.placeholder path none, start)
  | some close => do
    let (identifier, specifier, stop) ← parts? behind close
    return do
      let path ← Path.parse identifier
      let source ← specifier.mapM SpecifierSource.ofWritten
      return (.placeholder path source, start + stop + 1)

/-! ### The loop -/

/-- What a turn of the loop comes to: it has found the last tokens, an error, or tokens and the
place to go on at. -/
inductive Turn where
  | done (tokens : List Token)
  | failed (e : FormatError)
  | next (tokens : List Token) (place : Nat)

/-- The literal between two places, if there is anything between them. -/
def literal? (template : List Char) (start stop : Nat) : Option (List Token) :=
  if start < stop then
    (cut? template start stop).map fun text => [.literal start (String.ofList text)]
  else some []

/-- One turn of the loop, at a place of the template: the literal up to the next brace, and what
begins with this brace. -/
def turn? (template : List Char) (place : Nat) : Option Turn := do
  let rest ← cut? template place (byteLength template)
  match place? '{' rest with
  | none => do
    let literal ← literal? template place (byteLength template)
    return .done literal
  | some offset => do
    let literal ← literal? template place (place + offset)
    if byteAt? template (place + offset + 1) = some '{'.toUInt8 then
      return .next (literal ++ [.leftBrace]) (place + offset + 2)
    else do
      let placeholder ← placeholder? template (place + offset + 1)
      match placeholder with
      | .error e => return .failed e
      | .ok (token, stop) => return .next (literal ++ [token]) stop

/-! ### Placeholders -/

section Placeholder

variable {body rest : List Char}

theorem ofWritten_of_notMem {text : List Char} (h : '}' ∉ text) :
    SpecifierSource.ofWritten text = .ok (.inline (String.ofList text)) := by
  unfold SpecifierSource.ofWritten
  split
  · next inner =>
    have hlast : inner.getLast? ≠ some '}' := fun hlast =>
      h (List.mem_cons_of_mem _ (List.mem_of_getLast? hlast))
    rw [if_neg hlast]
  · rfl

theorem ofWritten_nested (path : List Char) :
    SpecifierSource.ofWritten ('{' :: (path ++ ['}'])) = (Path.parse path).map .lookup := by
  simp [SpecifierSource.ofWritten]

/-- The token of a placeholder with the given parts. -/
def tokenOf (identifier : List Char) (specifier : Option (List Char)) :
    Except FormatError Token := do
  let path ← Path.parse identifier
  let source ← specifier.mapM SpecifierSource.ofWritten
  return .placeholder path source

/-- Without a colon the body is the identifier. -/
theorem parts?_of_notMem (h : ':' ∉ body) (rest : List Char) :
    parts? (body ++ '}' :: rest) (byteLength body) = some (body, none, byteLength body) := by
  have hcolon : (place? ':' (body ++ '}' :: rest)).filter (· < byteLength body) = none := by
    rw [Option.filter_eq_none_iff]
    intro place hplace
    have hle := le_of_place?_append h hplace
    simpa using hle
  have hcut := cut?_from_start body ('}' :: rest)
  simp only [parts?, hcolon, hcut, Option.bind_eq_bind, Option.bind_some]
  rfl

/-- With a colon the specifier stands behind it, and is one brace longer if it begins with a brace
and two closing ones follow. -/
theorem parts?_of_colon {identifier : List Char} (text : List Char) (h : ':' ∉ identifier)
    (rest : List Char) :
    parts? (identifier ++ ':' :: text ++ '}' :: rest) (byteLength (identifier ++ ':' :: text)) =
      some (if text.head? = some '{' ∧ rest.head? = some '}' then
        (identifier, some (text ++ ['}']), byteLength (identifier ++ ':' :: text) + 1)
      else (identifier, some text, byteLength (identifier ++ ':' :: text))) := by
  generalize hbehind : identifier ++ ':' :: text ++ '}' :: rest = behind
  have hlength : byteLength (identifier ++ [':']) = byteLength identifier + 1 :=
    byteLength_concat identifier ':'
  have hclose : byteLength (identifier ++ ':' :: text ++ ['}']) =
      byteLength (identifier ++ ':' :: text) + 1 := byteLength_concat _ '}'
  have hcolon : (place? ':' behind).filter (· < byteLength (identifier ++ ':' :: text)) =
      some (byteLength identifier) := by
    have hplace : place? ':' behind = some (byteLength identifier) := by
      rw [← hbehind, List.append_assoc, List.cons_append]
      exact place?_append h _
    have hlt : byteLength identifier < byteLength (identifier ++ ':' :: text) := by
      have hpos := byteLength_pos (List.cons_ne_nil ':' text)
      rw [byteLength_append]
      omega
    simp [hplace, hlt]
  -- the two bytes that are looked at begin the specifier and follow the closing brace
  have hopen : byteAt? behind (byteLength identifier + 1) = some '{'.toUInt8 ↔
      text.head? = some '{' := by
    rw [byteAt?_eq_some_iff (identifier ++ [':']) (text ++ '}' :: rest) (by decide)
      (by simp [← hbehind]) hlength.symm]
    cases text <;> simp
  have hsecond : byteAt? behind (byteLength (identifier ++ ':' :: text) + 1) = some '}'.toUInt8 ↔
      rest.head? = some '}' :=
    byteAt?_eq_some_iff _ rest (by decide) (by simp [← hbehind]) hclose.symm
  have hid : cut? behind 0 (byteLength identifier) = some identifier :=
    cut?_eq_some [] (':' :: text ++ '}' :: rest) (by simp [← hbehind]) rfl rfl
  simp only [parts?, hcolon, hopen, hsecond, hid, Option.bind_eq_bind, Option.bind_some]
  split
  · next hnested =>
    obtain ⟨rest, rfl⟩ := List.head?_eq_some_iff.mp hnested.2
    have hcut : cut? behind (byteLength identifier + 1)
        (byteLength (identifier ++ ':' :: text) + 1) = some (text ++ ['}']) :=
      cut?_eq_some (identifier ++ [':']) ('}' :: rest) (by simp [← hbehind])
        hlength.symm (by rw [← hclose]; simp)
    rw [hcut]
    rfl
  · have hcut : cut? behind (byteLength identifier + 1) (byteLength (identifier ++ ':' :: text)) =
        some text :=
      cut?_eq_some (identifier ++ [':']) ('}' :: rest) (by simp [← hbehind])
        hlength.symm (by simp)
    rw [hcut]
    rfl

/-! #### The tokens of the parts -/

theorem tokenOf_absent (start : Nat) (identifier : List Char) :
    tokenOf identifier none = Token.ofPiece start (.placeholder identifier .absent) := rfl

theorem tokenOf_inline {text : List Char} (h : '}' ∉ text) (start : Nat) (identifier : List Char) :
    tokenOf identifier (some text) =
      Token.ofPiece start (.placeholder identifier (.inline text)) := by
  have hsource : (some text).mapM SpecifierSource.ofWritten =
      SpecifierSource.ofText? (.inline text) := by
    rw [Option.mapM_some, ofWritten_of_notMem h]
    rfl
  rw [tokenOf, hsource, Token.ofPiece]

theorem tokenOf_nested (start : Nat) (identifier path : List Char) :
    tokenOf identifier (some ('{' :: (path ++ ['}']))) =
      Token.ofPiece start (.placeholder identifier (.nested path)) := by
  have hsource : (some ('{' :: (path ++ ['}']))).mapM SpecifierSource.ofWritten =
      SpecifierSource.ofText? (.nested path) := by
    rw [Option.mapM_some, ofWritten_nested, SpecifierSource.ofText?]
    cases Path.parse path <;> rfl
  rw [tokenOf, hsource, Token.ofPiece]

theorem byteLength_source_placeholder (identifier : List Char) (specifier : SpecifierText) :
    byteLength (Piece.placeholder identifier specifier).source =
      1 + byteLength (identifier ++ specifier.source) + 1 := by
  rw [Piece.source, byteLength_cons, byteLength_concat, Nat.add_assoc]
  rfl

theorem byteLength_append_nested (identifier path : List Char) :
    byteLength (identifier ++ ':' :: '{' :: (path ++ ['}'])) =
      byteLength (identifier ++ ':' :: '{' :: path) + 1 := by
  rw [← List.cons_append, ← List.cons_append, ← List.append_assoc, byteLength_concat]
  rfl

/-- The parts of a placeholder are those of the piece it is, up to the brace that ends it. -/
theorem exists_parts?_eq_some (hbody : '}' ∉ body) (start : Nat) (rest : List Char) :
    ∃ identifier specifier stop,
      parts? (body ++ '}' :: rest) (byteLength body) = some (identifier, specifier, stop) ∧
      tokenOf identifier specifier = Token.ofPiece start (Piece.ofBody body rest).1 ∧
      1 + stop + 1 = byteLength (Piece.ofBody body rest).1.source := by
  by_cases hcolon : ':' ∈ body
  · obtain ⟨identifier, text, rfl, hid⟩ := List.eq_append_cons_of_mem hcolon
    rw [List.mem_append, List.mem_cons, not_or, not_or] at hbody
    have hparts := parts?_of_colon text hid rest
    split at hparts
    · next hnested =>
      -- the closing brace is the second one, and the first belongs to the specifier
      obtain ⟨path, rfl⟩ := List.head?_eq_some_iff.mp hnested.1
      obtain ⟨rest, rfl⟩ := List.head?_eq_some_iff.mp hnested.2
      refine ⟨_, _, _, hparts, ?_, ?_⟩
      · rw [Piece.ofBody_nested hid]
        exact tokenOf_nested start identifier path
      · rw [Piece.ofBody_nested hid, byteLength_source_placeholder, SpecifierText.source,
          byteLength_append_nested identifier path]
    · next hnot =>
      have hinline := Piece.ofBody_inline hid fun hopen hclose => hnot ⟨hopen, hclose⟩
      refine ⟨_, _, _, hparts, ?_, ?_⟩
      · rw [hinline]
        exact tokenOf_inline hbody.2.2 start identifier
      · rw [hinline, byteLength_source_placeholder, SpecifierText.source]
  · -- all of the body is the identifier
    refine ⟨body, none, byteLength body, parts?_of_notMem hcolon rest, ?_, ?_⟩
    · rw [Piece.ofBody_of_notMem hcolon]
      exact tokenOf_absent start body
    · rw [Piece.ofBody_of_notMem hcolon, byteLength_source_placeholder, SpecifierText.source,
        List.append_nil]

/-- What begins with a brace is found at its place, and gone past. -/
theorem placeholder?_eq_some (before : List Char) (start : Nat) (behind : List Char) :
    placeholder? (before ++ '{' :: behind) (byteLength before + 1) =
      some ((Token.ofPiece start (Piece.behindBrace behind).1).map fun token =>
        (token, byteLength before + byteLength (Piece.behindBrace behind).1.source)) := by
  have hbehind : cut? (before ++ '{' :: behind) (byteLength before + 1)
      (byteLength (before ++ '{' :: behind)) = some behind :=
    cut?_eq_some (before ++ ['{']) [] (by simp)
      (byteLength_concat before '{').symm (by simp)
  simp only [placeholder?, hbehind, Option.bind_eq_bind, Option.bind_some]
  by_cases hclose : '}' ∈ behind
  · obtain ⟨body, rest, rfl, hbody⟩ := List.eq_append_cons_of_mem hclose
    obtain ⟨identifier, specifier, stop, hparts, htoken, hstop⟩ :=
      exists_parts?_eq_some hbody start rest
    rw [place?_append hbody, Piece.behindBrace_append hbody, ← htoken, ← hstop]
    simp only [hparts, Option.bind_some, tokenOf]
    have hplace : byteLength before + (1 + stop + 1) = byteLength before + 1 + stop + 1 := by omega
    rw [hplace]
    -- both read the identifier and then the specifier
    cases Path.parse identifier with
    | error e => rfl
    | ok path => cases specifier.mapM SpecifierSource.ofWritten <;> rfl
  · -- no closing brace: the last character is dropped whole, however many bytes it takes
    have hidentifier : cut? behind 0 (byteLength behind.dropLast) = some behind.dropLast := by
      obtain ⟨last, hlast⟩ := List.dropLast_prefix behind
      exact cut?_eq_some [] last hlast.symm rfl rfl
    rw [place?_of_notMem hclose, Piece.behindBrace_of_notMem hclose]
    simp only [hidentifier, Option.bind_some, Token.ofPiece, Piece.source]
    cases Path.parse behind.dropLast <;> rfl

end Placeholder

/-! ### What scanning finds -/

/-- The tokens of a run of literal text, none if it is empty. -/
def literals (start : Nat) (run : List Char) : List Token :=
  if run = [] then [] else [.literal start (String.ofList run)]

theorem literal?_eq_some (before run after : List Char) :
    literal? (before ++ (run ++ after)) (byteLength before) (byteLength before + byteLength run) =
      some (literals (byteLength before) run) := by
  unfold literal? literals
  by_cases hrun : run = []
  · simp [hrun]
  · have hpos := byteLength_pos hrun
    rw [if_pos (by omega), if_neg hrun, cut?_append]
    rfl

/-- A piece, with the tokens of what follows it. -/
theorem ofPieces_cons (start : Nat) (piece : Piece) (rest : List Piece) :
    Token.ofPieces start (piece :: rest) = (Token.ofPiece start piece).bind fun token =>
      (Token.ofPieces (start + byteLength piece.source) rest).map ([token] ++ ·) := by
  rw [Token.ofPieces]
  cases Token.ofPiece start piece with
  | error e => rfl
  | ok token => cases Token.ofPieces (start + byteLength piece.source) rest <;> rfl

theorem ofPieces_run_append {run after : List Char} (hrun : '{' ∉ run) (hafter : StopsAt '{' after)
    (start : Nat) :
    Token.ofPieces start (pieces (run ++ after)) =
      (Token.ofPieces (start + byteLength run) (pieces after)).map (literals start run ++ ·) := by
  unfold literals
  by_cases hnil : run = []
  · subst hnil
    simp only [List.nil_append, byteLength_nil, Nat.add_zero, if_true]
    cases Token.ofPieces start (pieces after) <;> rfl
  · have hfits : (Piece.literal run).Fits after := ⟨hnil, hrun, hafter⟩
    have hpieces := pieces_source_append hfits
    rw [Piece.source] at hpieces
    rw [hpieces, ofPieces_cons, if_neg hnil]
    rfl

theorem ofPieces_leftBrace (start : Nat) (after : List Char) :
    Token.ofPieces start (pieces ('{' :: '{' :: after)) =
      (Token.ofPieces (start + 2) (pieces after)).map ([.leftBrace] ++ ·) := by
  have hfits : Piece.leftBrace.Fits after := trivial
  have hpieces := pieces_source_append hfits
  rw [Piece.source, List.cons_append, List.cons_append, List.nil_append] at hpieces
  rw [hpieces, ofPieces_cons]
  rfl

theorem ofPieces_behindBrace {behind : List Char} (h : behind.head? ≠ some '{') (start : Nat) :
    Token.ofPieces start (pieces ('{' :: behind)) =
      (Token.ofPiece start (Piece.behindBrace behind).1).bind fun token =>
        (Token.ofPieces (start + byteLength (Piece.behindBrace behind).1.source)
          (pieces (Piece.behindBrace behind).2)).map ([token] ++ ·) := by
  rw [pieces, Piece.next_of_head?_ne h, ofPieces_cons]

theorem map_append_map_append (first second : List Token)
    (scanned : Except FormatError (List Token)) :
    (scanned.map (second ++ ·)).map (first ++ ·) = scanned.map (first ++ second ++ ·) := by
  cases scanned with
  | error e => rfl
  | ok tokens => exact congrArg Except.ok (List.append_assoc first second tokens).symm

/-! ### A turn of the loop -/

/-- What a turn at byte `place`, where `rest` begins, comes to is what scanning this text finds
there: all of its tokens, its error, or the tokens of a part that is not empty, behind which the
next turn begins. -/
def Turn.Agrees (place : Nat) (rest : List Char) : Turn → Prop
  | .done tokens => Token.ofPieces place (pieces rest) = .ok tokens
  | .failed e => Token.ofPieces place (pieces rest) = .error e
  | .next tokens stop => ∃ taken after, rest = taken ++ after ∧ taken ≠ [] ∧
      stop = place + byteLength taken ∧
      Token.ofPieces place (pieces rest) =
        (Token.ofPieces stop (pieces after)).map (tokens ++ ·)

/-- A turn at the end of a part of the template finds what it looks for. -/
theorem exists_turn?_eq_some (before rest : List Char) :
    ∃ turn, turn? (before ++ rest) (byteLength before) = some turn ∧
      turn.Agrees (byteLength before) rest := by
  have hrest : cut? (before ++ rest) (byteLength before) (byteLength (before ++ rest)) =
      some rest := cut?_to_end before rest
  simp only [turn?, hrest, Option.bind_eq_bind, Option.bind_some]
  by_cases hopen : '{' ∈ rest
  · obtain ⟨run, behind, rfl, hrun⟩ := List.eq_append_cons_of_mem hopen
    have hscan := ofPieces_run_append hrun (.inr (rfl : ('{' :: behind).head? = some '{'))
      (byteLength before)
    have hbyte : byteAt? (before ++ (run ++ '{' :: behind))
        (byteLength before + byteLength run + 1) = some '{'.toUInt8 ↔ behind.head? = some '{' :=
      byteAt?_eq_some_iff (before ++ run ++ ['{']) behind (by decide) (by simp)
        (by rw [byteLength_concat, byteLength_append]; rfl)
    rw [place?_append hrun]
    simp only [literal?_eq_some, Option.bind_some, hbyte]
    by_cases hdouble : behind.head? = some '{'
    · -- a doubled brace
      obtain ⟨after, rfl⟩ := List.head?_eq_some_iff.mp hdouble
      rw [if_pos hdouble]
      refine ⟨_, rfl, run ++ ['{', '{'], after, by simp, by simp, ?_, ?_⟩
      · rw [byteLength_append, ← Nat.add_assoc]
        rfl
      · rw [hscan, ofPieces_leftBrace, map_append_map_append]
    · -- a placeholder
      have hplaceholder := placeholder?_eq_some (before ++ run)
        (byteLength before + byteLength run) behind
      rw [List.append_assoc, byteLength_append] at hplaceholder
      have hpiece : run ++ '{' :: behind =
          (run ++ (Piece.behindBrace behind).1.source) ++ (Piece.behindBrace behind).2 := by
        rw [List.append_assoc, Piece.source_behindBrace]
      rw [ofPieces_behindBrace hdouble] at hscan
      rw [if_neg hdouble, hplaceholder]
      cases htoken : Token.ofPiece (byteLength before + byteLength run)
          (Piece.behindBrace behind).1 with
      | error e =>
        refine ⟨_, rfl, ?_⟩
        rw [Turn.Agrees, hscan, htoken]
        rfl
      | ok token =>
        refine ⟨_, rfl, _, _, hpiece, ?_, ?_, ?_⟩
        · exact List.append_ne_nil_of_right_ne_nil _
            (Piece.source_ne_nil_of_fits (Piece.fits_behindBrace hdouble))
        · rw [byteLength_append, Nat.add_assoc]
        · rw [hscan, htoken]
          exact map_append_map_append _ _ _
  · -- only literal text is left
    have hliteral := literal?_eq_some before rest []
    have hscan := ofPieces_run_append hopen (.inl rfl) (byteLength before)
    rw [List.append_nil, ← byteLength_append] at hliteral
    rw [List.append_nil] at hscan
    rw [place?_of_notMem hopen]
    simp only [hliteral, Option.bind_some]
    refine ⟨_, rfl, ?_⟩
    rw [Turn.Agrees, hscan, pieces]
    exact congrArg Except.ok (List.append_nil _)

/-! ### The loop ends -/

/-- Where a turn comes to an end it stands behind a part of the template. -/
theorem exists_append_of_turn? {template : List Char} {place : Nat} {turn : Turn}
    (h : turn? template place = some turn) :
    ∃ before rest, template = before ++ rest ∧ place = byteLength before := by
  unfold turn? at h
  obtain ⟨rest, hrest, -⟩ := Option.bind_eq_some_iff.mp h
  exact exists_append_of_cut? hrest

/-- A turn moves on in the template. -/
theorem lt_and_le_of_turn? {template : List Char} {place stop : Nat} {tokens : List Token}
    (h : turn? template place = some (.next tokens stop)) :
    place < stop ∧ stop ≤ byteLength template := by
  obtain ⟨before, rest, rfl, rfl⟩ := exists_append_of_turn? h
  obtain ⟨turn, hturn, hagrees⟩ := exists_turn?_eq_some before rest
  obtain rfl : turn = .next tokens stop := Option.some.inj (hturn.symm.trans h)
  obtain ⟨taken, after, rfl, htaken, rfl, -⟩ := hagrees
  have hpos := byteLength_pos htaken
  rw [byteLength_append, byteLength_append]
  omega

/-- The tokens from a place of the template on, one turn after the other. -/
def scanFrom? (template : List Char) (place : Nat) : Option (Except FormatError (List Token)) :=
  match _h : turn? template place with
  | none => none
  | some (.done tokens) => some (.ok tokens)
  | some (.failed e) => some (.error e)
  | some (.next tokens stop) => (scanFrom? template stop).map (·.map (tokens ++ ·))
termination_by byteLength template - place
decreasing_by
  have hmoves := lt_and_le_of_turn? _h
  omega

/-- From the end of a part of the template on, the loop finds the tokens of the rest. -/
theorem scanFrom?_append (before rest : List Char) :
    scanFrom? (before ++ rest) (byteLength before) =
      some (Token.ofPieces (byteLength before) (pieces rest)) := by
  -- the rest gets shorter with every turn, and the part in front of it longer
  generalize hn : rest.length = n
  induction n using Nat.strong_induction_on generalizing before rest with
  | _ n ih =>
  obtain ⟨turn, hturn, hagrees⟩ := exists_turn?_eq_some before rest
  rw [scanFrom?]
  split
  · next h => rw [hturn] at h; cases h
  · next tokens h =>
    obtain rfl := Option.some.inj (hturn.symm.trans h)
    exact congrArg some hagrees.symm
  · next e h =>
    obtain rfl := Option.some.inj (hturn.symm.trans h)
    exact congrArg some hagrees.symm
  · next tokens stop h =>
    obtain rfl := Option.some.inj (hturn.symm.trans h)
    -- the next turn begins behind what was taken
    obtain ⟨taken, after, rfl, htaken, rfl, hscan⟩ := hagrees
    have hlt : after.length < n := by
      have hpos := List.length_pos_iff.mpr htaken
      rw [List.length_append] at hn
      omega
    have hnext := ih _ hlt (before ++ taken) after rfl
    rw [byteLength_append, List.append_assoc] at hnext
    rw [hnext, hscan]
    rfl

/-! ### Scanning -/

end InPlace

open InPlace

/-- The tokens of a template, found in place. -/
def scanInPlace? (template : String) : Option (Except FormatError (List Token)) :=
  scanFrom? template.toList 0

/-- Scanning in place comes to an end, and finds what scanning finds. -/
theorem scanInPlace?_eq_some_scan (template : String) :
    scanInPlace? template = some (scan template) :=
  scanFrom?_append [] template.toList

/-- The places at which the loop takes a turn. -/
inductive Reached (template : String) : Nat → Prop
  | start : Reached template 0
  | next {place stop : Nat} {tokens : List Token} :
    Reached template place → turn? template.toList place = some (.next tokens stop) →
    Reached template stop

/-- The loop takes its turns behind parts of the template. -/
theorem Reached.exists_append {template : String} {place : Nat} (h : Reached template place) :
    ∃ before rest, template.toList = before ++ rest ∧ place = byteLength before := by
  induction h with
  | start => exact ⟨[], template.toList, rfl, rfl⟩
  | @next place stop tokens _ hturn ih =>
    obtain ⟨before, rest, htemplate, rfl⟩ := ih
    obtain ⟨turn, hturn', hagrees⟩ := exists_turn?_eq_some before rest
    rw [← htemplate] at hturn'
    obtain rfl := Option.some.inj (hturn'.symm.trans hturn)
    obtain ⟨taken, after, rfl, -, rfl, -⟩ := hagrees
    exact ⟨before ++ taken, after, by rw [htemplate, List.append_assoc],
      (byteLength_append _ _).symm⟩

/-- Where the loop takes a turn the template can be cut, the turn comes to an end, and the next
one is further on. -/
theorem Reached.isValid_and_exists_turn? {template : String} {place : Nat}
    (h : Reached template place) :
    (⟨place⟩ : String.Pos.Raw).IsValid template ∧ place ≤ template.utf8ByteSize ∧
      ∃ turn, turn? template.toList place = some turn ∧
        ∀ tokens stop, turn = .next tokens stop → place < stop ∧ stop ≤ template.utf8ByteSize := by
  obtain ⟨before, rest, htemplate, rfl⟩ := h.exists_append
  obtain ⟨turn, hturn, -⟩ := exists_turn?_eq_some before rest
  rw [← htemplate] at hturn
  refine ⟨?_, ?_, turn, hturn, ?_⟩
  · rw [String.Pos.Raw.isValid_iff_exists_append]
    refine ⟨String.ofList before, String.ofList rest, ?_, rfl⟩
    rw [← String.ofList_append, ← htemplate, String.ofList_toList]
  · rw [← byteLength_toList, htemplate, byteLength_append]
    exact Nat.le_add_right _ _
  · rintro tokens stop rfl
    have hmoves := lt_and_le_of_turn? hturn
    rwa [byteLength_toList] at hmoves

end TextTemplate
