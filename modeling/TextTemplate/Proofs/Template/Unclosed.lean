import Mathlib.Data.List.Forall2
import TextTemplate.Proofs.Template.FirstError
import TextTemplate.Proofs.Template.Interpolation

/-!
# Templates without a closing brace

A brace that nothing closes stands for the value that all the text behind it but the last character
leads to, and that text is then scanned as if it stood alone.  In a template without a closing brace
the braces that do so are the ones left over when they are paired from the left (`leftOver`), and
it is filled by replacing them (`replaceBraces`), whatever else stands behind them
(`scan_without_closing_brace`).

Both follow the characters of the text, while scanning takes a run of them at once:
`closeless_induction` goes through the text as the scanner does.
-/

namespace TextTemplate

/-! ### Braces left over -/

/-- The texts behind the braces that are left over when they are paired from the left. -/
def leftOver : List Char → List (List Char)
  | '{' :: '{' :: text => leftOver text
  | '{' :: text => text :: leftOver text
  | _ :: text => leftOver text
  | [] => []

/-- The text with a single brace for each pair, from the left, and for each brace left over what is
made of the text behind it. -/
def replaceBraces (value : List Char → List Char) : List Char → List Char
  | '{' :: '{' :: text => '{' :: replaceBraces value text
  | '{' :: text => value text ++ replaceBraces value text
  | c :: text => c :: replaceBraces value text
  | [] => []

section Braces

variable {c : Char} {run text : List Char}

theorem leftOver_cons_of_ne (h : c ≠ '{') (text : List Char) :
    leftOver (c :: text) = leftOver text := by
  rw [leftOver]
  · rintro text rfl
    exact absurd rfl h
  · exact h

theorem leftOver_of_head?_ne (h : text.head? ≠ some '{') :
    leftOver ('{' :: text) = text :: leftOver text := by
  rw [leftOver]
  rintro text rfl
  exact absurd rfl h

theorem leftOver_append (h : '{' ∉ run) (text : List Char) :
    leftOver (run ++ text) = leftOver text := by
  induction run with
  | nil => rfl
  | cons c run ih =>
    rw [List.mem_cons, not_or] at h
    rw [List.cons_append, leftOver_cons_of_ne (Ne.symm h.1), ih h.2]

variable (value : List Char → List Char)

theorem replaceBraces_cons_of_ne (h : c ≠ '{') (text : List Char) :
    replaceBraces value (c :: text) = c :: replaceBraces value text := by
  rw [replaceBraces]
  · rintro text rfl
    exact absurd rfl h
  · exact h

theorem replaceBraces_of_head?_ne (h : text.head? ≠ some '{') :
    replaceBraces value ('{' :: text) = value text ++ replaceBraces value text := by
  rw [replaceBraces]
  rintro text rfl
  exact absurd rfl h

theorem replaceBraces_append (h : '{' ∉ run) (text : List Char) :
    replaceBraces value (run ++ text) = run ++ replaceBraces value text := by
  induction run with
  | nil => rfl
  | cons c run ih =>
    rw [List.mem_cons, not_or] at h
    rw [List.cons_append, replaceBraces_cons_of_ne value (Ne.symm h.1), ih h.2, List.cons_append]

end Braces

/-! ### The pieces of a text without a closing brace -/

/-- What is cut off a text without a closing brace is a run without braces, a pair of braces or a
brace left over. -/
theorem closeless_induction {P : List Char → List Piece → Prop} (nil : P [] [])
    (literal : ∀ {run after ps}, '{' ∉ run → '}' ∉ run → P after ps →
      P (run ++ after) (.literal run :: ps))
    (leftBrace : ∀ {after ps}, P after ps → P ('{' :: '{' :: after) (.leftBrace :: ps))
    (unclosed : ∀ {after ps}, after.head? ≠ some '{' → P after ps →
      P ('{' :: after) (.unclosed after :: ps))
    {text : List Char} {ps : List Piece} (h : Cuts text ps) (hclose : '}' ∉ text) : P text ps := by
  induction h with
  | nil => exact nil
  | @cons p after ps hfits _ ih =>
    rw [List.mem_append, not_or] at hclose
    have hafter := ih hclose.2
    cases p with
    | literal run => exact literal hfits.2.1 hclose.1 hafter
    | leftBrace => exact leftBrace hafter
    | placeholder identifier specifier => exact absurd (by simp [Piece.source]) hclose.1
    | unclosed behind =>
      obtain ⟨rfl, -, hhead⟩ := hfits
      exact unclosed hhead hafter

/-- Paths are read behind the braces left over. -/
theorem Cuts.pathTexts_eq {text : List Char} {ps : List Piece} (h : Cuts text ps)
    (hclose : '}' ∉ text) : ps.flatMap Piece.pathTexts = (leftOver text).map List.dropLast := by
  refine closeless_induction (P := fun text ps =>
    ps.flatMap Piece.pathTexts = (leftOver text).map List.dropLast) rfl ?_ ?_ ?_ h hclose
  · intro run after ps hopen _ ih
    rw [leftOver_append hopen, ← ih]
    rfl
  · intro after ps ih
    rw [leftOver, ← ih]
    rfl
  · intro after ps hhead ih
    rw [leftOver_of_head?_ne hhead, List.map_cons, ← ih]
    rfl

/-! ### The tokens -/

/-- Whether a token is a placeholder. -/
def Token.isPlaceholder : Token → Bool
  | placeholder _ _ => true
  | _ => false

/-- The value that a brace left over stands for in front of a text. -/
def unclosedOutput (args : List Value) (policy : FalsyPolicy) (behind : List Char) : List Char :=
  match Path.parse behind.dropLast with
  | .ok path => render policy none (path.resolve args)
  | .error _ => []

/-- The path of each placeholder is read behind a brace left over. -/
def ReadBehind (behind : List Char) (path : Path) : Prop := Path.parse behind.dropLast = .ok path

/-- The tokens stand for the text: the placeholders for its braces left over, and all of them
together for the text in which these are replaced. -/
structure StandFor (tokens : List Token) (text : List Char) : Prop where
  exists_paths : ∃ paths, List.Forall₂ ReadBehind (leftOver text) paths ∧
    tokens.filter Token.isPlaceholder = paths.map (.placeholder · none)
  fill_eq : ∀ args policy, tokens.flatMap (Token.fill args policy) =
    replaceBraces (unclosedOutput args policy) text

theorem Cuts.standFor {text : List Char} {ps : List Piece} {start : Nat} {tokens : List Token}
    (h : Cuts text ps) (hclose : '}' ∉ text) (htokens : Token.ofPieces start ps = .ok tokens) :
    StandFor tokens text := by
  refine closeless_induction (P := fun text ps => ∀ start tokens,
    Token.ofPieces start ps = .ok tokens → StandFor tokens text) ?_ ?_ ?_ ?_ h hclose _ _ htokens
  · intro start tokens htokens
    cases htokens
    exact ⟨⟨[], .nil, rfl⟩, fun _ _ => rfl⟩
  · intro run after ps hopen hclose ih start tokens htokens
    obtain ⟨token, rest, htoken, hrest, rfl⟩ := Token.ofPieces_cons_eq_ok_iff.mp htokens
    cases htoken
    obtain ⟨hpaths, hfill⟩ := ih _ _ hrest
    refine ⟨?_, fun args policy => ?_⟩
    · rw [leftOver_append hopen]
      exact hpaths
    · rw [replaceBraces_append _ hopen, List.flatMap_cons, hfill, Token.fill, String.toList_ofList,
        collapse_of_notMem hclose]
  · intro after ps ih start tokens htokens
    obtain ⟨token, rest, htoken, hrest, rfl⟩ := Token.ofPieces_cons_eq_ok_iff.mp htokens
    cases htoken
    obtain ⟨hpaths, hfill⟩ := ih _ _ hrest
    refine ⟨?_, fun args policy => ?_⟩
    · rw [leftOver]
      exact hpaths
    · rw [replaceBraces, List.flatMap_cons, hfill]
      rfl
  · -- the text behind the brace is read as a path first and stands for its own tokens then
    intro after ps hhead ih start tokens htokens
    obtain ⟨token, rest, htoken, hrest, rfl⟩ := Token.ofPieces_cons_eq_ok_iff.mp htokens
    obtain ⟨path, hpath, rfl⟩ := Token.ofPiece_unclosed_eq_ok_iff.mp htoken
    obtain ⟨⟨paths, hpaths, hfilter⟩, hfill⟩ := ih _ _ hrest
    refine ⟨⟨path :: paths, ?_, ?_⟩, fun args policy => ?_⟩
    · rw [leftOver_of_head?_ne hhead]
      exact .cons hpath hpaths
    · rw [List.map_cons, ← hfilter]
      rfl
    · rw [replaceBraces_of_head?_ne _ hhead, List.flatMap_cons, hfill, unclosedOutput, hpath]
      rfl

/-! ### One brace at a time -/

theorem pieces_unclosed {behind : List Char} (hclose : '}' ∉ behind)
    (hhead : behind.head? ≠ some '{') :
    pieces ('{' :: behind) = .unclosed behind :: pieces behind := by
  have hfits : (Piece.unclosed behind).Fits behind := ⟨rfl, hclose, hhead⟩
  exact pieces_source_append hfits

/-- A brace that nothing closes is a placeholder in front of the text behind it. -/
theorem scan_unclosed_of_parse {behind : String} {path : Path} (hclose : '}' ∉ behind.toList)
    (hhead : behind.toList.head? ≠ some '{')
    (hpath : Path.parse behind.toList.dropLast = .ok path) :
    scan ("\x7b" ++ behind) =
      (scan behind).map fun tokens => .placeholder path none :: tokens.map (Token.shift 1) := by
  have htoken : Token.ofPiece 0 (.unclosed behind.toList) = .ok (.placeholder path none) :=
    Token.ofPiece_unclosed_eq_ok_iff.mpr ⟨path, hpath, rfl⟩
  have hsource : byteLength (Piece.unclosed behind.toList).source = 1 := rfl
  have hrest := Token.ofPieces_add 1 0 (pieces behind.toList)
  rw [scan, scan, String.toList_append]
  show Token.ofPieces 0 (pieces ('{' :: behind.toList)) = _
  rw [pieces_unclosed hclose hhead, Token.ofPieces, htoken, hsource, Nat.zero_add, hrest]
  cases Token.ofPieces 0 (pieces behind.toList) with
  | error e => rfl
  | ok tokens => rfl

theorem fill_placeholder_cons (path : Path) (tokens : List Token) (args : List Value)
    (policy : FalsyPolicy) :
    fill (.placeholder path none :: tokens.map (Token.shift 1)) args policy =
      String.ofList (render policy none (path.resolve args)) ++ fill tokens args policy := by
  have hfirst : fill [.placeholder path none] args policy =
      String.ofList (render policy none (path.resolve args)) := by
    rw [fill, List.flatMap_singleton]
    rfl
  rw [← hfirst]
  exact fill_append_shift [.placeholder path none] tokens 1 args policy

theorem scan_unclosed_of_parse_eq_error {behind : String} {e : FormatError}
    (hclose : '}' ∉ behind.toList) (hhead : behind.toList.head? ≠ some '{')
    (hpath : Path.parse behind.toList.dropLast = .error e) :
    scan ("\x7b" ++ behind) = .error e := by
  rw [scan_eq_error_iff, String.toList_append]
  show FirstRejected e ((pieces ('{' :: behind.toList)).flatMap Piece.pathTexts)
  rw [pieces_unclosed hclose hhead]
  exact .here hpath

/-- Templates without a closing brace.  A brace in front of such a text, unless the text begins with
a second one, is in error with the text but its last character, or a placeholder without a specifier
in front of what the text is scanned and filled as.  So the braces left over, paired from the left,
are all the placeholders there are, and the template is filled by replacing them with what they
stand for and pairs with a single brace. -/
theorem scan_without_closing_brace :
    (∀ behind : String, behind ≠ "" → '}' ∉ behind.toList → behind.toList.head? ≠ some '{' →
      (∀ e, Path.parse behind.toList.dropLast = .error e →
        scan ("\x7b" ++ behind) = .error e ∧
        ∀ args, format ("\x7b" ++ behind) args = .error e) ∧
      ∀ path, Path.parse behind.toList.dropLast = .ok path →
        (∀ e, scan behind = .error e → scan ("\x7b" ++ behind) = .error e) ∧
        ∀ tokens, scan behind = .ok tokens →
          ∃ all, scan ("\x7b" ++ behind) = .ok all ∧
            all = .placeholder path none :: tokens.map (Token.shift 1) ∧
            ∀ args policy, fill all args policy =
              String.ofList (render policy none (path.resolve args)) ++ fill tokens args policy) ∧
    ∀ template : String, '}' ∉ template.toList →
      (∀ e, scan template = .error e ↔
        FirstRejected e ((leftOver template.toList).map List.dropLast)) ∧
      ∀ tokens, scan template = .ok tokens →
        (∃ paths, List.Forall₂ ReadBehind (leftOver template.toList) paths ∧
          tokens.filter Token.isPlaceholder = paths.map (.placeholder · none)) ∧
        ∀ args policy, fill tokens args policy =
          String.ofList (replaceBraces (unclosedOutput args policy) template.toList) := by
  constructor
  · intro behind _ hclose hhead
    constructor
    · intro e hpath
      have hscan := scan_unclosed_of_parse_eq_error hclose hhead hpath
      refine ⟨hscan, fun args => ?_⟩
      rw [format, hscan]
      rfl
    · intro path hpath
      have hscan := scan_unclosed_of_parse hclose hhead hpath
      refine ⟨fun e herror => ?_, fun tokens htokens => ?_⟩
      · rw [hscan, herror]
        rfl
      · rw [htokens] at hscan
        exact ⟨_, hscan, rfl, fill_placeholder_cons path tokens⟩
  · intro template hclose
    have hcuts := cuts_pieces template.toList
    refine ⟨fun e => ?_, fun tokens hscan => ?_⟩
    · rw [← hcuts.pathTexts_eq hclose]
      exact scan_eq_error_iff
    · obtain ⟨hpaths, hfill⟩ := hcuts.standFor hclose hscan
      exact ⟨hpaths, fun args policy => congrArg String.ofList (hfill args policy)⟩

end TextTemplate
