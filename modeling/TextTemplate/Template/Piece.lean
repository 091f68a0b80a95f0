/-!
# The pieces of a template

A template is cut into pieces without loss or overlap (`flatMap_source_pieces`): runs of literal
text, doubled braces, and placeholders.  A placeholder runs from a brace to the first closing brace
behind it, or to the second where the specifier is itself written in braces.  An opening brace that
nothing closes is a piece by itself: it stands for a placeholder named by all the rest but its last
character, and the rest is cut again.
-/

namespace TextTemplate

/-- The text of a placeholder behind its identifier. -/
inductive SpecifierText where
  | absent
  /-- Written `:text`. -/
  | inline (text : List Char)
  /-- Written `:{path}`. -/
  | nested (path : List Char)
  deriving DecidableEq, Repr

/-- A piece of a template. -/
inductive Piece where
  /-- Text without an opening brace. -/
  | literal (text : List Char)
  /-- A doubled opening brace. -/
  | leftBrace
  | placeholder (identifier : List Char) (specifier : SpecifierText)
  /-- An opening brace with no closing one in the text behind it. -/
  | unclosed (behind : List Char)
  deriving DecidableEq, Repr

namespace SpecifierText

/-- The characters a specifier takes. -/
def source : SpecifierText → List Char
  | absent => []
  | inline text => ':' :: text
  | nested path => ':' :: '{' :: (path ++ ['}'])

end SpecifierText

namespace Piece

/-- The characters a piece takes. -/
def source : Piece → List Char
  | literal text => text
  | leftBrace => ['{', '{']
  | placeholder identifier specifier => '{' :: (identifier ++ specifier.source ++ ['}'])
  | unclosed _ => ['{']

/-- The placeholder with the given text up to its first closing brace, and what follows it in
`rest`, the text behind that brace. -/
def ofBody (body rest : List Char) : Piece × List Char :=
  let identifier := body.takeWhile (· != ':')
  match body.dropWhile (· != ':') with
  | [] => (placeholder identifier .absent, rest)
  | _ :: specifier =>
    match specifier, rest with
    | '{' :: path, '}' :: rest => (placeholder identifier (.nested path), rest)
    | specifier, rest => (placeholder identifier (.inline specifier), rest)

/-- The piece that a single opening brace begins, and what follows it. -/
def behindBrace (text : List Char) : Piece × List Char :=
  match text.dropWhile (· != '}') with
  | [] => (unclosed text, text)
  | _ :: rest => ofBody (text.takeWhile (· != '}')) rest

/-- The piece at the head of a text that is not empty, and what follows it. -/
def next (c : Char) (text : List Char) : Piece × List Char :=
  if c = '{' then
    match text with
    | '{' :: rest => (leftBrace, rest)
    | text => behindBrace text
  else (literal (c :: text.takeWhile (· != '{')), text.dropWhile (· != '{'))

/-! ### Nothing is lost -/

/-- A text is cut in two at the first character `d` in it. -/
theorem takeWhile_append_cons {d c : Char} {text rest : List Char}
    (h : text.dropWhile (· != d) = c :: rest) : text.takeWhile (· != d) ++ d :: rest = text := by
  have hc : c = d := by
    have := List.head?_dropWhile_not (· != d) text
    simpa [h] using this
  rw [← hc, ← h, hc, List.takeWhile_append_dropWhile]

theorem source_ofBody (body rest : List Char) :
    (ofBody body rest).1.source ++ (ofBody body rest).2 = '{' :: (body ++ '}' :: rest) := by
  unfold ofBody
  split
  · next h =>
    have hbody : body.takeWhile (· != ':') = body := by
      simpa [h] using List.takeWhile_append_dropWhile (p := (· != ':')) (l := body)
    simp [source, SpecifierText.source, hbody]
  · next c specifier h =>
    have hbody := takeWhile_append_cons h
    generalize body.takeWhile (· != ':') = identifier at hbody
    split <;> simp [source, SpecifierText.source, ← hbody]

theorem source_behindBrace (text : List Char) :
    (behindBrace text).1.source ++ (behindBrace text).2 = '{' :: text := by
  unfold behindBrace
  split
  · rfl
  · next c rest h => rw [source_ofBody, takeWhile_append_cons h]

/-- A piece and what follows it make up the text. -/
theorem source_next (c : Char) (text : List Char) :
    (next c text).1.source ++ (next c text).2 = c :: text := by
  unfold next
  split
  · next hc =>
    subst hc
    split
    · rfl
    · exact source_behindBrace _
  · simp [source]

theorem source_ne_nil_of_next (c : Char) (text : List Char) : (next c text).1.source ≠ [] := by
  unfold next
  split
  · split
    · simp [source]
    · unfold behindBrace
      split
      · simp [source]
      · unfold ofBody
        split
        · simp [source]
        · split <;> simp [source]
  · simp [source]

theorem length_next_le (c : Char) (text : List Char) : (next c text).2.length ≤ text.length := by
  have h := congrArg List.length (source_next c text)
  have := List.length_pos_iff.mpr (source_ne_nil_of_next c text)
  rw [List.length_append, List.length_cons] at h
  omega

end Piece

/-- The pieces of a template, from left to right. -/
def pieces : List Char → List Piece
  | [] => []
  | c :: text => (Piece.next c text).1 :: pieces (Piece.next c text).2
termination_by text => text.length
decreasing_by exact Nat.lt_succ_of_le (Piece.length_next_le c text)

/-- The pieces of a template make it up. -/
theorem flatMap_source_pieces (text : List Char) : (pieces text).flatMap Piece.source = text := by
  fun_induction pieces text with
  | case1 => rfl
  | case2 c text ih => rw [List.flatMap_cons, ih, Piece.source_next]

end TextTemplate
