/-!
# A place in a YAML text

The structure of a YAML text hangs on lines and columns, so a reader moves a `Cursor`, which knows
both.  Here are the classes of characters that readers ask for, the line breaks, the document
markers, and the gaps of blanks, comments and line breaks between tokens (`Cursor.skipGap`).
-/

namespace TextTemplate.Yaml

/-! ### Characters -/

/-- Blanks part words on a line. -/
def isBlank (c : Char) : Bool := c == ' ' || c == '\t'

/-- Line breaks, once they are unified. -/
def isBreak (c : Char) : Bool := c == '\n' || c == '\u2028' || c == '\u2029'

/-- Whether a word ends in front of the text. -/
def endsWord : List Char → Bool
  | [] => true
  | c :: _ => isBlank c || isBreak c

/-- The characters a text may hold. -/
def isPrintable (c : Char) : Bool :=
  let n := c.toNat
  n == 0x09 || n == 0x0A || n == 0x0D || (0x20 ≤ n && n ≤ 0x7E) || n == 0x85 ||
    (0xA0 ≤ n && n ≤ 0xFFFD) || 0x10000 ≤ n

/-- The text with a line feed for each carriage return, with or without a line feed behind it, and
for each next-line character. -/
def unifyBreaks : List Char → List Char
  | '\r' :: '\n' :: text => '\n' :: unifyBreaks text
  | '\r' :: text => '\n' :: unifyBreaks text
  | '\u0085' :: text => '\n' :: unifyBreaks text
  | c :: text => c :: unifyBreaks text
  | [] => []

/-- Whether a marker of the start or the end of a document stands at the head of a line. -/
def isMarker : List Char → Bool
  | '-' :: '-' :: '-' :: text => endsWord text
  | '.' :: '.' :: '.' :: text => endsWord text
  | _ => false

/-! ### Places -/

/-- A place by line and column, and by the bytes of UTF-8 in front of it, all counted from zero. -/
structure Position where
  line : Nat := 0
  column : Nat := 0
  byte : Nat := 0
  deriving DecidableEq, Repr

/-- The place behind a character. -/
def Position.after (p : Position) (c : Char) : Position :=
  if isBreak c then ⟨p.line + 1, 0, p.byte + c.utf8Size⟩
  else ⟨p.line, p.column + 1, p.byte + c.utf8Size⟩

/-- A place in a text with the text behind it. -/
structure Cursor where
  rest : List Char
  pos : Position
  /-- Whether a block collection may begin here: so it may on a new line, and behind an indicator
  of a block entry. -/
  fresh : Bool

namespace Cursor

/-- The cursor behind an indicator of `count` characters, which have one byte each. -/
def skip (c : Cursor) (count : Nat) (fresh : Bool) : Cursor :=
  ⟨c.rest.drop count, ⟨c.pos.line, c.pos.column + count, c.pos.byte + count⟩, fresh⟩

/-- Whether a document marker stands here. -/
def atMarker (c : Cursor) : Bool := c.pos.column == 0 && isMarker c.rest

/-! ### Gaps -/

/-- The cursor behind blanks, comments and line breaks; `comment` tells that a comment has begun.
A tab is no blank where a block collection may begin, since it has no width; a byte order mark is
one at the start of a line. -/
def gapFrom (inFlow fresh comment : Bool) (pos : Position) : List Char → Cursor
  | [] => ⟨[], pos, fresh⟩
  | c :: text =>
    if isBreak c then gapFrom inFlow (fresh || !inFlow) false (pos.after c) text
    else if comment || c == ' ' || (c == '\t' && (inFlow || !fresh)) ||
        (c == '\ufeff' && pos.column == 0) then
      gapFrom inFlow fresh comment (pos.after c) text
    else if c == '#' then gapFrom inFlow fresh true (pos.after c) text
    else ⟨c :: text, pos, fresh⟩

/-- The cursor at the next token. -/
def skipGap (c : Cursor) (inFlow : Bool) : Cursor := gapFrom inFlow c.fresh false c.pos c.rest

end Cursor

end TextTemplate.Yaml
