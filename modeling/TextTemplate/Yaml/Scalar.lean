import TextTemplate.Numeral
import TextTemplate.Yaml.Cursor

/-!
# YAML scalars

A scalar is written plain, in single quotes or in double quotes, over one line or several.  White
space inside it is folded (`Fold`): blanks around a line break vanish, a single break becomes a
space, and of several breaks all but the first stay.
-/

namespace TextTemplate.Yaml

/-! ### Folding -/

/-- The white space between two words of a scalar.  Once a line break has come, blanks do not
count; `first` is absent when that break was escaped. -/
inductive Fold where
  | blanks (text : List Char)
  | breaks (first : Option Char) (others : List Char)
  deriving DecidableEq

namespace Fold

/-- No white space. -/
def none : Fold := blanks []

/-- Whether a line break has come. -/
def isBroken : Fold → Bool
  | blanks _ => false
  | breaks _ _ => true

/-- The white space with one more blank or line break. -/
def push (c : Char) : Fold → Fold
  | blanks text => if isBreak c then breaks (some c) [] else blanks (text ++ [c])
  | breaks first others => if isBreak c then breaks first (others ++ [c]) else breaks first others

/-- What is left of the white space. -/
def text : Fold → List Char
  | blanks text => text
  | breaks Option.none others => others
  | breaks (some '\n') [] => [' ']
  | breaks (some '\n') others => others
  | breaks (some c) others => c :: others

end Fold

/-! ### Quoted scalars -/

/-- Whether two characters of a quoted scalar go together: an escape in double quotes, a doubled
quote in single ones. -/
def isPair (quote c d : Char) : Bool :=
  if quote == '"' then c == '\\' else c == '\'' && d == '\''

/-- What stands in front of the closing quote, and the cursor behind it.  No document marker may
come before. -/
def quotedBody (quote : Char) (pos : Position) : List Char → Option (List Char × Cursor)
  | [] => none
  | [c] => if c = quote then some ([], ⟨[], pos.after c, false⟩) else none
  | c :: d :: text =>
    if pos.column = 0 ∧ isMarker (c :: d :: text) then none
    else if isPair quote c d then
      (quotedBody quote ((pos.after c).after d) text).map fun (body, cursor) =>
        (c :: d :: body, cursor)
    else if c = quote then some ([], ⟨d :: text, pos.after c, false⟩)
    else
      (quotedBody quote (pos.after c) (d :: text)).map fun (body, cursor) => (c :: body, cursor)

/-- The text of a scalar in single quotes, of which `fold` is the white space just read. -/
def unquoteSingle (fold : Fold) : List Char → List Char
  | [] => fold.text
  | '\'' :: '\'' :: body => fold.text ++ '\'' :: unquoteSingle .none body
  | c :: body =>
    if isBlank c || isBreak c then unquoteSingle (fold.push c) body
    else fold.text ++ c :: unquoteSingle .none body

/-- The number of hexadecimal digits an escape takes. -/
def escapeWidth : Char → Nat
  | 'x' => 2
  | 'u' => 4
  | 'U' => 8
  | _ => 0

/-- The character an escape without digits stands for. -/
def shortEscape? : Char → Option Char
  | '0' => some '\x00'
  | 'a' => some '\x07'
  | 'b' => some '\x08'
  | 't' | '\t' => some '\t'
  | 'n' => some '\n'
  | 'v' => some '\x0b'
  | 'f' => some '\x0c'
  | 'r' => some '\r'
  | 'e' => some '\x1b'
  | ' ' => some ' '
  | '"' => some '"'
  | '/' => some '/'
  | '\\' => some '\\'
  | 'N' => some '\u0085'
  | '_' => some '\u00a0'
  | 'L' => some '\u2028'
  | 'P' => some '\u2029'
  | _ => none

/-- The character with a number, if there is one. -/
def charOf? (n : Nat) : Option Char := if n.isValidChar then some (Char.ofNat n) else none

/-- The character that an escape with the given digits stands for. -/
def escape? (c : Char) (digits : List Char) : Option Char :=
  if escapeWidth c = 0 then shortEscape? c
  else if digits.length = escapeWidth c then (Numeral.ofDigits? 16 digits).bind charOf?
  else none

/-- The text of a scalar in double quotes, of which `fold` is the white space just read.  An
escaped line break is left out, and so are the blanks of the next line. -/
def unquoteDouble? (fold : Fold) (body : List Char) : Option (List Char) :=
  match body with
  | [] => some fold.text
  | '\\' :: c :: body =>
    if isBreak c then (unquoteDouble? (.breaks none []) body).map (fold.text ++ ·)
    else do
      let e ← escape? c (body.take (escapeWidth c))
      let text ← unquoteDouble? .none (body.drop (escapeWidth c))
      return fold.text ++ e :: text
  | c :: body =>
    if isBlank c || isBreak c then unquoteDouble? (fold.push c) body
    else (unquoteDouble? .none body).map (fold.text ++ c :: ·)
termination_by body.length

/-- The scalar behind an opening quote, and the cursor behind the closing one. -/
def quoted? (quote : Char) (c : Cursor) : Option (List Char × Cursor) := do
  let (body, after) ← quotedBody quote c.pos c.rest
  let text ← if quote = '"' then unquoteDouble? .none body else some (unquoteSingle .none body)
  return (text, after)

/-! ### Plain scalars -/

/-- The characters that part the items of a flow collection. -/
def isFlowIndicator (c : Char) : Bool :=
  c == ',' || c == '[' || c == ']' || c == '{' || c == '}'

/-- The characters that never begin a plain scalar. -/
def isReserved (c : Char) : Bool :=
  isFlowIndicator c ||
    ['#', '&', '*', '!', '|', '>', '\'', '"', '%', '@', '\x60'].contains c

/-- Whether a plain scalar begins here.  The indicators of entries begin one if a word goes on
behind them, those of keys and values in block context only. -/
def startsPlain (inFlow : Bool) : List Char → Bool
  | [] => false
  | c :: text =>
    if isBlank c || isBreak c || isReserved c then false
    else if c == '-' then !endsWord text
    else if c == '?' || c == ':' then !inFlow && !endsWord text
    else true

/-- Whether a plain scalar ends in front of `c :: text`, `fold` being the white space just read:
at a comment, at the indicator of a value, in front of an indicator of the flow collection around
it, or where a new line is a document marker or stands too far to the left. -/
def endsPlain (inFlow : Bool) (indent : Nat) (fold : Fold) (pos : Position) (c : Char)
    (text : List Char) : Bool :=
  (c == '#' && fold != .none) || (c == ':' && endsWord text) || (inFlow && isFlowIndicator c) ||
    (fold.isBroken &&
      ((!inFlow && pos.column < indent) || (pos.column == 0 && isMarker (c :: text))))

/-- Whether a colon in a flow collection runs into an indicator. -/
def isStrayColon (c : Char) : List Char → Bool
  | d :: _ => c == ':' && (isFlowIndicator d || d == '?')
  | [] => false

/-- The rest of a plain scalar, of which `fold` is the white space just read, and the cursor
behind that white space.  Lines that go on must reach the indentation, and a tab cannot help them
to. -/
def plain? (inFlow : Bool) (indent : Nat) (fold : Fold) (pos : Position) :
    List Char → Option (List Char × Cursor)
  | [] => some ([], ⟨[], pos, fold.isBroken⟩)
  | c :: text =>
    if isBlank c || isBreak c then
      if c = '\t' ∧ fold.isBroken ∧ pos.column < indent then none
      else plain? inFlow indent (fold.push c) (pos.after c) text
    else if endsPlain inFlow indent fold pos c text then
      some ([], ⟨c :: text, pos, fold.isBroken⟩)
    else if inFlow && isStrayColon c text then none
    else
      (plain? inFlow indent .none (pos.after c) text).map fun (word, after) =>
        (fold.text ++ c :: word, after)

end TextTemplate.Yaml
