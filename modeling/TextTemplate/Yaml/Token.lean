import TextTemplate.Yaml.Scalar

/-!
# The tokens of a YAML text

A text is read as a list of tokens in which the block collections have their brackets too: one
opens where an entry stands further to the right than the collection around it, and closes where
a token stands further to the left than its entries.

A key is known only by the colon behind it.  So the tokenizer notes where a key may have begun, one
candidate for each open flow collection and one for the block around them all, and puts the token
of the key in when the colon comes.  A candidate is given up at the end of its line or 1024 bytes
behind its start; one at the column of the collection around it must not be, for nothing but a key
can stand there.
-/

namespace TextTemplate.Yaml

/-- A token. -/
inductive Token where
  | documentStart
  | documentEnd
  | openBlockSequence
  | openBlockMapping
  | closeBlock
  | openSequence
  | openMapping
  | closeSequence
  | closeMapping
  | comma
  /-- The dash of an item. -/
  | item
  /-- A key follows. -/
  | key
  /-- The colon in front of a value. -/
  | value
  | scalar (plain : Bool) (text : List Char)
  deriving DecidableEq, Repr

/-- A place where a key may have begun. -/
structure KeyCandidate where
  /-- The number of tokens in front of it. -/
  index : Nat
  pos : Position
  /-- Whether it must be a key. -/
  required : Bool

/-- A tokenizer in the middle of its text. -/
structure Tokenizer where
  cursor : Cursor
  /-- The columns of the open block collections, the innermost first. -/
  columns : List Nat := []
  /-- The candidate inside the innermost open flow collection. -/
  candidate : Option KeyCandidate := none
  /-- The candidates outside it, the innermost first: one for each open flow collection. -/
  outer : List (Option KeyCandidate) := []
  /-- The tokens read, the latest first. -/
  tokens : List Token := []

namespace KeyCandidate

/-- Whether the candidate can be a key of which the value begins at `pos`. -/
def reaches (k : KeyCandidate) (pos : Position) : Bool :=
  k.pos.line == pos.line && pos.byte ≤ k.pos.byte + 1024

/-- What is left of a candidate when the tokenizer has come to `pos`. -/
def keep? (pos : Position) : Option KeyCandidate → Option (Option KeyCandidate)
  | none => some none
  | some k => if k.reaches pos then some (some k) else if k.required then none else some none

end KeyCandidate

/-- The tokens, the latest first, with one more that has `index` tokens in front of it. -/
def insertToken (index : Nat) (token : Token) (tokens : List Token) : List Token :=
  tokens.take (tokens.length - index) ++ token :: tokens.drop (tokens.length - index)

namespace Tokenizer

/-- Whether a flow collection is open. -/
def inFlow (t : Tokenizer) : Bool := !t.outer.isEmpty

/-- The least column at which the open block collections let an inner one begin. -/
def indent (t : Tokenizer) : Nat :=
  match t.columns with
  | [] => 0
  | column :: _ => column + 1

/-- The tokenizer behind an indicator, which is read as `token`. -/
def emit (t : Tokenizer) (count : Nat) (fresh : Bool) (token : Token) : Tokenizer :=
  { t with cursor := t.cursor.skip count fresh, tokens := token :: t.tokens }

/-! ### Block collections -/

/-- Opens a block collection at a column, in front of all but the first `index` tokens, if the
column is far enough to the right. -/
def openBlock (t : Tokenizer) (column index : Nat) (token : Token) : Tokenizer :=
  if !t.inFlow && t.indent ≤ column then
    { t with columns := column :: t.columns, tokens := insertToken index token t.tokens }
  else t

/-- Closes the block collections whose columns fail the test, from the innermost one on. -/
def closeBlocks (t : Tokenizer) (stays : Nat → Bool) : Tokenizer :=
  if t.inFlow then t
  else
    { t with
      columns := t.columns.dropWhile (!stays ·)
      tokens := (t.columns.takeWhile (!stays ·)).map (fun _ => .closeBlock) ++ t.tokens }

/-! ### Keys -/

/-- Gives the candidate up, which must not be a required one. -/
def dropKey (t : Tokenizer) : Option Tokenizer :=
  if t.candidate.any KeyCandidate.required then none else some { t with candidate := none }

/-- Notes that a key may begin at the next token, if one may begin here at all. -/
def noteKey (t : Tokenizer) : Option Tokenizer :=
  if t.cursor.fresh then do
    let t ← t.dropKey
    let required := !t.inFlow && t.columns.head? == some t.cursor.pos.column
    return { t with candidate := some ⟨t.tokens.length, t.cursor.pos, required⟩ }
  else some t

/-! ### Reading a token -/

/-- The tokenizer at its next token, with the candidates that reach it and the block collections
that hold it. -/
def settle (t : Tokenizer) : Option Tokenizer := do
  let cursor := t.cursor.skipGap t.inFlow
  let candidate ← KeyCandidate.keep? cursor.pos t.candidate
  let outer ← t.outer.mapM (KeyCandidate.keep? cursor.pos)
  let settled : Tokenizer := { t with cursor, candidate, outer }
  return settled.closeBlocks (· ≤ cursor.pos.column)

/-- Reads a marker of the start or the end of a document, which closes all block collections. -/
def readMarker (t : Tokenizer) (token : Token) : Option Tokenizer := do
  let t ← (t.closeBlocks fun _ => false).dropKey
  return t.emit 3 false token

/-- Reads an opening bracket. -/
def readOpen (t : Tokenizer) (token : Token) : Option Tokenizer := do
  let t ← t.noteKey
  let t := t.emit 1 true token
  return { t with candidate := none, outer := t.candidate :: t.outer }

/-- Reads a closing bracket. -/
def readClose (t : Tokenizer) (token : Token) : Option Tokenizer := do
  let t ← t.dropKey
  let t := t.emit 1 false token
  match t.outer with
  | [] => return t
  | candidate :: outer => return { t with candidate, outer }

/-- Reads a comma. -/
def readComma (t : Tokenizer) : Option Tokenizer := do
  let t ← t.dropKey
  return t.emit 1 true .comma

/-- Reads the dash of an item, which only a block sequence has. -/
def readItem (t : Tokenizer) : Option Tokenizer :=
  if t.inFlow || !t.cursor.fresh then none
  else do
    let t ← (t.openBlock t.cursor.pos.column t.tokens.length .openBlockSequence).dropKey
    return t.emit 1 true .item

/-- Reads the question mark in front of a key. -/
def readKey (t : Tokenizer) : Option Tokenizer :=
  if !t.inFlow && !t.cursor.fresh then none
  else do
    let t ← (t.openBlock t.cursor.pos.column t.tokens.length .openBlockMapping).dropKey
    return t.emit 1 (!t.inFlow) .key

/-- Reads the colon in front of a value, which makes a key of the candidate if there is one. -/
def readValue (t : Tokenizer) : Option Tokenizer :=
  match t.candidate with
  | some k =>
    let keyed := { t with candidate := none, tokens := insertToken k.index .key t.tokens }
    some ((keyed.openBlock k.pos.column k.index .openBlockMapping).emit 1 false .value)
  | none =>
    if !t.inFlow && !t.cursor.fresh then none
    else
      let opened := t.openBlock t.cursor.pos.column t.tokens.length .openBlockMapping
      some (opened.emit 1 (!t.inFlow) .value)

/-- Reads a scalar in quotes. -/
def readQuoted (t : Tokenizer) (quote : Char) : Option Tokenizer := do
  let t ← t.noteKey
  let (text, cursor) ← quoted? quote (t.cursor.skip 1 false)
  return { t with cursor, tokens := .scalar false text :: t.tokens }

/-- Reads a plain scalar. -/
def readPlain (t : Tokenizer) : Option Tokenizer := do
  let t ← t.noteKey
  let (text, cursor) ← plain? t.inFlow t.indent .none t.cursor.pos t.cursor.rest
  return { t with cursor, tokens := .scalar true text :: t.tokens }

/-- Reads the token at the cursor, where `c :: text` goes on. -/
def read (t : Tokenizer) (c : Char) (text : List Char) : Option Tokenizer :=
  if t.cursor.atMarker then t.readMarker (if c = '-' then .documentStart else .documentEnd)
  else if c = '[' then t.readOpen .openSequence
  else if c = '{' then t.readOpen .openMapping
  else if c = ']' then t.readClose .closeSequence
  else if c = '}' then t.readClose .closeMapping
  else if c = ',' then t.readComma
  else if c = '-' ∧ endsWord text then t.readItem
  else if c = '?' ∧ (t.inFlow ∨ endsWord text) then t.readKey
  else if c = ':' ∧ (t.inFlow ∨ endsWord text) then t.readValue
  else if c = '"' ∨ c = '\'' then t.readQuoted c
  else if startsPlain t.inFlow (c :: text) then t.readPlain
  else none

/-- All tokens up to the end of the text, each of which takes one unit of fuel. -/
def run (fuel : Nat) (t : Tokenizer) : Option (List Token) :=
  match fuel with
  | 0 => none
  | fuel + 1 => do
    let t ← t.settle
    match t.cursor.rest with
    | [] =>
      let t ← (t.closeBlocks fun _ => false).dropKey
      return t.tokens.reverse
    | c :: text => run fuel (← t.read c text)

end Tokenizer

/-- The tokens of a text. -/
def tokens? (text : List Char) : Option (List Token) :=
  Tokenizer.run (text.length + 1) { cursor := ⟨text, {}, true⟩ }

end TextTemplate.Yaml
