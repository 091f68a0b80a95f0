import TextTemplate.Yaml.Node
import TextTemplate.Yaml.Token

/-!
# YAML documents

A text holds one document, between markers of its start and end or without them, or none at all.
Its nodes are read from the tokens of the text.  Where no token stands for a key, a value or an
item, it is the empty node.  Node properties, aliases, directives and block scalars are not read.

The readers take an amount of fuel, of which each nested node and each item takes a few units.
-/

namespace TextTemplate.Yaml

/-! ### Parts that are left out -/

/-- Whether a part of a block collection is left out in front of the tokens. -/
def endsBlockPart : List Token → Bool
  | .key :: _ => true
  | .value :: _ => true
  | .closeBlock :: _ => true
  | _ => false

/-- Whether a part of a flow collection is left out in front of the tokens. -/
def endsFlowPart (close : Token) : List Token → Bool
  | token :: _ => token == .comma || token == close
  | [] => false

/-- The node that an item of a flow sequence is: a pair is a mapping by itself. -/
def itemNode : Node × Option Node → Node
  | (node, none) => node
  | (key, some value) => .mapping [(key, value)]

/-- The entry that an item of a flow mapping is. -/
def itemEntry : Node × Option Node → Node × Node
  | (key, value?) => (key, value?.getD .empty)

/-! ### Flow nodes -/

mutual

/-- The scalar or flow collection at the head of the tokens, and the tokens behind it. -/
def flowNode (fuel : Nat) (tokens : List Token) : Option (Node × List Token) :=
  match fuel with
  | 0 => none
  | fuel + 1 =>
    match tokens with
    | .scalar plain text :: rest => some (.scalar plain text, rest)
    | .openSequence :: rest =>
      (flowItems fuel .closeSequence rest).map fun (items, rest) =>
        (.sequence (items.map itemNode), rest)
    | .openMapping :: rest =>
      (flowItems fuel .closeMapping rest).map fun (items, rest) =>
        (.mapping (items.map itemEntry), rest)
    | _ => none

/-- The items up to the closing bracket, and the tokens behind it. -/
def flowItems (fuel : Nat) (close : Token) (tokens : List Token) :
    Option (List (Node × Option Node) × List Token) :=
  match fuel with
  | 0 => none
  | fuel + 1 =>
    match tokens with
    | [] => none
    | token :: rest =>
      if token = close then some ([], rest)
      else do
        let (item, rest) ← flowItem fuel close (token :: rest)
        match rest with
        | [] => none
        | token :: rest =>
          if token = close then return ([item], rest)
          else if token = .comma then
            let (items, rest) ← flowItems fuel close rest
            return (item :: items, rest)
          else none

/-- The item at the head of the tokens, with a value if it is a pair, and the tokens behind it. -/
def flowItem (fuel : Nat) (close : Token) (tokens : List Token) :
    Option ((Node × Option Node) × List Token) :=
  match fuel with
  | 0 => none
  | fuel + 1 =>
    match tokens with
    | .key :: rest => do
      let (key, rest) ← flowKey fuel close rest
      let (value, rest) ← flowValue fuel close rest
      return ((key, some value), rest)
    | tokens => (flowNode fuel tokens).map fun (node, rest) => ((node, none), rest)

/-- The key of a pair, empty if nothing stands in front of the colon or the end of the item.  In a
sequence an empty key takes up the token in its place. -/
def flowKey (fuel : Nat) (close : Token) (tokens : List Token) : Option (Node × List Token) :=
  match fuel with
  | 0 => none
  | fuel + 1 =>
    if endsFlowPart close tokens || tokens.head? == some .value then
      some (.empty, if close = .closeSequence then tokens.drop 1 else tokens)
    else flowNode fuel tokens

/-- The value of a pair, empty if there is no colon or nothing behind it. -/
def flowValue (fuel : Nat) (close : Token) (tokens : List Token) : Option (Node × List Token) :=
  match fuel with
  | 0 => none
  | fuel + 1 =>
    match tokens with
    | .value :: rest =>
      if endsFlowPart close rest then some (.empty, rest) else flowNode fuel rest
    | tokens => some (.empty, tokens)

end

/-! ### Block nodes -/

mutual

/-- The node at the head of the tokens, and the tokens behind it. -/
def blockNode (fuel : Nat) (tokens : List Token) : Option (Node × List Token) :=
  match fuel with
  | 0 => none
  | fuel + 1 =>
    match tokens with
    | .openBlockSequence :: rest => do
      let (items, rest) ← blockItems fuel rest
      match rest with
      | .closeBlock :: rest => return (.sequence items, rest)
      | _ => none
    | .openBlockMapping :: rest =>
      (blockEntries fuel rest).map fun (entries, rest) => (.mapping entries, rest)
    | tokens => flowNode fuel tokens

/-- The items at the head of the tokens, as many as there are, and the tokens behind them. -/
def blockItems (fuel : Nat) (tokens : List Token) : Option (List Node × List Token) :=
  match fuel with
  | 0 => none
  | fuel + 1 =>
    match tokens with
    | .item :: rest => do
      let (item, rest) ← blockItem fuel rest
      let (items, rest) ← blockItems fuel rest
      return (item :: items, rest)
    | tokens => some ([], tokens)

/-- The item behind a dash, and the tokens behind it. -/
def blockItem (fuel : Nat) (tokens : List Token) : Option (Node × List Token) :=
  match fuel with
  | 0 => none
  | fuel + 1 =>
    if endsBlockPart tokens || tokens.head? == some .item then some (.empty, tokens)
    else blockNode fuel tokens

/-- The entries up to the end of a mapping, and the tokens behind it. -/
def blockEntries (fuel : Nat) (tokens : List Token) :
    Option (List (Node × Node) × List Token) :=
  match fuel with
  | 0 => none
  | fuel + 1 =>
    match tokens with
    | .closeBlock :: rest => some ([], rest)
    | .key :: rest => do
      let (key, rest) ← blockPart fuel rest
      let (value, rest) ← blockValue fuel rest
      let (entries, rest) ← blockEntries fuel rest
      return ((key, value) :: entries, rest)
    | _ => none

/-- The value of an entry, empty if there is no colon or nothing behind it. -/
def blockValue (fuel : Nat) (tokens : List Token) : Option (Node × List Token) :=
  match fuel with
  | 0 => none
  | fuel + 1 =>
    match tokens with
    | .value :: rest => blockPart fuel rest
    | tokens => some (.empty, tokens)

/-- The key or value at the head of the tokens, and the tokens behind it.  A sequence whose items
stand at the column of the mapping has no brackets. -/
def blockPart (fuel : Nat) (tokens : List Token) : Option (Node × List Token) :=
  match fuel with
  | 0 => none
  | fuel + 1 =>
    if endsBlockPart tokens then some (.empty, tokens)
    else if tokens.head? = some .item then
      (blockItems fuel tokens).map fun (items, rest) => (.sequence items, rest)
    else blockNode fuel tokens

end

/-! ### Documents -/

/-- The root of a document, empty if nothing stands behind the marker of its start, and the tokens
behind it. -/
def rootNode (fuel : Nat) : List Token → Option (Node × List Token)
  | .documentStart :: rest =>
    if rest.all (· == .documentEnd) then some (.empty, rest) else blockNode fuel rest
  | tokens => blockNode fuel tokens

/-- The root of the document that the tokens are; nothing but markers of its end may follow it. -/
def root? (tokens : List Token) : Option Node := do
  let (root, rest) ← rootNode (4 * (tokens.length + 1)) tokens
  if rest.all (· == .documentEnd) then some root else none

/-- The document that the tokens are, absent if there are none. -/
def document? (tokens : List Token) : Option (Option Node) :=
  if tokens.isEmpty then some none else (root? tokens).map some

/-- The document that a text holds, absent if there is none; the outer `none` means that the text
is malformed. -/
def read (text : List Char) : Option (Option Node) :=
  if text.all isPrintable then (tokens? (unifyBreaks text)).bind document? else none

end TextTemplate.Yaml
