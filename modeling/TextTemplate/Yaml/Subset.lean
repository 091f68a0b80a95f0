import TextTemplate.Value.Text
import TextTemplate.Yaml.Document
import TextTemplate.Yaml.Library

/-!
# A library for a part of YAML

`subset` reads documents without node properties, aliases, directives and block scalars, and writes
a record as a block mapping of plain scalars.
-/

namespace TextTemplate.Yaml

/-! ### Reading -/

namespace Node

/-- The text of a scalar, plain or quoted. -/
def text? : Node → Option (List Char)
  | scalar _ text => some text
  | _ => none

/-- The spellings of a truth value: in lower case, with a capital, or in capitals. -/
def boolSpellings (b : Bool) : List (List Char) :=
  let text := Value.boolText b
  [text, (text.take 1).map Char.toUpper ++ text.drop 1, text.map Char.toUpper]

/-- The truth value that a plain text spells. -/
def bool? : Node → Option Bool
  | scalar true text => [true, false].find? fun b => (boolSpellings b).contains text
  | _ => none

/-- The number that a text without sign denotes: digits behind the mark of their radix, or a
decimal numeral without leading zeros. -/
def magnitude? : List Char → Option Nat
  | '0' :: 'x' :: digits => Numeral.ofDigits? 16 digits
  | '0' :: 'o' :: digits => Numeral.ofDigits? 8 digits
  | '0' :: 'b' :: digits => Numeral.ofDigits? 2 digits
  | digits => Numeral.index? digits

/-- The number that a plain text denotes, with or without a plus sign, if it has 64 bits. -/
def count? : Node → Option UInt64
  | scalar true text =>
    let n? := match text with
      | '+' :: text => magnitude? text
      | text => magnitude? text
    (n?.filter (· < UInt64.size)).map UInt64.ofNat
  | _ => none

end Node

/-- The entries of a document, which has none if there is no node in it, or an empty one. -/
def documentEntries? : Option Node → Option (List (Node × Node))
  | none => some []
  | some (.scalar true []) => some []
  | some (.mapping entries) => some entries
  | _ => none

/-! ### Writing -/

/-- A value as a plain scalar. -/
def Datum.text : Datum → List Char
  | variant name => name
  | bool b => Value.boolText b
  | count n => Nat.toDigits 10 n.toNat

/-- A field as a line of a block mapping. -/
def fieldLine (field : List Char × Datum) : List Char :=
  field.1 ++ ':' :: ' ' :: (field.2.text ++ ['\n'])

/-- The library that reads and writes a part of YAML. -/
def subset : Library where
  Node := Node
  entries? text := (read text).bind documentEntries?
  key? := Node.text?
  variant? := Node.text?
  bool? := Node.bool?
  count? := Node.count?
  write fields := fields.flatMap fieldLine

end TextTemplate.Yaml
