/-!
# Libraries for YAML

What a program asks of a library that reads and writes YAML: the entries of a mapping, what a node
stands for where a value of some type is wanted, and the text of a record.
-/

namespace TextTemplate.Yaml

/-- What the value of a field of a record may be. -/
inductive Datum where
  /-- One of several variants, by its name. -/
  | variant (name : List Char)
  | bool (b : Bool)
  | count (n : UInt64)
  deriving DecidableEq, Repr

/-- A library that reads and writes YAML. -/
structure Library where
  /-- The keys and values of mappings. -/
  Node : Type
  /-- The entries of the mapping that a text holds, in order, whatever their keys; a text without a
  node in it has none.  A text that is malformed or holds anything else is refused. -/
  entries? : List Char → Option (List (Node × Node))
  /-- The name of a field. -/
  key? : Node → Option (List Char)
  /-- The name of a variant. -/
  variant? : Node → Option (List Char)
  bool? : Node → Option Bool
  count? : Node → Option UInt64
  /-- The text of a record, given its fields with their names. -/
  write : List (List Char × Datum) → List Char

end TextTemplate.Yaml
