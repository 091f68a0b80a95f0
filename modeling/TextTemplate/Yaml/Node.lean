/-!
# YAML nodes

What a YAML document holds: scalars, with a mark on those that are written plain, sequences and
mappings.  The entries of a mapping are kept in order, whatever their keys.
-/

namespace TextTemplate.Yaml

/-- A node. -/
inductive Node where
  /-- A scalar; only a plain one can be anything but a string. -/
  | scalar (plain : Bool) (text : List Char)
  | sequence (items : List Node)
  | mapping (entries : List (Node × Node))
  deriving Inhabited

/-- The node that stands where none is written. -/
def Node.empty : Node := .scalar true []

end TextTemplate.Yaml
