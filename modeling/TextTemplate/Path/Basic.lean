/-!
# Paths

A path leads into the arguments of a template: a list of keys, each written in brackets or behind
a dot.  `Path.text` writes a path; the first key needs no dot.
-/

namespace TextTemplate

/-- One step of a path.  How the key is written makes no difference to where it leads. -/
inductive Segment where
  /-- Written `[key]`. -/
  | bracket (key : String)
  /-- Written `.key`, or `key` at the start of a path. -/
  | dot (key : String)
  deriving DecidableEq, Repr

/-- A path, its first segment first. -/
structure Path where
  segments : List Segment
  deriving DecidableEq, Repr

namespace Segment

/-- The key of a segment, however it is written. -/
def key : Segment → String
  | bracket key => key
  | dot key => key

/-- The text of a segment that another one precedes. -/
def text : Segment → List Char
  | bracket key => '[' :: (key.toList ++ [']'])
  | dot key => '.' :: key.toList

end Segment

namespace Path

/-- The keys of a path, the first one first. -/
def keys (p : Path) : List String := p.segments.map Segment.key

/-- The text of a path. -/
def text (p : Path) : List Char :=
  match p.segments with
  | .dot key :: rest => key.toList ++ rest.flatMap Segment.text
  | segments => segments.flatMap Segment.text

end Path

end TextTemplate
