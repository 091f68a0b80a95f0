import TextTemplate.Error
import TextTemplate.Path.Basic

/-!
# Reading a path

A path is one segment after the other up to the end of its text.  Keys are not empty and hold no
delimiter; where no segment begins, the rest of the text is the error (`Path.parse`).
-/

namespace TextTemplate

/-- The characters that part keys. -/
def isDelimiter (c : Char) : Bool := c == '.' || c == '[' || c == ']'

/-- The longest key at the head of a text. -/
def leadingKey (text : List Char) : List Char := text.takeWhile (!isDelimiter ·)

/-- What follows the longest key at the head of a text. -/
def afterKey (text : List Char) : List Char := text.dropWhile (!isDelimiter ·)

namespace Segment

/-- The segment `key` at the head of a text, and what follows it. -/
def nextDot? (text : List Char) : Option (Segment × List Char) :=
  if leadingKey text = [] then none
  else some (.dot (String.ofList (leadingKey text)), afterKey text)

/-- The segment `key]` at the head of a text, and what follows it. -/
def nextBracket? (text : List Char) : Option (Segment × List Char) :=
  if leadingKey text = [] then none
  else
    match afterKey text with
    | ']' :: rest => some (.bracket (String.ofList (leadingKey text)), rest)
    | _ => none

/-- The segment at the head of a text, and what follows it. -/
def next? : List Char → Option (Segment × List Char)
  | '[' :: text => nextBracket? text
  | '.' :: text => nextDot? text
  | text => nextDot? text

theorem length_afterKey_le (text : List Char) : (afterKey text).length ≤ text.length :=
  (List.dropWhile_suffix _).length_le

theorem length_afterKey_lt {text : List Char} (h : leadingKey text ≠ []) :
    (afterKey text).length < text.length := by
  have hsplit : (leadingKey text ++ afterKey text).length = text.length :=
    congrArg List.length List.takeWhile_append_dropWhile
  have := List.length_pos_iff.mpr h
  rw [List.length_append] at hsplit
  omega

theorem length_lt_of_nextDot? {text rest : List Char} {s : Segment}
    (h : nextDot? text = some (s, rest)) : rest.length < text.length := by
  unfold nextDot? at h
  split at h
  · cases h
  · next hkey =>
    cases h
    exact length_afterKey_lt hkey

theorem length_le_of_nextBracket? {text rest : List Char} {s : Segment}
    (h : nextBracket? text = some (s, rest)) : rest.length ≤ text.length := by
  unfold nextBracket? at h
  split at h
  · cases h
  · split at h
    · next heq =>
      cases h
      have := length_afterKey_le text
      rw [heq, List.length_cons] at this
      omega
    · cases h

/-- A segment takes at least one character. -/
theorem length_lt_of_next? {text rest : List Char} {s : Segment}
    (h : next? text = some (s, rest)) : rest.length < text.length := by
  unfold next? at h
  split at h
  · exact Nat.lt_succ_of_le (length_le_of_nextBracket? h)
  · exact Nat.lt_succ_of_lt (length_lt_of_nextDot? h)
  · exact length_lt_of_nextDot? h

end Segment

namespace Path

/-- The segments a text consists of; there is at least one. -/
def parseSegments (text : List Char) : Except FormatError (List Segment) :=
  match _h : Segment.next? text with
  | none => .error (.invalidIdentifier (String.ofList text))
  | some (segment, rest) =>
    if rest = [] then .ok [segment] else (parseSegments rest).map (segment :: ·)
termination_by text.length
decreasing_by exact Segment.length_lt_of_next? _h

/-- The path a text denotes. -/
def parse (text : List Char) : Except FormatError Path :=
  (parseSegments text).map Path.mk

end Path

end TextTemplate
