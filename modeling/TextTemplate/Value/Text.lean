import TextTemplate.Decimal.Shortest
import TextTemplate.Value.Basic

/-!
# The plain text of a value

Scalars have their own text, `null` has none, objects hide their contents, and an array is the
texts of its items with commas between them.
-/

namespace TextTemplate.Value

/-- The text of a truth value. -/
def boolText : Bool → List Char
  | true => ['t', 'r', 'u', 'e']
  | false => ['f', 'a', 'l', 's', 'e']

/-- The text of every object. -/
def objectText : List Char :=
  ['[', 'o', 'b', 'j', 'e', 'c', 't', ' ', 'O', 'b', 'j', 'e', 'c', 't', ']']

mutual

/-- The plain text of a value. -/
def text : Value → List Char
  | null => []
  | bool b => boolText b
  | number x => x.text
  | string s => s.toList
  | array items => [','].intercalate (texts items)
  | object _ => objectText

/-- The plain texts of the items of an array. -/
def texts : List Value → List (List Char)
  | [] => []
  | v :: vs => v.text :: texts vs

end

theorem texts_eq_map (vs : List Value) : texts vs = vs.map text := by
  induction vs with
  | nil => rw [texts, List.map_nil]
  | cons v vs ih => rw [texts, List.map_cons, ih]

end TextTemplate.Value
