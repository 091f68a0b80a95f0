import TextTemplate.Binary64.Basic

/-!
# Values

The arguments a template is filled from: trees of scalars, arrays and objects, their numbers in
binary64.  An object is the list of its fields; a key stands for the first field that has it.
-/

namespace TextTemplate

/-- A value. -/
inductive Value where
  | null
  | bool (b : Bool)
  | number (x : Binary64)
  | string (s : String)
  | array (items : List Value)
  | object (fields : List (String × Value))
  deriving Inhabited

namespace Value

/-- Whether a value is `null`. -/
def isNull : Value → Bool
  | null => true
  | _ => false

/-- The values that count as nothing: `null`, `false`, zero, `nan` and the empty string.  Arrays
and objects never do, not even empty ones. -/
def isFalsy : Value → Bool
  | null => true
  | bool b => !b
  | number .nan => true
  | number x => x.isZero
  | string s => s.isEmpty
  | array _ => false
  | object _ => false

end Value

end TextTemplate
