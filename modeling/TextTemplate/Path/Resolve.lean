import TextTemplate.Binary64.Rounding
import TextTemplate.Numeral
import TextTemplate.Path.Basic
import TextTemplate.Value.Basic

/-!
# Following a path

A path is followed one key at a time (`Value.walk`).  A first key made of digits only picks an
argument; any other path starts inside the first argument.
-/

namespace TextTemplate

/-! ### Steps -/

/-- The item at the index of which `key` is the numeral. -/
def itemAt? {α : Type} (items : List α) (key : String) : Option α :=
  (Numeral.index? key.toList).bind (items[·]?)

namespace Value

/-- A count as a value. -/
def ofCount (n : Nat) : Value := number (Binary64.ofNat n)

/-- The value one key leads to: a field of an object, an item of an array, a character of a string
as a string of its own, or the length of an array or string. -/
def step (key : String) : Value → Option Value
  | object fields => fields.lookup key
  | array items => if key = "length" then some (ofCount items.length) else itemAt? items key
  | string s =>
    if key = "length" then some (ofCount s.length)
    else (itemAt? s.toList key).map fun c => string (String.singleton c)
  | _ => none

/-- The value a list of keys leads to. -/
def walk : List String → Value → Option Value
  | [], v => some v
  | key :: keys, v => (v.step key).bind (walk keys)

end Value

/-! ### Paths -/

/-- Whether a first key addresses the argument list: it is made of ASCII digits only. -/
def isArgumentKey (key : String) : Bool :=
  !key.isEmpty && key.toList.all Char.isDigit

/-- The value a path leads to. -/
def Path.resolve (p : Path) (args : List Value) : Option Value :=
  match p.keys with
  | [] => none
  | key :: keys =>
    if isArgumentKey key then (itemAt? args key).bind (Value.walk keys)
    else args.head?.bind (Value.walk (key :: keys))

end TextTemplate
