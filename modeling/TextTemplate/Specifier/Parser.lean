import TextTemplate.Numeral
import TextTemplate.Specifier.Basic

/-!
# The text of a specifier

A specifier is written `flags width .precision kind`, each part optional.  Reading never fails:
every text splits into the longest run of flags, the longest run of digits after it, a point with
a non-empty run of digits if there is one, and a rest, which names a kind or means `general`.
`Specifier.text` writes a specifier.
-/

namespace TextTemplate.Specifier

/-! ### Flags and kinds -/

namespace Flags

/-- The characters that set a flag. -/
def isFlag (c : Char) : Bool := c == '+' || c == '-' || c == '#' || c == '0'

/-- The flags that occur in a run of flag characters; order and repetition do not matter. -/
def ofChars (run : List Char) : Flags where
  plus := run.contains '+'
  minus := run.contains '-'
  alternate := run.contains '#'
  zero := run.contains '0'

/-- The flag characters of a set of flags, each once. -/
def text (f : Flags) : List Char :=
  (if f.plus then ['+'] else []) ++ (if f.minus then ['-'] else []) ++
    (if f.alternate then ['#'] else []) ++ (if f.zero then ['0'] else [])

end Flags

namespace Kind

/-- The kind with the given code; any other text means `general`. -/
def ofCode : List Char → Kind
  | ['d'] => .decimal
  | ['x'] => .lowerHex
  | ['X'] => .upperHex
  | ['b'] => .binary
  | ['o'] => .octal
  | ['f'] | ['F'] => .fixed
  | _ => .general

/-- The code of a kind, empty for `general`. -/
def code : Kind → List Char
  | .decimal => ['d']
  | .lowerHex => ['x']
  | .upperHex => ['X']
  | .binary => ['b']
  | .octal => ['o']
  | .fixed => ['f']
  | .general => []

@[simp]
theorem ofCode_code (k : Kind) : ofCode k.code = k := by cases k <;> rfl

end Kind

/-! ### Specifiers -/

/-- The amount of padding a run of digits asks for: none if it is empty or asks for more than
`maxPadding`. -/
def padding? (digits : List Char) : Option Nat :=
  if digits.isEmpty then none else (some (Numeral.ofDigits digits)).filter (· ≤ maxPadding)

/-- The digits of a precision and the text behind them.  A point that no digit follows belongs to
the rest. -/
def splitPrecision : List Char → List Char × List Char
  | '.' :: cs =>
    if (cs.takeWhile Char.isDigit).isEmpty then ([], '.' :: cs)
    else (cs.takeWhile Char.isDigit, cs.dropWhile Char.isDigit)
  | cs => ([], cs)

/-- The specifier a text asks for. -/
def parse (text : List Char) : Specifier :=
  let afterFlags := text.dropWhile Flags.isFlag
  let (precision, kind) := splitPrecision (afterFlags.dropWhile Char.isDigit)
  { flags := Flags.ofChars (text.takeWhile Flags.isFlag)
    width := padding? (afterFlags.takeWhile Char.isDigit)
    precision := padding? precision
    kind := Kind.ofCode kind }

/-- The text of a specifier. -/
def text (s : Specifier) : List Char :=
  s.flags.text ++ (s.width.map (Nat.toDigits 10)).getD [] ++
    (s.precision.map ('.' :: Nat.toDigits 10 ·)).getD [] ++ s.kind.code

end TextTemplate.Specifier
