/-!
# Number specifiers

What a placeholder may ask of a number: flags, a least width, a least count of fractional digits,
and a kind of presentation.
-/

namespace TextTemplate

namespace Specifier

/-- The flags of a specifier.  `alternate` is accepted and asks for nothing. -/
structure Flags where
  plus : Bool := false
  minus : Bool := false
  alternate : Bool := false
  zero : Bool := false
  deriving DecidableEq, Repr

/-- The presentation of a number: in decimal, hexadecimal, binary or octal digits of its floor,
or as its default text, which is both what `fixed` and what `general` stand for. -/
inductive Kind where
  | decimal
  | lowerHex
  | upperHex
  | binary
  | octal
  | fixed
  | general
  deriving DecidableEq, Repr

/-- The greatest width or precision a specifier can ask for. -/
def maxPadding : Nat := 1 <<< 20

end Specifier

/-- A specifier.  Absent widths and precisions ask for nothing. -/
structure Specifier where
  flags : Specifier.Flags := {}
  width : Option Nat := none
  precision : Option Nat := none
  kind : Specifier.Kind := .general
  deriving DecidableEq, Repr

end TextTemplate
