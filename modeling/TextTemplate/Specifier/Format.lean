import TextTemplate.Decimal.Shortest
import TextTemplate.Specifier.Parser

/-!
# Numbers under a specifier

A number is written in three steps.  `body` writes the floor of the number or its default text, as
the kind asks, and adds zeros behind the point up to the precision; `signed` puts a plus in front
where the flag asks for one; `pad` fills up to the width.  A precision adds digits and never takes
any away, and what is not finite has its name for a body under every kind.

A text is taken here however long it is asked for.  A specifier that is read from a text asks for
none that a string cannot hold; for any other, `Specifier.applied?` tells whether one can.
-/

namespace TextTemplate

/-! ### The floor of a number -/

/-- An integer in the digits of a radix, letters in lower case. -/
def integerText (radix : Nat) (n : Int) : List Char :=
  let digits := Nat.toDigits radix n.natAbs
  if n < 0 then '-' :: digits else digits

/-- The magnitude from which on a floor has its default text for every kind: the binary64 number
nearest to `1.7e38`. -/
def integralLimit : Nat := 169999999999999998061923293023115935744

/-- The floor of a number in the digits of a radix.  A number whose floor is at or above the limit
in magnitude is whole, so that its own default text is that of its floor. -/
def Binary64.Finite.floorText (x : Finite) (radix : Nat) : List Char :=
  if x.floor.natAbs < integralLimit then integerText radix x.floor else x.text

/-! ### Precision -/

/-- The digits behind the point. -/
def fraction (cs : List Char) : List Char := (cs.dropWhile (· != '.')).drop 1

/-- The text with zeros added until `precision` digits stand behind the point, which is added too
if the text has none and a digit is to follow. -/
def extendFraction (precision : Nat) (cs : List Char) : List Char :=
  let missing := precision - (fraction cs).length
  if missing = 0 then cs
  else if cs.contains '.' then cs ++ List.replicate missing '0'
  else cs ++ '.' :: List.replicate missing '0'

namespace Specifier

/-- The text extended to the precision, if there is one. -/
def extend (s : Specifier) (cs : List Char) : List Char :=
  match s.precision with
  | none => cs
  | some precision => extendFraction precision cs

/-! ### The steps -/

/-- The digits of a number with its minus sign. -/
def body (s : Specifier) : Binary64 → List Char
  | .finite x =>
    match s.kind with
    | .decimal => s.extend (x.floorText 10)
    | .lowerHex => x.floorText 16
    | .upperHex => (x.floorText 16).map Char.toUpper
    | .binary => x.floorText 2
    | .octal => x.floorText 8
    | .fixed | .general => s.extend x.text
  | x => x.text

/-- The body, behind a plus sign if the flag asks for one and the number is not below zero. -/
def signed (s : Specifier) (x : Binary64) : List Char :=
  if s.flags.plus && x.isNonneg then '+' :: s.body x else s.body x

/-- Zeros put behind a leading sign, or in front where there is none. -/
def zeroFill (zeros : List Char) : List Char → List Char
  | '+' :: cs => '+' :: (zeros ++ cs)
  | '-' :: cs => '-' :: (zeros ++ cs)
  | cs => zeros ++ cs

/-- The text filled up to the width: with blanks behind it for the minus flag, else with zeros
for the zero flag, else with blanks in front. -/
def pad (s : Specifier) (cs : List Char) : List Char :=
  let missing := s.width.getD 0 - cs.length
  if s.flags.minus then cs ++ List.replicate missing ' '
  else if s.flags.zero then zeroFill (List.replicate missing '0') cs
  else List.replicate missing ' ' ++ cs

/-- A number written under a specifier. -/
def apply (s : Specifier) (x : Binary64) : List Char := s.pad (s.signed x)

end Specifier

/-- A number written under the text of a specifier.  Without a specifier, or under an empty one,
a number has its default text. -/
def formatNumber (x : Binary64) : Option (List Char) → List Char
  | none | some [] => x.text
  | some specifier => (Specifier.parse specifier).apply x

end TextTemplate
