import TextTemplate.Specifier.Format
import TextTemplate.Value.Text

/-!
# What a value contributes to a filled template

A number is written under the specifier of its placeholder; every other value has its plain text.
A falsy policy says which values contribute nothing at all.
-/

namespace TextTemplate

/-- Which values of a placeholder are left blank: all falsy ones, or `null` only. -/
inductive FalsyPolicy where
  | blank
  | render
  deriving DecidableEq, Repr

/-- Whether the policy leaves the value blank. -/
def FalsyPolicy.blanks : FalsyPolicy → Value → Bool
  | .blank, v => v.isFalsy
  | .render, v => v.isNull

namespace Value

/-- The text of a value under a specifier, which only numbers heed. -/
def formatted (specifier : Option (List Char)) : Value → List Char
  | number x => formatNumber x specifier
  | v => v.text

end Value

/-- What the value found for a placeholder contributes; a missing one contributes nothing. -/
def render (policy : FalsyPolicy) (specifier : Option (List Char)) : Option Value → List Char
  | none => []
  | some v => if policy.blanks v then [] else v.formatted specifier

end TextTemplate
