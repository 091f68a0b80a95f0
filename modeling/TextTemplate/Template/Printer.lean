import TextTemplate.Template.Token

/-!
# Writing templates

`escape` writes a text as a template that stands for just this text; `source` writes a scanned
template anew, each placeholder in its plainest form and closed.
-/

namespace TextTemplate

/-- The text with each brace doubled. -/
def escape (text : List Char) : List Char :=
  text.flatMap fun c => if c = '{' ∨ c = '}' then [c, c] else [c]

/-- How a specifier is written in a placeholder. -/
def SpecifierSource.source : SpecifierSource → List Char
  | inline text => ':' :: text.toList
  | lookup path => ':' :: '{' :: (path.text ++ ['}'])

/-- How a token is written in a template. -/
def Token.source : Token → List Char
  | literal _ text => text.toList
  | leftBrace => ['{', '{']
  | placeholder path none => '{' :: (path.text ++ ['}'])
  | placeholder path (some specifier) => '{' :: (path.text ++ specifier.source ++ ['}'])

/-- A template with the given tokens. -/
def source (tokens : List Token) : String := String.ofList (tokens.flatMap Token.source)

end TextTemplate
