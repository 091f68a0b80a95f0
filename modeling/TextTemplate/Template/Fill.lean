import TextTemplate.Path.Resolve
import TextTemplate.Template.Token
import TextTemplate.Value.Render

/-!
# Filling a template

Each token contributes a text, and the texts follow one another.  A literal halves its doubled
closing braces; a placeholder looks its value up, and its specifier too if that is a path.  What a
value contributes is never scanned again.
-/

namespace TextTemplate

/-- Literal text with each doubled closing brace, from the left, made a single one. -/
def collapse : List Char → List Char
  | '}' :: '}' :: text => '}' :: collapse text
  | c :: text => c :: collapse text
  | [] => []

/-- Collapsing takes characters away and changes none. -/
theorem collapse_sublist (text : List Char) : (collapse text).Sublist text := by
  fun_induction collapse text with
  | case1 text ih => exact (ih.cons_cons '}').cons '}'
  | case2 c text _ ih => exact ih.cons_cons c
  | case3 => exact .slnil

/-- The text of a specifier: as written, or the plain text of the value a path leads to. -/
def SpecifierSource.resolve (args : List Value) : SpecifierSource → Option (List Char)
  | inline text => some text.toList
  | lookup path => (path.resolve args).map Value.text

/-- What a token contributes. -/
def Token.fill (args : List Value) (policy : FalsyPolicy) : Token → List Char
  | literal _ text => collapse text.toList
  | leftBrace => ['{']
  | placeholder path specifier =>
    render policy (specifier.bind (SpecifierSource.resolve args)) (path.resolve args)

/-- The text of a scanned template filled from the arguments. -/
def fill (tokens : List Token) (args : List Value) (policy : FalsyPolicy) : String :=
  String.ofList (tokens.flatMap (Token.fill args policy))

/-- A template filled from the arguments, falsy values being left blank. -/
def format (template : String) (args : List Value) : Except FormatError String :=
  (scan template).map (fill · args .blank)

end TextTemplate
