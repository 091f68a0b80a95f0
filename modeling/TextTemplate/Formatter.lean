import TextTemplate.Config.Basic
import TextTemplate.Template.Fill

/-!
# Formatters

A formatter fills templates under a configuration and may keep scanned templates for reuse.  A full
cache is cleared before it takes another template, and a template that cannot be scanned leaves it
as it is.  Each scan has a number, which tells one list of tokens handed out twice from two equal
lists.

`Formatter.run` takes a formatter through a list of calls.
-/

namespace TextTemplate

/-- The tokens of a template and the number of the scan that found them. -/
structure SharedTokens where
  scanNumber : Nat
  tokens : List Token
  deriving DecidableEq, Repr

/-- A formatter: its configuration, the templates it keeps, the latest first, and the number of
scans it has made. -/
structure Formatter where
  config : FormatterConfig := {}
  cache : List (String × SharedTokens) := []
  scans : Nat := 0

namespace Formatter

/-! ### The cache -/

/-- The tokens kept for a template. -/
def cached? (f : Formatter) (template : String) : Option SharedTokens :=
  if f.config.cache then f.cache.lookup template else none

/-- The templates in the cache, the latest first. -/
def templates (f : Formatter) : List String := f.cache.map Prod.fst

/-- The number of templates in the cache. -/
def cachedTemplates (f : Formatter) : Nat := f.cache.length

@[simp]
theorem length_templates (f : Formatter) : f.templates.length = f.cachedTemplates :=
  List.length_map _

/-- Whether the cache must be cleared before it takes another template. -/
def isFull (f : Formatter) : Bool := f.config.cacheCapacity.toNat ≤ f.cache.length

/-- Whether the formatter keeps templates at all. -/
def keepsTemplates (f : Formatter) : Bool := f.config.cache && f.config.cacheCapacity != 0

/-- The cache after a template that is not in it has been scanned. -/
def cacheWith (f : Formatter) (template : String) (shared : SharedTokens) :
    List (String × SharedTokens) :=
  if f.keepsTemplates then (template, shared) :: (if f.isFull then [] else f.cache) else f.cache

/-- The formatter with nothing in its cache. -/
def clearCache (f : Formatter) : Formatter := { f with cache := [] }

/-! ### Calls -/

/-- The tokens of a template, kept or scanned anew. -/
def tokenize (f : Formatter) (template : String) : Except FormatError SharedTokens × Formatter :=
  match f.cached? template with
  | some shared => (.ok shared, f)
  | none =>
    match scan template with
    | .error e => (.error e, f)
    | .ok tokens =>
      let shared : SharedTokens := ⟨f.scans, tokens⟩
      (.ok shared, { f with cache := f.cacheWith template shared, scans := f.scans + 1 })

/-- A template filled from the arguments. -/
def format (f : Formatter) (template : String) (args : List Value) :
    Except FormatError String × Formatter :=
  let (result, f') := f.tokenize template
  (result.map fun shared => fill shared.tokens args f.config.falsy, f')

/-- A call on a formatter. -/
inductive Call where
  | tokenize (template : String)
  | format (template : String) (args : List Value)
  | formatNumber (x : Binary64) (specifier : Option String)
  | clearCache

/-- What a call answers. -/
inductive Answer where
  | tokens (result : Except FormatError SharedTokens)
  | text (result : Except FormatError String)
  | cleared

/-- The answer to a call, and the formatter after it. -/
def call (f : Formatter) : Call → Answer × Formatter
  | .tokenize template =>
    let (result, f') := f.tokenize template
    (.tokens result, f')
  | .format template args =>
    let (result, f') := f.format template args
    (.text result, f')
  | .formatNumber x specifier =>
    (.text (.ok (String.ofList (TextTemplate.formatNumber x (specifier.map String.toList)))), f)
  | .clearCache => (.cleared, f.clearCache)

/-- The answers to calls made one after the other, and the formatter after them. -/
def run (f : Formatter) : List Call → List Answer × Formatter
  | [] => ([], f)
  | c :: calls =>
    let (answer, f') := f.call c
    let (answers, f'') := f'.run calls
    (answer :: answers, f'')

end Formatter

end TextTemplate
