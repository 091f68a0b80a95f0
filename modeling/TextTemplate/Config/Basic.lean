import TextTemplate.Value.Render

/-!
# Configuration of a formatter

Three settings, each with a default: which values are left blank, whether scanned templates are
kept, and how many of them.
-/

namespace TextTemplate

/-- The configuration of a formatter. -/
structure FormatterConfig where
  falsy : FalsyPolicy := .blank
  cache : Bool := false
  cacheCapacity : UInt64 := 256
  deriving DecidableEq, Repr

/-- The value of one setting. -/
inductive Setting where
  | falsy (policy : FalsyPolicy)
  | cache (on : Bool)
  | cacheCapacity (capacity : UInt64)
  deriving DecidableEq, Repr

namespace FormatterConfig

/-- The configuration with one setting changed. -/
def set (c : FormatterConfig) : Setting → FormatterConfig
  | .falsy policy => { c with falsy := policy }
  | .cache on => { c with cache := on }
  | .cacheCapacity capacity => { c with cacheCapacity := capacity }

/-- The default configuration with the settings made one after the other. -/
def ofSettings (settings : List Setting) : FormatterConfig := settings.foldl set {}

end FormatterConfig

end TextTemplate
