import TextTemplate.Config.Basic
import TextTemplate.Error
import TextTemplate.Text.WhiteSpace
import TextTemplate.Yaml.Library

/-!
# Configurations in YAML

A configuration is a mapping from the names of settings to their values.  Settings that are left
out have their defaults, unknown names mean nothing, and no setting is made twice.
`FormatterConfig.toYaml` writes a configuration, `FormatterConfig.ofYaml` reads one, both with a
library that knows about YAML.
-/

namespace TextTemplate

/-! ### Settings -/

namespace Setting

/-- The name of a setting. -/
def name : Setting → List Char
  | falsy _ => ['f', 'a', 'l', 's', 'y']
  | cache _ => ['c', 'a', 'c', 'h', 'e']
  | cacheCapacity _ => ['c', 'a', 'c', 'h', 'e', '_', 'c', 'a', 'p', 'a', 'c', 'i', 't', 'y']

/-- The name of a policy. -/
def policyName : FalsyPolicy → List Char
  | .blank => ['b', 'l', 'a', 'n', 'k']
  | .render => ['r', 'e', 'n', 'd', 'e', 'r']

/-- A setting as a field of a record. -/
def field (s : Setting) : List Char × Yaml.Datum :=
  match s with
  | falsy policy => (s.name, .variant (policyName policy))
  | cache on => (s.name, .bool on)
  | cacheCapacity capacity => (s.name, .count capacity)

section Reading

variable (library : Yaml.Library)

/-- The policy that a node names. -/
def policy? (node : library.Node) : Option FalsyPolicy :=
  (library.variant? node).bind fun name =>
    [FalsyPolicy.blank, .render].find? (policyName · == name)

/-- The setting that an entry of a mapping makes, absent if its name is unknown.  The outer `none`
means that the entry is none a configuration may have. -/
def ofEntry? (entry : library.Node × library.Node) : Option (Option Setting) :=
  (library.key? entry.1).bind fun key =>
    if key = (falsy .blank).name then (policy? library entry.2).map (some ∘ falsy)
    else if key = (cache false).name then (library.bool? entry.2).map (some ∘ cache)
    else if key = (cacheCapacity 0).name then (library.count? entry.2).map (some ∘ cacheCapacity)
    else some none

end Reading

end Setting

/-! ### Configurations -/

namespace FormatterConfig

/-- All settings of a configuration. -/
def settings (c : FormatterConfig) : List Setting :=
  [.falsy c.falsy, .cache c.cache, .cacheCapacity c.cacheCapacity]

section Library

variable (library : Yaml.Library)

/-- The configuration that the entries of a mapping make. -/
def ofEntries? (entries : List (library.Node × library.Node)) : Option FormatterConfig := do
  let settings := (← entries.mapM (Setting.ofEntry? library)).filterMap id
  if (settings.map Setting.name).Nodup then some (ofSettings settings) else none

/-- The configuration that a text holds; white space alone holds the default one. -/
def ofText? (text : List Char) : Option FormatterConfig :=
  if isBlankText text then some {} else (library.entries? text).bind (ofEntries? library)

/-- The configuration that a text holds, or the fault in it. -/
def ofYaml (text : String) : Except FormatError FormatterConfig :=
  match ofText? library text.toList with
  | some config => .ok config
  | none => .error (.config .malformed)

/-- The configuration in a file, given its contents if it is there. -/
def load (file : String) (contents : Option ByteArray) : Except FormatError FormatterConfig :=
  match contents.bind String.fromUTF8? with
  | some text => ofYaml library text
  | none => .error (.config (.unreadable file))

end Library

end FormatterConfig

end TextTemplate
