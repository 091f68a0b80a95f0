import TextTemplate.Config.Yaml
import TextTemplate.Formatter
import TextTemplate.Template.Printer
import TextTemplate.Yaml.Subset
import TextTemplate.Proofs.Template.Cutting
import TextTemplate.Proofs.Template.Slice
import TextTemplate.Proofs.Template.Interpolation
import TextTemplate.Proofs.Template.Tiling
import TextTemplate.Proofs.Formatter.Transparency
import TextTemplate.Proofs.Numeral.Digits
import TextTemplate.Proofs.Binary64.Value
import TextTemplate.Proofs.Specifier.Padding
import TextTemplate.Proofs.Specifier.IntegerKinds
import TextTemplate.Proofs.Formatter.History
import TextTemplate.Proofs.Formatter.CacheContents
import TextTemplate.Proofs.Formatter.Sharing
import TextTemplate.Proofs.Decimal.Positional
import TextTemplate.Proofs.Specifier.NumberText
import TextTemplate.Proofs.Template.Concatenation
import TextTemplate.Proofs.Template.RuntimeSpecifier
import TextTemplate.Proofs.Specifier.Grammar
import TextTemplate.Proofs.Path.RoundTrip
import TextTemplate.Proofs.Template.Reprinting
import TextTemplate.Proofs.Template.InPlace
import TextTemplate.Proofs.Binary64.Floor
import TextTemplate.Proofs.Specifier.Characters
import TextTemplate.Proofs.Specifier.Length
import TextTemplate.Proofs.Text.Capacity
import TextTemplate.Proofs.Specifier.Checked
import TextTemplate.Proofs.Template.Completion
import TextTemplate.Proofs.Path.Walking
import TextTemplate.Proofs.Path.Numbers
import TextTemplate.Proofs.Template.Policies
import TextTemplate.Proofs.Binary64.Nearest
import TextTemplate.Proofs.Binary64.Rounding
import TextTemplate.Proofs.Decimal.Shortest
import TextTemplate.Proofs.Decimal.RoundTrip
import TextTemplate.Proofs.Specifier.WholeNumbers
import TextTemplate.Proofs.Path.Grammar
import TextTemplate.Proofs.Path.NormalForm
import TextTemplate.Proofs.Template.FirstError
import TextTemplate.Proofs.Template.Unclosed
import TextTemplate.Proofs.Specifier.Precision
import TextTemplate.Proofs.Specifier.Width
import TextTemplate.Proofs.Template.OutputLength
import TextTemplate.Proofs.Path.Indexing
import TextTemplate.Proofs.Specifier.IntegralLimit
import TextTemplate.Proofs.Template.ClosingBraces
import TextTemplate.Proofs.Value.Leaves
import TextTemplate.Proofs.Yaml.PlainScalar
import TextTemplate.Proofs.Yaml.BlockMapping
import TextTemplate.Proofs.Config.Library
import TextTemplate.Proofs.Config.Lines
