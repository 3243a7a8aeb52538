import Eligibility.Attributes.Basic
import Eligibility.Attributes.Json
import Eligibility.Binary64.Basic
import Eligibility.Binary64.Rounding
import Eligibility.Binary64.Shortest
import Eligibility.Binary64.Text
import Eligibility.Branch
import Eligibility.Catalog
import Eligibility.Combiner
import Eligibility.Command.Basic
import Eligibility.Command.Line
import Eligibility.Command.Run
import Eligibility.Comparator
import Eligibility.Comparison
import Eligibility.Connective
import Eligibility.Decimal
import Eligibility.Engine
import Eligibility.Evaluation
import Eligibility.Fault
import Eligibility.Json.Basic
import Eligibility.Json.Lexeme
import Eligibility.Json.Reading
import Eligibility.Json.Writing
import Eligibility.Main
import Eligibility.Proofs.Rule.Derivation
import Eligibility.Rule.Basic
import Eligibility.Rule.Grammar
import Eligibility.Rule.Json
import Eligibility.Rule.Path
import Eligibility.Settings.Address
import Eligibility.Settings.Basic
import Eligibility.Settings.Toml.Document
import Eligibility.Settings.Toml.Lexeme
import Eligibility.Settings.Toml.Moment
import Eligibility.Settings.Toml.Scalar
import Eligibility.Settings.Toml.Table
import Eligibility.Settings.Value
import Eligibility.Target
import Eligibility.Text.Blank
import Eligibility.Text.DecimalDigit
import Eligibility.Text.HexDigit
import Eligibility.Text.Quoted
import Eligibility.Token.Basic
import Eligibility.Token.Piece
import Eligibility.Token.Word
import Eligibility.Proofs.Rule.Reading
import Eligibility.Proofs.Rule.Parsing
import Eligibility.Proofs.Binary64.Rounding
import Eligibility.Proofs.Binary64.Shortest
import Eligibility.Proofs.Token.Lexeme
import Eligibility.Proofs.Token.Number
import Eligibility.Proofs.Rule.Rendering
import Eligibility.Proofs.Catalog.Calls
import Eligibility.Proofs.Catalog.Consistency
import Eligibility.Proofs.Evaluation.ShortCircuit
import Eligibility.Proofs.Combination.Folding
import Eligibility.Proofs.Combination.Meaning
import Eligibility.Proofs.Rule.Equality
import Eligibility.Proofs.Combination.Distinct
import Eligibility.Proofs.Engine.Limit
import Eligibility.Proofs.Json.Number
import Eligibility.Proofs.Json.Lexeme
import Eligibility.Proofs.Json.Document
import Eligibility.Proofs.Rule.Document
import Eligibility.Proofs.Json.Finite
import Eligibility.Proofs.Rule.Origin
import Eligibility.Proofs.Engine.Session
import Eligibility.Proofs.Command.Feeding
import Eligibility.Proofs.Rule.Members
import Eligibility.Proofs.Rule.Shape
import Eligibility.Proofs.Token.Cutting
import Eligibility.Proofs.Catalog.Lookup
import Eligibility.Proofs.Catalog.History
import Eligibility.Proofs.Rule.Replacement
import Eligibility.Proofs.Catalog.Modification
import Eligibility.Proofs.Catalog.Combining
import Eligibility.Proofs.Target.Nesting
import Eligibility.Proofs.Evaluation.Dependence
import Eligibility.Proofs.Combination.Texts
import Eligibility.Proofs.Rule.Path
import Eligibility.Proofs.Evaluation.Trace
import Eligibility.Proofs.Rule.Stage
import Eligibility.Proofs.Rule.Refusal
import Eligibility.Proofs.Combination.Progress
import Eligibility.Proofs.Rule.Lens
import Eligibility.Proofs.Rule.PathText
import Eligibility.Proofs.Attributes.Reading
import Eligibility.Proofs.Token.Seam
import Eligibility.Proofs.Rule.Spelling
import Eligibility.Proofs.Rule.Cursor
import Eligibility.Proofs.Rule.Discipline
import Eligibility.Proofs.Settings.Document
import Eligibility.Proofs.Settings.Fields
import Eligibility.Proofs.Settings.Layers
import Eligibility.Proofs.Settings.Sources
import Eligibility.Proofs.Rule.Walk
import Eligibility.Proofs.Token.Name
