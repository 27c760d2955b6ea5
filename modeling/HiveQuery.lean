import HiveQuery.Columns.Merge
import HiveQuery.Columns.Prune
import HiveQuery.Columns.Usage
import HiveQuery.Compiler
import HiveQuery.Configuration
import HiveQuery.Conformance
import HiveQuery.Dialect
import HiveQuery.Digest.Sha256
import HiveQuery.Failure
import HiveQuery.Json.Basic
import HiveQuery.Json.Reader
import HiveQuery.Json.Writer
import HiveQuery.Logging
import HiveQuery.Mapping
import HiveQuery.Naming
import HiveQuery.Number.Binary64
import HiveQuery.Number.Shortest
import HiveQuery.Ordering.Placement
import HiveQuery.Ordering.Terms
import HiveQuery.Paging
import HiveQuery.QueryText
import HiveQuery.Scope
import HiveQuery.Text.Alphanumeric
import HiveQuery.Text.Blank
import HiveQuery.Text.Quoted
import HiveQuery.Trace
import HiveQuery.Tree.Basic
import HiveQuery.Tree.Codes
import HiveQuery.Tree.DataType
import HiveQuery.Tree.Decoding
import HiveQuery.Tree.Encoding
import HiveQuery.Tree.Equality
import HiveQuery.Tree.Nodes
import HiveQuery.Tree.Transform
import HiveQuery.Validity
import HiveQuery.Yaml.Basic
import HiveQuery.Yaml.Document
import HiveQuery.Yaml.Scalar
import HiveQuery.Yaml.Token
import HiveQuery.Proofs.Levels
import HiveQuery.Proofs.Validity
import HiveQuery.Proofs.Traversal
import HiveQuery.Proofs.Settling
import HiveQuery.Proofs.Exposure
import HiveQuery.Proofs.Idempotence
import HiveQuery.Proofs.Names
import HiveQuery.Proofs.Comparison
import HiveQuery.Proofs.EffectiveOrder
import HiveQuery.Proofs.Ranks
import HiveQuery.Proofs.Rows
import HiveQuery.Proofs.Page
import HiveQuery.Proofs.PageRows
import HiveQuery.Proofs.Tidy
import HiveQuery.Proofs.Placement
import HiveQuery.Proofs.Governed
import HiveQuery.Proofs.PagingSound
import HiveQuery.Proofs.ColumnsSound
import HiveQuery.Proofs.Unpageable
import HiveQuery.Proofs.Conforming
import HiveQuery.Proofs.Completeness
import HiveQuery.Proofs.Descent
import HiveQuery.Proofs.Rendering
import HiveQuery.Proofs.PageLevels
import HiveQuery.Proofs.PageLiterals
import HiveQuery.Proofs.LabelAccounts
import HiveQuery.Proofs.PagingLabels
import HiveQuery.Proofs.Passage
import HiveQuery.Proofs.Remnants
import HiveQuery.Proofs.Shape
import HiveQuery.Proofs.Likeness
import HiveQuery.Proofs.PruneRounds
import HiveQuery.Proofs.ColumnEconomy
import HiveQuery.Proofs.OrderingLabels
import HiveQuery.Proofs.PrunedAggregates
import HiveQuery.Proofs.Tokens
import HiveQuery.Proofs.Grammar
import HiveQuery.Proofs.Rounding
import HiveQuery.Proofs.Numerals
import HiveQuery.Proofs.Nesting
import HiveQuery.Proofs.ExpressionText
import HiveQuery.Proofs.Regrouping
import HiveQuery.Proofs.ArithmeticText
import HiveQuery.Proofs.PredicateText
import HiveQuery.Proofs.Boundaries
import HiveQuery.Proofs.SourceText
import HiveQuery.Proofs.Stability
import HiveQuery.Proofs.ConditionScope
import HiveQuery.Proofs.Resolution
import HiveQuery.Proofs.MergeComplete
import HiveQuery.Proofs.Documents
import HiveQuery.Proofs.DocumentText
import HiveQuery.Proofs.RoundTrip
import HiveQuery.Proofs.Fingerprints
import HiveQuery.Proofs.Stretches
import HiveQuery.Proofs.MergedScopes
import HiveQuery.Proofs.Redirection
import HiveQuery.Proofs.Replacement
import HiveQuery.Proofs.Rebuilding
import HiveQuery.Proofs.SafePruning
import HiveQuery.Proofs.PruneLoop
import HiveQuery.Proofs.ColumnRemoval
import HiveQuery.Proofs.PageSignatures
import HiveQuery.Proofs.PlacedTrees
import HiveQuery.Proofs.SemiJoins
import HiveQuery.Proofs.ConformedQueries
import HiveQuery.Proofs.PageBounds
import HiveQuery.Proofs.Expressible
import HiveQuery.Proofs.QuotedText
import HiveQuery.Proofs.CommentMarkers
import HiveQuery.Proofs.ReexpressedTerms
import HiveQuery.Proofs.RenamedReferences
import HiveQuery.Proofs.RepeatedTerms
import HiveQuery.Proofs.Resources
import HiveQuery.Proofs.GeneratedNames
