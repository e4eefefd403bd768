import Quarry.Bisect
import Quarry.Cache
import Quarry.Catalog
import Quarry.Command
import Quarry.Command.Arguments
import Quarry.Digest
import Quarry.Dispatch
import Quarry.Display
import Quarry.Document.Reader
import Quarry.Excerpt
import Quarry.Excerpt.Span
import Quarry.Failure
import Quarry.File
import Quarry.Filter
import Quarry.Fusion
import Quarry.Glob
import Quarry.Glob.Lexeme
import Quarry.Glob.Pattern
import Quarry.Hybrid
import Quarry.Hybrid.Fingerprint
import Quarry.Hybrid.Lifetime
import Quarry.Index
import Quarry.Index.Document
import Quarry.Index.Snapshot
import Quarry.Journal
import Quarry.Journal.Time
import Quarry.Json
import Quarry.Json.Access
import Quarry.Json.Reader
import Quarry.Json.Writer
import Quarry.Location
import Quarry.Main
import Quarry.Note
import Quarry.Number
import Quarry.Number.Binary
import Quarry.Number.Decimal
import Quarry.Number.Spelled
import Quarry.Path
import Quarry.Proofs.Positions.Consecutive
import Quarry.Provider
import Quarry.Query
import Quarry.Query.Lexeme
import Quarry.Query.Parser
import Quarry.Query.Printer
import Quarry.Query.SyntaxError
import Quarry.RankOrder
import Quarry.Ranking.Bm25
import Quarry.Ranking.Positions
import Quarry.Ranking.Scalar
import Quarry.Reason
import Quarry.Report
import Quarry.Schema
import Quarry.Settings
import Quarry.Settings.Override
import Quarry.Source
import Quarry.Store
import Quarry.Store.Row
import Quarry.Store.Table
import Quarry.Symbol.Definition
import Quarry.Symbol.Table
import Quarry.Symbol.Trigram
import Quarry.Text
import Quarry.Text.Blank
import Quarry.Text.CaseTable
import Quarry.Text.Lowercase
import Quarry.Text.Point
import Quarry.Text.WordCharacter
import Quarry.Text.WordTable
import Quarry.Token
import Quarry.Wire.Answer
import Quarry.Wire.Basic
import Quarry.Wire.Failure
import Quarry.Workspace
import Quarry.Workspace.Intake
import Quarry.Workspace.Search
import Quarry.Workspace.Together
import Quarry.Workspace.Upkeep
import Quarry.Proofs.Positions.CoverSpan
import Quarry.Proofs.Text.Order
import Quarry.Proofs.Index.Records
import Quarry.Proofs.Index.Representation
import Quarry.Proofs.Index.Answers
import Quarry.Proofs.Index.History
import Quarry.Proofs.Ranking.RankOrder
import Quarry.Proofs.Ranking.Scores
import Quarry.Proofs.Text.Lower
import Quarry.Proofs.Index.Reachable
import Quarry.Proofs.Ranking.Matching
import Quarry.Proofs.Query.Grammar
import Quarry.Proofs.Query.Pass
import Quarry.Proofs.Query.Parse
import Quarry.Proofs.Text.Terms
import Quarry.Proofs.Query.Normal
import Quarry.Proofs.Query.Lexing
import Quarry.Proofs.Query.RoundTrip
import Quarry.Proofs.Snapshot.RoundTrip
import Quarry.Proofs.Workspace.Coherence
import Quarry.Proofs.Cache
import Quarry.Proofs.Number.Arithmetic
import Quarry.Proofs.Number.Reading
import Quarry.Proofs.Search.Cached
import Quarry.Proofs.Workspace.Transparency
import Quarry.Proofs.Workspace.Failing
import Quarry.Proofs.Workspace.Reopening
import Quarry.Proofs.Ranking.OwnText
import Quarry.Proofs.Workspace.Highlights
import Quarry.Proofs.Search.Isolation
import Quarry.Proofs.Search.Sole
import Quarry.Proofs.Workspace.Freshness
import Quarry.Proofs.Symbol.Mirror
import Quarry.Proofs.Cache.History
import Quarry.Proofs.Workspace.Atomicity
import Quarry.Proofs.Search.Cancelling
import Quarry.Proofs.Document.Lines
import Quarry.Proofs.Store.Interchange
import Quarry.Proofs.Settings.Resolving
import Quarry.Proofs.Settings.Weights
import Quarry.Proofs.Excerpt.Runs
import Quarry.Proofs.Ranking.Shares
import Quarry.Proofs.Symbol.Similarity
import Quarry.Proofs.Excerpt.Located
import Quarry.Proofs.Ranking.Flattening
import Quarry.Proofs.Search.Filtered
import Quarry.Proofs.Text.Decomposition
import Quarry.Proofs.Index.Vocabulary
import Quarry.Proofs.Index.WellFormed
import Quarry.Proofs.Snapshot.Acceptance
import Quarry.Proofs.Index.Origin
import Quarry.Proofs.Ranking.Contribution
import Quarry.Proofs.Snapshot.Carried
import Quarry.Proofs.Excerpt.Merging
import Quarry.Proofs.Query.Lexemes
import Quarry.Proofs.Ranking.Dominance
import Quarry.Proofs.Query.Errors
import Quarry.Proofs.Excerpt.Pieces
