import ChartParser.Forest.Recorder
import ChartParser.Frame.Run
import ChartParser.Grammar.Derivation
import ChartParser.Parser.Run
import ChartParser.Proofs.Lists
import ChartParser.Proofs.Deduction.Basic
import ChartParser.Proofs.Grammar.Yield
import ChartParser.Proofs.Deduction.Meaning
import ChartParser.Proofs.Chart.Insertion
import ChartParser.Proofs.Chart.Sound
import ChartParser.Proofs.Success
import ChartParser.Proofs.Chart.Bound
import ChartParser.Proofs.Parser.Progress
import ChartParser.Proofs.Parser.Reduction
import ChartParser.Proofs.Expectations
import ChartParser.Proofs.Session
import ChartParser.Proofs.Parser.Completeness
import ChartParser.Proofs.Parser.Tracking
import ChartParser.Proofs.Parser.PlainChart
import ChartParser.Proofs.Frame.Closure
import ChartParser.Proofs.Frame.Draft
import ChartParser.Proofs.Frame.Chart
import ChartParser.Proofs.Frame.Reduction
import ChartParser.Proofs.Frame.Tracking
import ChartParser.Proofs.Agreement
import ChartParser.Proofs.Parser.MemoizedPaths
import ChartParser.Proofs.ExpectedTokens
import ChartParser.Proofs.Frame.Link
import ChartParser.Proofs.Parser.Jumps
import ChartParser.Proofs.Rejection
import ChartParser.Proofs.Parser.Invariant
import ChartParser.Proofs.InRange
import ChartParser.Proofs.Parser.Indifference
import ChartParser.Proofs.Restart
import ChartParser.Proofs.Deduction.Choices
import ChartParser.Proofs.Parser.Contents
import ChartParser.Proofs.Alternatives
import ChartParser.Proofs.EarlierSets
import ChartParser.Proofs.Parser.MemoizedCount
import ChartParser.Proofs.Parser.Provenance
import ChartParser.Proofs.Parser.ShownMoves
import ChartParser.Proofs.Grammar.Construction
import ChartParser.Proofs.Frame.Subsets
import ChartParser.Proofs.Termination
import ChartParser.Proofs.TokenTypes
import ChartParser.Proofs.Chart.Replay
import ChartParser.Proofs.Journal
import ChartParser.Proofs.Replay
import ChartParser.Proofs.Store.Agreement
import ChartParser.Proofs.Store.Session
import ChartParser.Proofs.Parser.RightRecursion
import ChartParser.Proofs.RuleTable.Indexed
import ChartParser.Proofs.RuleTable.Numbering
import ChartParser.Proofs.KeptAnswers
import ChartParser.Proofs.Rendering
