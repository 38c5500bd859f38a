import ConfigSampler.Arithmetic.Count
import ConfigSampler.Arithmetic.Floating
import ConfigSampler.Arithmetic.Word
import ConfigSampler.CommandLine
import ConfigSampler.Compression.BitReader
import ConfigSampler.Compression.Gzip
import ConfigSampler.Compression.Huffman
import ConfigSampler.Compression.Inflate
import ConfigSampler.Dimacs.Document
import ConfigSampler.Dimacs.File
import ConfigSampler.Dimacs.Reader
import ConfigSampler.Dimacs.Source
import ConfigSampler.Dimacs.Writer
import ConfigSampler.Error
import ConfigSampler.Formula.Cnf
import ConfigSampler.Formula.LiteralSet
import ConfigSampler.Formula.Variables
import ConfigSampler.Journal
import ConfigSampler.Main
import ConfigSampler.Proofs.AcceptedClauses
import ConfigSampler.Proofs.Announcements
import ConfigSampler.Proofs.ArenaClauses
import ConfigSampler.Proofs.AssertingLessons
import ConfigSampler.Proofs.Assumptions
import ConfigSampler.Proofs.Backtracking
import ConfigSampler.Proofs.Binomials
import ConfigSampler.Proofs.CandidateTotals
import ConfigSampler.Proofs.Choices
import ConfigSampler.Proofs.ClauseAccounts
import ConfigSampler.Proofs.ClauseCounts
import ConfigSampler.Proofs.ClauseNames
import ConfigSampler.Proofs.Combinations
import ConfigSampler.Proofs.Comments
import ConfigSampler.Proofs.Compaction
import ConfigSampler.Proofs.CoverageCounts
import ConfigSampler.Proofs.CoverageReports
import ConfigSampler.Proofs.CoveringLedger
import ConfigSampler.Proofs.CoveringMoves
import ConfigSampler.Proofs.CoveringStates
import ConfigSampler.Proofs.CoveringSteps
import ConfigSampler.Proofs.DecisionPoints
import ConfigSampler.Proofs.DeepShortening
import ConfigSampler.Proofs.Entailment
import ConfigSampler.Proofs.Enumeration
import ConfigSampler.Proofs.ExactTotals
import ConfigSampler.Proofs.Exhaustion
import ConfigSampler.Proofs.ExtremeModels
import ConfigSampler.Proofs.Formulas
import ConfigSampler.Proofs.FullSets
import ConfigSampler.Proofs.HandingOut
import ConfigSampler.Proofs.HeapChanges
import ConfigSampler.Proofs.HeapContents
import ConfigSampler.Proofs.HeapOrder
import ConfigSampler.Proofs.HeldNames
import ConfigSampler.Proofs.Histories
import ConfigSampler.Proofs.Housekeeping
import ConfigSampler.Proofs.IndexedNames
import ConfigSampler.Proofs.KeptMeaning
import ConfigSampler.Proofs.Layouts
import ConfigSampler.Proofs.Lessons
import ConfigSampler.Proofs.Listings
import ConfigSampler.Proofs.LiteralSets
import ConfigSampler.Proofs.LubySequence
import ConfigSampler.Proofs.Modes
import ConfigSampler.Proofs.NameTables
import ConfigSampler.Proofs.NewClauses
import ConfigSampler.Proofs.Numerals
import ConfigSampler.Proofs.Passes
import ConfigSampler.Proofs.Polarity
import ConfigSampler.Proofs.ProblemClauses
import ConfigSampler.Proofs.PropagationOutcomes
import ConfigSampler.Proofs.RandomSamples
import ConfigSampler.Proofs.ReachableStates
import ConfigSampler.Proofs.ReadOutcomes
import ConfigSampler.Proofs.ReasonChains
import ConfigSampler.Proofs.Relocation
import ConfigSampler.Proofs.Renderings
import ConfigSampler.Proofs.RequestedCandidates
import ConfigSampler.Proofs.Requests
import ConfigSampler.Proofs.Resolving
import ConfigSampler.Proofs.Rewinding
import ConfigSampler.Proofs.RunActions
import ConfigSampler.Proofs.RunContext
import ConfigSampler.Proofs.RunOutcomes
import ConfigSampler.Proofs.SampleLoop
import ConfigSampler.Proofs.Samples
import ConfigSampler.Proofs.SearchInvariant
import ConfigSampler.Proofs.SearchProgress
import ConfigSampler.Proofs.Searching
import ConfigSampler.Proofs.Shortening
import ConfigSampler.Proofs.SideBySide
import ConfigSampler.Proofs.Solutions
import ConfigSampler.Proofs.SolverAnswers
import ConfigSampler.Proofs.SolverLaws
import ConfigSampler.Proofs.StoppedRuns
import ConfigSampler.Proofs.Tidying
import ConfigSampler.Proofs.TighterBudgets
import ConfigSampler.Proofs.TrailOrder
import ConfigSampler.Proofs.TrailReasons
import ConfigSampler.Proofs.Truth
import ConfigSampler.Proofs.Turns
import ConfigSampler.Proofs.Undoing
import ConfigSampler.Proofs.UnitPropagation
import ConfigSampler.Proofs.Waiting
import ConfigSampler.Proofs.WatchLists
import ConfigSampler.Proofs.Watching
import ConfigSampler.Proofs.WorkingSets
import ConfigSampler.Random
import ConfigSampler.Report
import ConfigSampler.Sampling.Candidates
import ConfigSampler.Sampling.Combination
import ConfigSampler.Sampling.Completion
import ConfigSampler.Sampling.Covering
import ConfigSampler.Sampling.Monitor
import ConfigSampler.Sampling.RandomStrategy
import ConfigSampler.Sampling.Request
import ConfigSampler.Sampling.Run
import ConfigSampler.Sampling.Strategy
import ConfigSampler.Session
import ConfigSampler.Solver.Arena
import ConfigSampler.Solver.Basic
import ConfigSampler.Solver.Budget
import ConfigSampler.Solver.ClauseLists
import ConfigSampler.Solver.DecisionQueue
import ConfigSampler.Solver.Interface
import ConfigSampler.Solver.KeyHeap
import ConfigSampler.Solver.Learning
import ConfigSampler.Solver.Literal
import ConfigSampler.Solver.Propagation
import ConfigSampler.Solver.Restart
import ConfigSampler.Solver.Search
import ConfigSampler.Solver.Settings
import ConfigSampler.Solver.Table
import ConfigSampler.Solver.Trail
import ConfigSampler.Text.Blank
import ConfigSampler.Text.Decimal
import ConfigSampler.Text.Fixed
import ConfigSampler.Text.Utf8
