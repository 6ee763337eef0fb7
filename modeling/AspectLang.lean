import AspectLang.Automaton.Numbering
import AspectLang.Binding.Comparison
import AspectLang.Export.Environment
import AspectLang.Export.Unit
import AspectLang.Main
import AspectLang.Proofs.Grammar.Derivation
import AspectLang.Proofs.Automaton.StateItems
import AspectLang.Proofs.Automaton.ItemGraph
import AspectLang.Proofs.Automaton.FirstSets
import AspectLang.Proofs.Automaton.LookaheadClosure
import AspectLang.Proofs.Automaton.Propagation
import AspectLang.Proofs.Automaton.LookaheadBounds
import AspectLang.Proofs.Automaton.Proposals
import AspectLang.Proofs.Automaton.ViablePrefix
import AspectLang.Proofs.Automaton.Driver
import AspectLang.Proofs.Automaton.Completeness
import AspectLang.Proofs.Parse.Steps
import AspectLang.Proofs.Parse.Sentences
import AspectLang.Proofs.Binding.Rules
import AspectLang.Proofs.Binding.Coinduction
import AspectLang.Proofs.Binding.Equivalence
import AspectLang.Proofs.Binding.Grounded
import AspectLang.Proofs.Binding.Arena
import AspectLang.Proofs.Binding.Passes
import AspectLang.Proofs.Binding.Termination
import AspectLang.Proofs.Parse.PlainTexts
import AspectLang.Proofs.Parse.Profiles
import AspectLang.Proofs.Parse.BaseActions
import AspectLang.Proofs.Parse.AspectActions
import AspectLang.Proofs.Parse.Effects
import AspectLang.Proofs.Parse.Contributions
import AspectLang.Proofs.Parse.Balance
import AspectLang.Proofs.Parse.Outcomes
import AspectLang.Proofs.Automaton.SharedStates
import AspectLang.Proofs.Automaton.SententialForms
import AspectLang.Proofs.Parse.AngleBrackets
import AspectLang.Proofs.Parse.Reading
import AspectLang.Proofs.Parse.TrialRuns
import AspectLang.Proofs.Parse.ReductionChains
import AspectLang.Proofs.Parse.Termination
import AspectLang.Proofs.Flow.Paths
import AspectLang.Proofs.Flow.Reports
import AspectLang.Proofs.Flow.Occurrences
import AspectLang.Proofs.Flow.DefiniteAssignment
import AspectLang.Proofs.Parse.Lockstep
import AspectLang.Proofs.Parse.SideBySide
import AspectLang.Proofs.Batch.Independence
import AspectLang.Proofs.Parse.ProceedMarks
import AspectLang.Proofs.Parse.ValuesInStep
import AspectLang.Proofs.Parse.BaseActionsInStep
import AspectLang.Proofs.Parse.PlaceholderActions
import AspectLang.Proofs.Parse.PlainUnits
import AspectLang.Proofs.Token.Scanning
import AspectLang.Proofs.Token.LongestMatch
import AspectLang.Proofs.Parse.Regions
import AspectLang.Proofs.Parse.Layouts
import AspectLang.Proofs.Parse.BaseActionsInPlace
import AspectLang.Proofs.Parse.AspectActionsInPlace
import AspectLang.Proofs.Parse.Placement
import AspectLang.Proofs.Parse.Containment
import AspectLang.Proofs.Binding.Snapshots
import AspectLang.Proofs.Automaton.CanonicalSets
import AspectLang.Proofs.Automaton.ConflictCounts
import AspectLang.Proofs.Parse.Frames
import AspectLang.Proofs.Parse.Phases
import AspectLang.Proofs.Parse.Stages
import AspectLang.Proofs.Parse.Salvaging
import AspectLang.Proofs.Automaton.LoneItems
import AspectLang.Proofs.Parse.ClosingTokens
import AspectLang.Proofs.Parse.OpenMethods
import AspectLang.Proofs.Parse.CompletedDeclarations
import AspectLang.Proofs.Parse.RecoveryBudgets
import AspectLang.Proofs.Parse.DisabledDialect
import AspectLang.Proofs.Aspect.ProblemSpans
import AspectLang.Proofs.Flow.ReportRanges
import AspectLang.Proofs.Parse.AspectActionsSeated
import AspectLang.Proofs.Parse.SeatedRuns
import AspectLang.Proofs.Batch.FileReports
import AspectLang.Proofs.Aspect.PointcutGrammar
import AspectLang.Proofs.Binding.DeclaredNames
import AspectLang.Proofs.Flow.Exceptions
import AspectLang.Proofs.Flow.InferredExceptions
import AspectLang.Proofs.Parse.Suggestions
import AspectLang.Proofs.Parse.ShortestCompletions
import AspectLang.Proofs.Automaton.TakenKinds
import AspectLang.Proofs.Parse.SplitTokens
import AspectLang.Proofs.Aspect.TopLevelSplitting
import AspectLang.Proofs.Aspect.DeclaredParents
import AspectLang.Proofs.Binding.ModifierChanges
import AspectLang.Proofs.Binding.FieldTypes
import AspectLang.Proofs.Flow.Additions
import AspectLang.Proofs.Token.Relexing
import AspectLang.Proofs.Token.Excerpts
import AspectLang.Proofs.Aspect.RunTexts
import AspectLang.Proofs.Parse.ShownTokens
import AspectLang.Proofs.Parse.ViewedMachines
import AspectLang.Proofs.Parse.CollectedRuns
import AspectLang.Proofs.Aspect.PointcutChains
import AspectLang.Proofs.Aspect.PointcutDisplay
import AspectLang.Proofs.Messages
import AspectLang.Proofs.Binding.SecondPass
import AspectLang.Proofs.Binding.DeclaredTypes
import AspectLang.Proofs.Parse.ListsOfSegments
import AspectLang.Proofs.Automaton.ExactFirstSets
import AspectLang.Proofs.Parse.WholeDeclarations
import AspectLang.Proofs.Parse.UnfinishedLines
import AspectLang.Proofs.Parse.GivenTokens
import AspectLang.Proofs.Source.LinesOfOffsets
