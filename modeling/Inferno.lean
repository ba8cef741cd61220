import Inferno.Common.Assert
import Inferno.Lib.Loop
import Inferno.Lib.Backtrack
import Inferno.SYM.SubsetResult
import Inferno.CSP.Constraint
import Inferno.CSP.Plan
import Inferno.CSP.BackjumpingSolver
import Inferno.CSP.SearchTree
import Inferno.CSP.Represents
import Inferno.CSP.ReferenceExact
import Inferno.CSP.BackjumpingExact
import Inferno.DB.DomainExtension
import Inferno.DB.ChannelInvariant
import Inferno.DB.ChannelRuns
import Inferno.DB.ChannelSafety
import Inferno.DB.DFRelation
import Inferno.SYM.BooleanExpression
import Inferno.SYM.PredicateOperator
import Inferno.SYM.SymbolExpression
import Inferno.Agents.SequencePlan
import Inferno.Agents.SequenceQuery
import Inferno.DB.Lacing
import Inferno.DB.LacingSort
import Inferno.DB.LacingExact
import Inferno.DB.CategoryRelation
import Inferno.SYM.CategoryRange
import Inferno.Common.LambdaLoops
import Inferno.Common.Orderable
import Inferno.SYM.TruthTable
import Inferno.SYM.Derivation
import Inferno.SYM.TruthTableSolver
import Inferno.SYM.PreSolveExact
import Inferno.SYM.PreSolveDatabase
import Inferno.SYM.PreSolveSurvival
import Inferno.CSP.Rejections
import Inferno.Agents.AugTreePtr
import Inferno.Agents.DependenciesExact
import Inferno.Lang.UniqueNames
import Inferno.Agents.ExtensionsFresh
import Inferno.Lib.DepthFirst
import Inferno.SYM.Rewriters
import Inferno.Engine.AndRulePlan
import Inferno.Lib.FoldM
import Inferno.Engine.KeyersExact
import Inferno.Engine.PlanExact
import Inferno.Engine.PlanCoverage
import Inferno.Engine.ScrPlan
import Inferno.Engine.ScrRun
import Inferno.Engine.ScrScope
import Inferno.Engine.ScrUncoupled
import Inferno.Lib.PathOrder
import Inferno.DB.DFOrder
import Inferno.DB.FreeZone
import Inferno.DB.TreeZone
import Inferno.UP.Patches
import Inferno.UP.Passes
import Inferno.Lib.ThreeWay
import Inferno.SYM.DerivationExact
import Inferno.SYM.RelationshipExact
import Inferno.SYM.Karnaugh
import Inferno.SYM.KarnaughExact
import Inferno.Agents.SubContainers
import Inferno.Agents.CollectionQuery
import Inferno.Engine.ConjectureExact
import Inferno.Agents.Regeneration
import Inferno.Agents.StarRuns
import Inferno.Agents.StarScript
import Inferno.Agents.StarSplits
import Inferno.Agents.PatternTree
import Inferno.Agents.ClutchedClauses
import Inferno.Agents.AgentSpecs
import Inferno.Agents.DisjunctionExact
import Inferno.Helpers.SimpleCompare
import Inferno.SYM.ClutchExact
import Inferno.Helpers.FloatLiterals
import Inferno.Helpers.SimpleCompareExact
import Inferno.Helpers.SimpleCompareOrder
import Inferno.DB.SimpleCompareRelation
import Inferno.SYM.OrderRanges
import Inferno.SYM.TruthTableLaws
import Inferno.DB.LacingTotal
import Inferno.DB.DBWalk
import Inferno.DB.DFWalk
import Inferno.Agents.StuffAgent
import Inferno.Lib.IncreasingSubsequence
import Inferno.UP.OrderingPass
import Inferno.UP.NextDescendants
import Inferno.UP.OrderingRanges
import Inferno.UP.OrderingSettle
import Inferno.UP.AltOrderingChecker
import Inferno.UP.ChooseCopies
import Inferno.DB.ZoneLinks
import Inferno.UP.TreeZoneRelation
import Inferno.Tree.FindMember
import Inferno.Engine.ReplacePlan
import Inferno.Engine.KeyedOnce
import Inferno.Lang.Literals
import Inferno.Lang.LiteralsExact
import Inferno.Lang.Fingerprinter
import Inferno.Lang.FingerprintOrder
import Inferno.Lang.SortDecls
import Inferno.Tree.TypeOf
import Inferno.Tree.TypeOfExact
import Inferno.Helpers.SimpleCompareAlike
import Inferno.DB.DuplicateExact
import Inferno.DB.ZoneRoundTrip
import Inferno.DB.HeapCompare
import Inferno.DB.ContainerMerge
import Inferno.UP.LongestInOrder
import Inferno.Lang.Indenter
import Inferno.Tree.SortMapById
import Inferno.Lang.PostPass
import Inferno.Lang.PostPassExact
import Inferno.Lang.PostPassNested
import Inferno.PTrans.SplitDisjunctions
import Inferno.PTrans.SplitExact
import Inferno.Agents.Itemise
import Inferno.Agents.Overlay
import Inferno.Helpers.Flatten
import Inferno.Helpers.Walk
import Inferno.Helpers.WalkExact
import Inferno.DB.MutableZone
import Inferno.DB.ReplacedZone
import Inferno.DB.SwapExact
import Inferno.Agents.PreRestriction
import Inferno.DB.Readings
import Inferno.DB.DuplicateReadings
import Inferno.DB.MergeReadings
import Inferno.UP.Meaning
import Inferno.UP.CopyMeaning
import Inferno.UP.MergeLoop
import Inferno.UP.MergeMeaning
import Inferno.UP.TreeUpdate
