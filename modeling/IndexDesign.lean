import IndexDesign.Aggregate
import IndexDesign.Config.Basic
import IndexDesign.Config.Fault
import IndexDesign.Config.File
import IndexDesign.Cost.Model
import IndexDesign.Cost.Selectivity
import IndexDesign.Decimal.Double
import IndexDesign.Decimal.Fixed
import IndexDesign.Decimal.Shortest
import IndexDesign.Decimal.Text
import IndexDesign.DesignError
import IndexDesign.Entity
import IndexDesign.Field
import IndexDesign.Graph.Basic
import IndexDesign.Graph.Traversal
import IndexDesign.Index.Basic
import IndexDesign.Index.Build
import IndexDesign.Model
import IndexDesign.ModelError
import IndexDesign.Plan.Arena
import IndexDesign.Plan.Basic
import IndexDesign.Plan.Error
import IndexDesign.Plan.Lookup
import IndexDesign.Plan.Maintenance
import IndexDesign.Plan.ParentRule
import IndexDesign.Plan.Rejection
import IndexDesign.Plan.Search
import IndexDesign.Plan.State
import IndexDesign.Plan.Step
import IndexDesign.Plan.Tree
import IndexDesign.Proofs.AtLeastOne
import IndexDesign.Proofs.Counts
import IndexDesign.Proofs.Doubles
import IndexDesign.Proofs.Entity
import IndexDesign.Proofs.Exact
import IndexDesign.Proofs.Graph.Closed
import IndexDesign.Proofs.Graph.Connected
import IndexDesign.Proofs.Graph.JoinOrder
import IndexDesign.Proofs.Graph.Leaves
import IndexDesign.Proofs.Graph.LongestPath
import IndexDesign.Proofs.Graph.Parts
import IndexDesign.Proofs.Graph.Path
import IndexDesign.Proofs.Graph.Preorder
import IndexDesign.Proofs.Graph.Split
import IndexDesign.Proofs.Graph.Tree
import IndexDesign.Proofs.Graph.Union
import IndexDesign.Proofs.Index.Accepted
import IndexDesign.Proofs.Index.Build
import IndexDesign.Proofs.Index.Descriptor
import IndexDesign.Proofs.Index.Pool
import IndexDesign.Proofs.Plan.AggregatingView
import IndexDesign.Proofs.Plan.Aggregation
import IndexDesign.Proofs.Plan.Bounds
import IndexDesign.Proofs.Plan.Charged
import IndexDesign.Proofs.Plan.Compaction
import IndexDesign.Proofs.Plan.Correlated
import IndexDesign.Proofs.Plan.CostRatio
import IndexDesign.Proofs.Plan.DeadEnds
import IndexDesign.Proofs.Plan.Enumeration
import IndexDesign.Proofs.Plan.Estimates
import IndexDesign.Proofs.Plan.Executable
import IndexDesign.Proofs.Plan.ForeignKeys
import IndexDesign.Proofs.Plan.Grammar
import IndexDesign.Proofs.Plan.Growth
import IndexDesign.Proofs.Plan.InMemory
import IndexDesign.Proofs.Plan.Joins
import IndexDesign.Proofs.Plan.LargerPool
import IndexDesign.Proofs.Plan.Lineage
import IndexDesign.Proofs.Plan.LookedUp
import IndexDesign.Proofs.Plan.Numbering
import IndexDesign.Proofs.Plan.OwnView
import IndexDesign.Proofs.Plan.Pending
import IndexDesign.Proofs.Plan.Reached
import IndexDesign.Proofs.Plan.Room
import IndexDesign.Proofs.Plan.Runs
import IndexDesign.Proofs.Plan.SpareChecks
import IndexDesign.Proofs.Plan.Steps
import IndexDesign.Proofs.Plan.Unfiltered
import IndexDesign.Proofs.Pointwise
import IndexDesign.Proofs.Selection.Attribution
import IndexDesign.Proofs.Selection.Choices
import IndexDesign.Proofs.Selection.Completeness
import IndexDesign.Proofs.Selection.Consistency
import IndexDesign.Proofs.Selection.ConsistentTable
import IndexDesign.Proofs.Selection.CostTable
import IndexDesign.Proofs.Selection.Exactness
import IndexDesign.Proofs.Selection.Faults
import IndexDesign.Proofs.Selection.Layout
import IndexDesign.Proofs.Selection.Meaning
import IndexDesign.Proofs.Selection.Needed
import IndexDesign.Proofs.Selection.NonNegative
import IndexDesign.Proofs.Selection.Origin
import IndexDesign.Proofs.Selection.PlanFor
import IndexDesign.Proofs.Selection.Presolve
import IndexDesign.Proofs.Selection.Readback
import IndexDesign.Proofs.Selection.ReportedCost
import IndexDesign.Proofs.Selection.Soundness
import IndexDesign.Proofs.Selection.Useless
import IndexDesign.Proofs.SortedSet
import IndexDesign.Proofs.Statement.Build
import IndexDesign.Proofs.Statement.Contents
import IndexDesign.Proofs.Statement.HasView
import IndexDesign.Proofs.Statement.Plannable
import IndexDesign.Proofs.Statement.Support
import IndexDesign.Proofs.Statement.Update
import IndexDesign.Proofs.Statement.View
import IndexDesign.Proofs.ZeroOne.Activity
import IndexDesign.Proofs.ZeroOne.Bound
import IndexDesign.Proofs.ZeroOne.BranchAndBound
import IndexDesign.Proofs.ZeroOne.Completion
import IndexDesign.Proofs.ZeroOne.FixedPoint
import IndexDesign.Proofs.ZeroOne.Integral
import IndexDesign.Proofs.ZeroOne.Minimal
import IndexDesign.Proofs.ZeroOne.Propagation
import IndexDesign.Proofs.ZeroOne.Scope
import IndexDesign.Scalar
import IndexDesign.Selection.Attribution
import IndexDesign.Selection.CostTable
import IndexDesign.Selection.Design
import IndexDesign.Selection.Error
import IndexDesign.Selection.Problem
import IndexDesign.Selection.Search
import IndexDesign.SortedSet
import IndexDesign.Statement.Query
import IndexDesign.Statement.Update
import IndexDesign.Statement.View
import IndexDesign.Statement.Workload
import IndexDesign.Toml.Document
import IndexDesign.Toml.Scalar
import IndexDesign.Toml.Text
import IndexDesign.Toml.Value
import IndexDesign.ZeroOne.Bound
import IndexDesign.ZeroOne.BranchAndBound
import IndexDesign.ZeroOne.Error
import IndexDesign.ZeroOne.Pass
import IndexDesign.ZeroOne.Program
import IndexDesign.ZeroOne.Propagation
