import Concolic.Arena.Basic
import Concolic.Arena.Change
import Concolic.Arena.Walk
import Concolic.BinaryFloat.Arithmetic
import Concolic.BinaryFloat.Basic
import Concolic.BinaryFloat.Decimal
import Concolic.Cancellation
import Concolic.Clause
import Concolic.Config.Document
import Concolic.Config.Error
import Concolic.Config.Settings
import Concolic.Config.Validation
import Concolic.Coverage
import Concolic.Engine
import Concolic.ExploredPaths
import Concolic.Failure
import Concolic.Folding.Arithmetic
import Concolic.Folding.Basic
import Concolic.Folding.Strings
import Concolic.IdSets
import Concolic.Inlining
import Concolic.Literal
import Concolic.Memory
import Concolic.Method
import Concolic.Model
import Concolic.Number
import Concolic.Parameters
import Concolic.Program
import Concolic.Proofs.ExploredPaths
import Concolic.Proofs.Folding.Words
import Concolic.Proofs.Frontier
import Concolic.Proofs.Replay.CallTree
import Concolic.Proofs.Replay.Execution
import Concolic.Proofs.Replay.Flattening
import Concolic.Proofs.Replay.Initializers
import Concolic.Proofs.Replay.Linear
import Concolic.Proofs.Search.Attempt
import Concolic.Proofs.Search.Bookkeeping
import Concolic.Proofs.Search.Exhaustion
import Concolic.Proofs.Search.Revisits
import Concolic.Proofs.Search.Run
import Concolic.Proofs.Search.Termination
import Concolic.Proofs.State.Equality
import Concolic.Proofs.State.Linear
import Concolic.Proofs.Term.Equality
import Concolic.Proofs.Term.Inverse
import Concolic.Query
import Concolic.Reanimation
import Concolic.Renaming
import Concolic.Replay
import Concolic.Revision
import Concolic.Script
import Concolic.Search
import Concolic.Spanning
import Concolic.State.Basic
import Concolic.State.Builder
import Concolic.Term.Basic
import Concolic.Term.Build
import Concolic.Term.Names
import Concolic.Term.Operator
import Concolic.TestSuite
import Concolic.Text.Blank
import Concolic.Text.Printable
import Concolic.Text.Quoted
import Concolic.Text.Units
import Concolic.Trace
import Concolic.Traversal
import Concolic.UnionFind
import Concolic.ValueType
import Concolic.ValueType.Merge
import Concolic.Visit
import Concolic.Yaml.Document
import Concolic.Yaml.Document.Parser
import Concolic.Yaml.Scalar
import Concolic.Yaml.Scalar.Written
import Concolic.Yaml.Source
import Concolic.Yaml.Tag
import Concolic.Yaml.Token
import Concolic.Proofs.Folding.Terms
import Concolic.Proofs.Folding.Contradictions
import Concolic.Proofs.Search.Failures
import Concolic.Proofs.Folding.Failures
import Concolic.Proofs.Search.ConstantBranches
import Concolic.Proofs.Folding.Meaning
import Concolic.Proofs.Replay.Truncation
import Concolic.Proofs.Replay.CallSites
import Concolic.Proofs.Inlining.Rounds
import Concolic.Proofs.State.Runs
import Concolic.Proofs.Revision
import Concolic.Proofs.Term.Identity
import Concolic.Proofs.Traversal
import Concolic.Proofs.UnionFind
import Concolic.Proofs.Memory.Sets
import Concolic.Proofs.Memory.Spaces
import Concolic.Proofs.Memory.Aliasing
import Concolic.Proofs.Spanning
import Concolic.Proofs.Arena.Slots
import Concolic.Proofs.Arena.Validity
import Concolic.Proofs.Arena.Copies
import Concolic.Proofs.Reanimation.Discovery
import Concolic.Proofs.Reanimation.Runs
import Concolic.Proofs.Reanimation.Heap
import Concolic.Proofs.Reanimation.Parameters
import Concolic.Proofs.Search.AttemptBooks
import Concolic.Proofs.Search.Reports
import Concolic.Proofs.Search.Abandonment
import Concolic.Proofs.Visits
import Concolic.Proofs.Coverage
import Concolic.Proofs.Replay.Switches
import Concolic.Proofs.Replay.Phis
import Concolic.Proofs.Folding.Results
import Concolic.Proofs.Folding.Stability
import Concolic.Proofs.Folding.NormalForm
import Concolic.Proofs.Arena.Bisimulation
import Concolic.Proofs.Arena.Depth
import Concolic.Proofs.Reanimation.Statics
import Concolic.Proofs.Inlining.Completeness
import Concolic.Proofs.Arena.Reduction
import Concolic.Proofs.Arena.Restoration
import Concolic.Proofs.Arena.Requirements
import Concolic.Proofs.Arena.TypeInfo
import Concolic.Proofs.Arena.Rejection
import Concolic.Proofs.Mutation
import Concolic.Proofs.State.Pieces
import Concolic.Proofs.Inlining.Outlines
import Concolic.Proofs.Inlining.Origins
import Concolic.Proofs.Query
import Concolic.Proofs.Text.Units
import Concolic.Proofs.Folding.Strings
import Concolic.Proofs.Text.Searching
import Concolic.Proofs.Folding.Slices
import Concolic.Proofs.Folding.Searches
import Concolic.Proofs.BinaryFloat.Widening
import Concolic.Proofs.Folding.Readings
import Concolic.Proofs.ValueType.Values
import Concolic.Proofs.ValueType.Merging
import Concolic.Proofs.State.Building
import Concolic.Proofs.UnionFind.Partition
import Concolic.Proofs.UnionFind.Ids
import Concolic.Proofs.BinaryFloat.Finite
import Concolic.Proofs.Folding.Reflexivity
import Concolic.Proofs.Term.Renaming
import Concolic.Proofs.Negation
