import ValuationCycle.Cache.Basic
import ValuationCycle.Cache.Dump
import ValuationCycle.Cache.Identifiers
import ValuationCycle.Cache.Pool
import ValuationCycle.Cache.Source
import ValuationCycle.Cycle.Basic
import ValuationCycle.Cycle.Carry
import ValuationCycle.Cycle.Config
import ValuationCycle.Cycle.Inputs
import ValuationCycle.Cycle.Marks
import ValuationCycle.Cycle.Plans
import ValuationCycle.Cycle.Query
import ValuationCycle.Cycle.Release
import ValuationCycle.Cycle.Reporting
import ValuationCycle.Cycle.State
import ValuationCycle.Cycle.Statistics
import ValuationCycle.Decimal.Binary64
import ValuationCycle.Decimal.Shortest
import ValuationCycle.Execution.Basic
import ValuationCycle.Execution.Error
import ValuationCycle.Execution.Run
import ValuationCycle.Execution.Timeline
import ValuationCycle.Execution.Waiting
import ValuationCycle.Function.Invocation
import ValuationCycle.Function.Kind
import ValuationCycle.Function.Parameters
import ValuationCycle.Function.Repository
import ValuationCycle.Graph.Basic
import ValuationCycle.Graph.Delta
import ValuationCycle.Graph.Node
import ValuationCycle.Job.Item
import ValuationCycle.Job.Node
import ValuationCycle.Json.Document
import ValuationCycle.Json.Number
import ValuationCycle.Json.Numeral
import ValuationCycle.Json.Quoted
import ValuationCycle.Json.Record
import ValuationCycle.Json.Token
import ValuationCycle.Json.Value
import ValuationCycle.Market.Changes
import ValuationCycle.Market.LiveData
import ValuationCycle.Order
import ValuationCycle.Proofs.Cache.Dumping
import ValuationCycle.Proofs.Cache.Identifiers
import ValuationCycle.Proofs.Cache.Issuing
import ValuationCycle.Proofs.Cache.Lending
import ValuationCycle.Proofs.Cache.Naming
import ValuationCycle.Proofs.Cache.Pooling
import ValuationCycle.Proofs.Cache.Rendering
import ValuationCycle.Proofs.Cache.Source
import ValuationCycle.Proofs.Cache.Storing
import ValuationCycle.Proofs.Cycle.Carrying
import ValuationCycle.Proofs.Cycle.Chains
import ValuationCycle.Proofs.Cycle.Copying
import ValuationCycle.Proofs.Cycle.Course
import ValuationCycle.Proofs.Cycle.Desk
import ValuationCycle.Proofs.Cycle.Executing
import ValuationCycle.Proofs.Cycle.Inheriting
import ValuationCycle.Proofs.Cycle.Interrupting
import ValuationCycle.Proofs.Cycle.Isolation
import ValuationCycle.Proofs.Cycle.Life
import ValuationCycle.Proofs.Cycle.Listing
import ValuationCycle.Proofs.Cycle.Loading
import ValuationCycle.Proofs.Cycle.Marks
import ValuationCycle.Proofs.Cycle.Owning
import ValuationCycle.Proofs.Cycle.Passes
import ValuationCycle.Proofs.Cycle.Pinning
import ValuationCycle.Proofs.Cycle.Preparing
import ValuationCycle.Proofs.Cycle.Querying
import ValuationCycle.Proofs.Cycle.Remaining
import ValuationCycle.Proofs.Cycle.Reporting
import ValuationCycle.Proofs.Cycle.Reuse
import ValuationCycle.Proofs.Cycle.Sharing
import ValuationCycle.Proofs.Cycle.Transparency
import ValuationCycle.Proofs.Cycle.Waiting
import ValuationCycle.Proofs.Cycle.Yield
import ValuationCycle.Proofs.Execution.Coherent
import ValuationCycle.Proofs.Execution.Interleaving
import ValuationCycle.Proofs.Execution.Scheduling
import ValuationCycle.Proofs.Execution.Settled
import ValuationCycle.Proofs.Execution.Steps
import ValuationCycle.Proofs.Execution.Stopping
import ValuationCycle.Proofs.Execution.Stored
import ValuationCycle.Proofs.Execution.Working
import ValuationCycle.Proofs.Function.Registering
import ValuationCycle.Proofs.Graph.Built
import ValuationCycle.Proofs.Graph.Delta
import ValuationCycle.Proofs.Graph.Edges
import ValuationCycle.Proofs.Graph.Extract
import ValuationCycle.Proofs.Graph.Indexing
import ValuationCycle.Proofs.Graph.Membership
import ValuationCycle.Proofs.Graph.Visits
import ValuationCycle.Proofs.Job.Answers
import ValuationCycle.Proofs.Job.Dispatching
import ValuationCycle.Proofs.Job.Lookups
import ValuationCycle.Proofs.Json.Nesting
import ValuationCycle.Proofs.Json.Reading
import ValuationCycle.Proofs.Json.Sameness
import ValuationCycle.Proofs.Json.Zeros
import ValuationCycle.Proofs.Market.Announcing
import ValuationCycle.Proofs.Market.Snapshots
import ValuationCycle.Proofs.Wire.Codecs
import ValuationCycle.Proofs.Wire.Faults
import ValuationCycle.Proofs.Wire.Names
import ValuationCycle.Proofs.Wire.Nesting
import ValuationCycle.Proofs.Wire.PropertySets
import ValuationCycle.Proofs.Wire.Rereading
import ValuationCycle.Properties
import ValuationCycle.Specification
import ValuationCycle.Summary
import ValuationCycle.Target
import ValuationCycle.Text.CodeRanges
import ValuationCycle.Text.Combining
import ValuationCycle.Text.Invisible
import ValuationCycle.Text.Literal
import ValuationCycle.Time
import ValuationCycle.View.Basic
import ValuationCycle.View.Model
import ValuationCycle.View.Policy
import ValuationCycle.View.Result
import ValuationCycle.Wire.Codec
import ValuationCycle.Wire.Message
import ValuationCycle.Workspace
