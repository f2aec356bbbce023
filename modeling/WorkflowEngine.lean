import WorkflowEngine.Cluster.Basic
import WorkflowEngine.Cluster.Engine
import WorkflowEngine.Cluster.Error
import WorkflowEngine.Cluster.Schedule
import WorkflowEngine.Cluster.Step
import WorkflowEngine.CommandLine
import WorkflowEngine.Config.Basic
import WorkflowEngine.Config.Load
import WorkflowEngine.Config.Toml
import WorkflowEngine.Data.Atom
import WorkflowEngine.Data.Cell
import WorkflowEngine.Data.Handle
import WorkflowEngine.Data.PartitionVector
import WorkflowEngine.Data.Sequence
import WorkflowEngine.Data.Settings
import WorkflowEngine.Decoding.Basic
import WorkflowEngine.Decoding.Error
import WorkflowEngine.Decoding.Record
import WorkflowEngine.Decoding.Variant
import WorkflowEngine.Dispatch.Dispatcher
import WorkflowEngine.Dispatch.Ledger
import WorkflowEngine.Dispatch.Pool
import WorkflowEngine.Evaluation.Effect
import WorkflowEngine.Evaluation.Join
import WorkflowEngine.Evaluation.Machine
import WorkflowEngine.Failure.Basic
import WorkflowEngine.Failure.Codec
import WorkflowEngine.FileTree
import WorkflowEngine.Job.Record
import WorkflowEngine.Json.Basic
import WorkflowEngine.Json.Draft
import WorkflowEngine.Json.Lexeme
import WorkflowEngine.Json.Path
import WorkflowEngine.Json.Printer
import WorkflowEngine.Json.Reader
import WorkflowEngine.Json.SyntaxError
import WorkflowEngine.Json.Value
import WorkflowEngine.Log.Delivery
import WorkflowEngine.Log.Entry
import WorkflowEngine.Log.Error
import WorkflowEngine.Log.Lines
import WorkflowEngine.Log.Sink
import WorkflowEngine.Main
import WorkflowEngine.Number.Basic
import WorkflowEngine.Number.Double
import WorkflowEngine.Number.Reader
import WorkflowEngine.Number.Shortest
import WorkflowEngine.Program.Basic
import WorkflowEngine.Program.Session
import WorkflowEngine.Registry.Basic
import WorkflowEngine.Registry.Builtin
import WorkflowEngine.Registry.Trial
import WorkflowEngine.Scope.Basic
import WorkflowEngine.Scope.Timeline
import WorkflowEngine.Store.Backend
import WorkflowEngine.Store.Command
import WorkflowEngine.Store.Error
import WorkflowEngine.Store.File
import WorkflowEngine.Store.Key
import WorkflowEngine.Store.Memory
import WorkflowEngine.Store.Packed
import WorkflowEngine.Store.Table
import WorkflowEngine.Store.Transaction
import WorkflowEngine.Text.Blank
import WorkflowEngine.Text.Comparable
import WorkflowEngine.Text.Lossy
import WorkflowEngine.Text.Printable
import WorkflowEngine.Text.Quoted
import WorkflowEngine.Timestamp
import WorkflowEngine.Uuid
import WorkflowEngine.Workflow.Basic
import WorkflowEngine.Workflow.Codec
import WorkflowEngine.Workflow.Combinators
import WorkflowEngine.Workflow.Expression
import WorkflowEngine.Proofs.Outline
import WorkflowEngine.Proofs.Consistency
import WorkflowEngine.Proofs.Mail
import WorkflowEngine.Proofs.Threads
import WorkflowEngine.Proofs.Forks
import WorkflowEngine.Proofs.Reachable
import WorkflowEngine.Proofs.Records
import WorkflowEngine.Proofs.StructuredConcurrency
import WorkflowEngine.Proofs.Transitions
import WorkflowEngine.Proofs.Cancellation
import WorkflowEngine.Proofs.Draining
import WorkflowEngine.Proofs.Semantics
import WorkflowEngine.Proofs.Joins
import WorkflowEngine.Proofs.ScopeRoles
import WorkflowEngine.Proofs.Explanation
import WorkflowEngine.Proofs.Soundness
import WorkflowEngine.Proofs.OutcomeText
import WorkflowEngine.Proofs.Untouched
import WorkflowEngine.Proofs.Origins
import WorkflowEngine.Proofs.Aborts
import WorkflowEngine.Proofs.RaisingEngine
import WorkflowEngine.Proofs.JobEnds
import WorkflowEngine.Proofs.Books
import WorkflowEngine.Proofs.Accounts
import WorkflowEngine.Proofs.AtomCalls
import WorkflowEngine.Proofs.AtomCommits
import WorkflowEngine.Proofs.AtomLinearizability
import WorkflowEngine.Proofs.StoreAgreement
import WorkflowEngine.Proofs.VirtualTime
import WorkflowEngine.Proofs.WorkflowCodec
import WorkflowEngine.Proofs.OutcomeCodec
import WorkflowEngine.Proofs.WriteOnce
import WorkflowEngine.Proofs.Caching
import WorkflowEngine.Proofs.Halting
import WorkflowEngine.Proofs.Shutdown
import WorkflowEngine.Proofs.Appends
import WorkflowEngine.Proofs.Journal
import WorkflowEngine.Proofs.JobLogs
import WorkflowEngine.Proofs.Bookkeeping
import WorkflowEngine.Proofs.Evaluations
import WorkflowEngine.Proofs.ParallelJoin
import WorkflowEngine.Proofs.ChoiceJoin
import WorkflowEngine.Proofs.NormalForm
import WorkflowEngine.Proofs.SequenceReads
import WorkflowEngine.Proofs.Coherence
import WorkflowEngine.Proofs.SequenceItems
import WorkflowEngine.Proofs.Vectors
import WorkflowEngine.Proofs.Contention
import WorkflowEngine.Proofs.TransactProgress
import WorkflowEngine.Proofs.Increments
import WorkflowEngine.Proofs.Retries
import WorkflowEngine.Proofs.Loads
import WorkflowEngine.Proofs.Additions
import WorkflowEngine.Proofs.Publication
import WorkflowEngine.Proofs.Readers
import WorkflowEngine.Proofs.AllOrNothing
import WorkflowEngine.Proofs.Versions
import WorkflowEngine.Proofs.Combinators
import WorkflowEngine.Proofs.Finding
import WorkflowEngine.Proofs.ChainRuns
import WorkflowEngine.Proofs.Atomicity
import WorkflowEngine.Proofs.Isolation
import WorkflowEngine.Proofs.LogEntries
import WorkflowEngine.Proofs.LogLines
import WorkflowEngine.Proofs.Placeholders
import WorkflowEngine.Proofs.Lineage
import WorkflowEngine.Proofs.CancelledScopes
import WorkflowEngine.Proofs.Acceptance
import WorkflowEngine.Proofs.ChunkSizes
import WorkflowEngine.Proofs.ReadTexts
import WorkflowEngine.Proofs.Respellings
import WorkflowEngine.Proofs.Packing
