import TraceMind.Ana.Validator
import TraceMind.Compile.Governed
import TraceMind.Control.Generator
import TraceMind.Control.HttpFresh
import TraceMind.Control.MetaController
import TraceMind.Control.ProofChain
import TraceMind.Control.Reliability
import TraceMind.Dsl.Agreement
import TraceMind.Dsl.Evaluator
import TraceMind.Dsl.Ir
import TraceMind.Dsl.IrRun
import TraceMind.Dsl.Nodes
import TraceMind.Flow.CompiledRun
import TraceMind.Flow.Results
import TraceMind.Governance.Approvals
import TraceMind.Governance.Rollback
import TraceMind.Governance.SharedLog
import TraceMind.Guard.Filters
import TraceMind.Intent.Coverage
import TraceMind.Intent.Journal
import TraceMind.Intent.ProfileChain
import TraceMind.Intent.Sealing
import TraceMind.Intent.SharedSession
import TraceMind.KStore.Jsonl
import TraceMind.KStore.Stores
import TraceMind.Llm.Cache
import TraceMind.Memory.Store
import TraceMind.Patch.Changes
import TraceMind.Patch.Lifecycle
import TraceMind.Patterns.Splice
import TraceMind.Pipeline.Analysis
import TraceMind.Planner.DataFlow
import TraceMind.Policy.Conditions
import TraceMind.Policy.Evaluator
import TraceMind.Policy.TestRunner
import TraceMind.Policy.Tuner
import TraceMind.Queue.Attempts
import TraceMind.Queue.DeadLetters
import TraceMind.Queue.Directory
import TraceMind.Queue.Locks
import TraceMind.Queue.Reports
import TraceMind.Queue.SharedResults
import TraceMind.Queue.Timetable
import TraceMind.Queue.Torn
import TraceMind.Runtime.BundleRun
import TraceMind.Storage.LogRuns
import TraceMind.Transport.Crash
import TraceMind.Transport.Retries
import TraceMind.Triggers.Cron
import TraceMind.Triggers.Template
import TraceMind.Validate.Overlap
import TraceMind.Validate.Timing
import TraceMind.Verify.Deepening
import TraceMind.Verify.Exploration
import TraceMind.Verify.Faithful
import TraceMind.Verify.Fidelity
import TraceMind.Verify.Network
import TraceMind.Verify.PeerCalls
import TraceMind.Verify.Saturation
import TraceMind.Verify.StoreHash
import TraceMind.Workflow.Composer
