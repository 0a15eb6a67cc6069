import Contreap.Model.Treap
import Contreap.Model.Sequential
import Contreap.Model.Scheduler
import Contreap.Proofs.Treap.Tree
import Contreap.Proofs.Treap.Versions
import Contreap.Proofs.Treap.Canonical
import Contreap.Proofs.Treap.Update
import Contreap.Proofs.Treap.Build
import Contreap.Proofs.Treap.Query
import Contreap.Proofs.Treap.Sharing
import Contreap.Proofs.Treap.History
import Contreap.Proofs.Sequential
import Contreap.Proofs.Scheduler.Plan
import Contreap.Proofs.Scheduler.Step
import Contreap.Proofs.Scheduler.Execute
import Contreap.Proofs.Scheduler.Complete
import Contreap.Proofs.Scheduler.Reference
import Contreap.Proofs.Scheduler.Trees
import Contreap.Proofs.Scheduler.Flow
import Contreap.Proofs.Scheduler.Crew
import Contreap.Proofs.Scheduler.Invariant
import Contreap.Proofs.Scheduler.Threads
import Contreap.Proofs.Scheduler.Reading
import Contreap.Proofs.Scheduler.Refinement
import Contreap.Proofs.Scheduler.Commits
import Contreap.Proofs.Scheduler.Progress
import Contreap.Proofs.Scheduler.Snapshot
import Contreap.Proofs.Scheduler.Estimates
import Contreap.Proofs.Scheduler.Numbering
import Contreap.Proofs.Scheduler.Turns
import Contreap.Proofs.Scheduler.Stepwise
import Contreap.Lib.Word
import Contreap.Lib.Rijndael
import Contreap.Lib.Wire
import Contreap.Lib.Heap
import Contreap.Lib.Cartesian
import Contreap.Lib.Lookup
import Contreap.Lib.Ownership
import Contreap.Lib.Transition
import Contreap.Lib.CatchUp
import Contreap.Lib.Ranking
import Contreap.Proofs.Scheduler.Termination
import Contreap.Proofs.Scheduler.Finish
import Contreap.Model.Reader
import Contreap.Proofs.Treap.Reader
import Contreap.Model.Interface
import Contreap.Proofs.Interface
import Contreap.Model.Servers
import Contreap.Proofs.Servers.Client
import Contreap.Proofs.Servers.Sequential
import Contreap.Proofs.Servers.Contreap
import Contreap.Proofs.Servers.Batch
import Contreap.Proofs.Scheduler.Blocks
import Contreap.Model.QueryProcessor
import Contreap.Model.Batch
import Contreap.Model.Pam
import Contreap.Model.Workload
import Contreap.Model.AesHash
import Contreap.Proofs.Pam.Tree
import Contreap.Proofs.Pam.Update
import Contreap.Proofs.Pam.Augment
import Contreap.Proofs.Pam.Frame
import Contreap.Proofs.Pam.Query
import Contreap.Proofs.Pam.Contents
import Contreap.Proofs.Pam.Canonical
import Contreap.Proofs.Pam.Exact
import Contreap.Proofs.Pam.TimeTravel
import Contreap.Proofs.Pam.History
import Contreap.Proofs.Batch.Routing
import Contreap.Proofs.Batch.Versions
import Contreap.Proofs.Batch.Agreement
import Contreap.Proofs.PointQuery
import Contreap.Proofs.QueryProcessor
import Contreap.Proofs.Workload
import Contreap.Proofs.AesHash
