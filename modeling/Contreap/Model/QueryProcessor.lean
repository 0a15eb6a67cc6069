/-
The query processor: one pushing thread and a pool of client threads.

The pushing thread calls `Start`, then any number of `Push`, then `Stop`; every
client runs `process_`, an outer loop that tests `working_` and an inner loop that
dequeues and answers queries until the queue reports empty.  Each atomic operation
on shared data is one step: a store or load of the flag, an enqueue, a dequeue, a
result appended to the client's own vector, a thread started or joined.

The lock-free queue is not modelled but assumed: `try_dequeue_from_producer` hands
an element that was enqueued to one dequeuer, whichever element it likes, and
fails only when there is none.
-/
import Mathlib.Logic.Function.Basic
import Contreap.Lib.Transition

namespace QueryProcessor

/-- A query in the queue, with the number it was pushed under. -/
structure QueryContext where
  ver : Nat
  idx : Nat
  l : UInt64
  r : UInt64
  deriving DecidableEq, Repr

/-- The source stores the query's index in the field it calls `ver`. -/
structure ResultContext where
  ver : Nat
  ret : UInt64
  deriving DecidableEq, Repr

/-- Where the pushing thread is. -/
inductive Pusher
  | created
  /-- In `Start`, with this many threads begun. -/
  | starting (begun : Nat)
  /-- Between calls, after `Start` has returned. -/
  | serving
  /-- In `Stop`, with this many threads joined. -/
  | joining (joined : Nat)
  /-- `Stop` has returned. -/
  | stopped
  deriving DecidableEq, Repr

/-- Where a client thread is in `process_`. -/
inductive Client
  | unborn
  /-- About to load `working_`. -/
  | atFlag
  /-- In the inner loop, about to dequeue. -/
  | atQueue
  /-- Holding a query it has dequeued and not yet answered. -/
  | processing (q : QueryContext)
  | exited
  deriving DecidableEq, Repr

/-- What the threads share, and where each of them is. -/
structure State where
  pusher : Pusher
  working : Bool
  numQueries : Nat
  queries : List QueryContext
  clients : Nat → Client
  results : Nat → List ResultContext

/-- The next operation of the pushing thread, or of a client. -/
inductive Action
  | start
  | begin
  | push (ver : Nat) (l r : UInt64)
  | stop
  | join
  /-- The next step of a client; `pick` chooses the element a dequeue delivers. -/
  | client (id pick : Nat)

/-- `Start` has not been called. -/
def init : State where
  pusher := .created
  working := false
  numQueries := 0
  queries := []
  clients := fun _ => .unborn
  results := fun _ => []

section
variable (numThreads : Nat) (doProcess : Nat → UInt64 → UInt64 → UInt64)

/-- One step of `process_` by client `id`. -/
def processStep (s : State) (id pick : Nat) : Option State :=
  match s.clients id with
  | .unborn | .exited => none
  | .atFlag =>
      some { s with
        clients := Function.update s.clients id (if s.working then .atQueue else .exited) }
  | .atQueue =>
      if s.queries.isEmpty then
        some { s with clients := Function.update s.clients id .atFlag }
      else
        (s.queries[pick]?).map fun q =>
          { s with
            queries := s.queries.eraseIdx pick
            clients := Function.update s.clients id (.processing q) }
  | .processing q =>
      some { s with
        results := Function.update s.results id
          (s.results id ++ [{ ver := q.idx, ret := doProcess q.ver q.l q.r }])
        clients := Function.update s.clients id .atQueue }

/-- `Start`, `Push` and `Stop` are called in this order, and `Stop` joins one client after
the other. -/
def step (s : State) : Action → Option State
  | .start =>
      if s.pusher = .created then some { s with working := true, pusher := .starting 0 } else none
  | .begin =>
      match s.pusher with
      | .starting k =>
          if k < numThreads then
            some { s with
              clients := Function.update s.clients k .atFlag
              pusher := .starting (k + 1) }
          else some { s with pusher := .serving }
      | _ => none
  | .push ver l r =>
      if s.pusher = .serving then
        some { s with
          numQueries := s.numQueries + 1
          queries := s.queries ++ [{ ver := ver, idx := s.numQueries + 1, l := l, r := r }] }
      else none
  | .stop =>
      if s.pusher = .serving then some { s with working := false, pusher := .joining 0 } else none
  | .join =>
      match s.pusher with
      | .joining k =>
          if k < numThreads then
            if s.clients k = .exited then some { s with pusher := .joining (k + 1) } else none
          else some { s with pusher := .stopped }
      | _ => none
  | .client id pick => if id < numThreads then processStep doProcess s id pick else none

/-- The pushing thread and `numThreads` clients. -/
def system : Transition.System State Action := ⟨init, step numThreads doProcess⟩

/-- The indices `process_` has stored, over all client threads. -/
def answered (s : State) : List Nat :=
  (List.range numThreads).flatMap fun id => (s.results id).map (·.ver)

/-- Every index pushed so far is stored exactly once, and nothing else is. -/
def AllAnsweredOnce (s : State) : Prop :=
  (answered numThreads s).Perm (List.range' 1 s.numQueries)

/-- A client past its test of the flag and not yet told that the queue is empty. -/
def Client.inside : Client → Bool
  | .atQueue | .processing _ => true
  | _ => false

/-- The queue is empty, or some client is in its dequeue loop. -/
def Draining (s : State) : Prop :=
  s.queries = [] ∨ ∃ id < numThreads, (s.clients id).inside = true

end

end QueryProcessor
