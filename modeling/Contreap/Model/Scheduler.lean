/-
The scheduler of the concurrent treap.

The master issues operations and starts each at the root.  A task then moves down the
tree one level at a time: through the pipes, each of which takes every task one step,
and from the end of the pipeline at a worker, which brings it to its end.  A token
counter between two pipes says how many tasks are waiting there; the boarder passes
on what has left the last pipe, and the collector counts the tasks that are done
without a gap.  Workers also compute the aggregates of the versions, block by block.

A step of the system is one step of one thread: an operation on a shared counter, a
test, or a whole `init_context_`, `execute_one_step_`, `execute_to_complete_` or
`augment` of one version.  A wait is a guard, and a thread whose test would fail has
no step.  The one wait with a state of its own is that of a pipe for a token: it can
have tested the counter and gone to sleep, and then needs a notification.

That `execute_one_step_` is a single step is an abstraction.  The code writes one link
of `t_cur` and moves `t_past` on before `update_` comes to its wait for a commit, and
here the wait is a guard of the whole step.  No wait and no test of another thread
depends on the difference.  What a thread waits for and decides by are tokens, stages,
counters and the versions of nodes, and never a link; and when `update_` looks at what a
link leads to, the task that made the node is ahead or committed, so that its step there
is over.  Two readers can come to a node while it is half written: `augment` of a version
whose task still runs, and a client that asks for such a version, for which see "A node
half written" below.

Counters are natural numbers, and tokens are integers: the all-ones word a counter
wraps to is `-1`.
-/
import Mathlib.Logic.Function.Basic
import Contreap.Lib.Transition
import Contreap.Model.Treap

namespace Scheduler

open PtrHeap Treap

/-! ### Contexts

The context of a task is all that threads hand to each other.  It says which of three
things the task is at, and where.
-/

/-- Whether anything is left to do for a task. -/
inductive Status
  | running
  | done
  deriving DecidableEq, Repr

/-- What a task does to the tree. -/
inductive Operation
  | none
  | insert
  | delete
  deriving DecidableEq, Repr

/-- What a task is at: going down towards its key, taking over the links of the node it
has found, or joining the subtrees of the node it deletes. -/
inductive Functor
  | search
  | setref
  | concat
  deriving DecidableEq, Repr

/-- The side of `t_cur` on which the next node is to be linked. -/
inductive Direction
  | none
  | left
  | right
  deriving DecidableEq, Repr

/-- The stage a worker has reached, or `STAGE_DONE`. -/
inductive Stage
  | reached (n : Nat)
  | done
  deriving DecidableEq, Repr

/-- The comparison `stage <= n`, where `STAGE_DONE` is the largest word. -/
def Stage.le : Stage → Nat → Bool
  | .reached k, n => k ≤ n
  | .done, _ => false

/-- What there is of a task.  `t_cur` is the last node it has made, with links still to be
written, and `t_past` the node of an earlier version it has come to. -/
structure Context where
  st : Status := .running
  op : Operation := .none
  fn : Functor := .search
  dir : Direction := .none
  tCur : Ptr := none
  tPast : Ptr := none
  ver : Nat := 0
  pry : UInt64 := 0
  key : UInt64 := 0
  tL : Ptr := none
  tR : Ptr := none
  stage : Stage := .reached 0
  root : Ptr := none
  deriving DecidableEq, Repr

/-- The stage says it as well, where other threads look. -/
def Context.done (ctx : Context) : Context := { ctx with st := .done, stage := .done }

/-- What the collector tests. -/
def Context.isDone (ctx : Context) : Bool := ctx.stage = .done

/-! ### One task, one step

The second component of a result is the context, the third what is stored in `*tp`.
-/

/-- The next node in the join of `t_l` and `t_r`, which is over when one of them is empty.
-/
def concat (s : Store) (ctx : Context) : Option (Store × Context × Ptr) :=
  match ctx.tL, ctx.tR with
  | none, tR => some (s, ctx.done, tR)
  | some tL, none => some (s, ctx.done, some tL)
  | some tL, some tR => do
      let nL ← s.get? tL
      let nR ← s.get? tR
      if nL.pry > nR.pry then
        let (s, t) := makeWeakCopy s nL ctx.ver
        some (s, { ctx with dir := .right }, some t)
      else
        let (s, t) := makeWeakCopy s nR ctx.ver
        some (s, { ctx with dir := .left }, some t)

/-- `none` while the version it depends on is not committed. -/
def update (s : Store) (numCommitted : Nat) (ctx : Context) : Option (Store × Context × Ptr) :=
  match ctx.tPast with
  | none =>
      if ctx.op = .insert then
        let (s, t) := makeNode s ctx.ver ctx.pry ctx.key
        some (s, ctx.done, some t)
      else some (s, ctx.done, none)
  | some tPast => do
      let n ← s.get? tPast
      if n.pry > ctx.pry then
        let (s, t) := makeWeakCopy s n ctx.ver
        some (s, { ctx with dir := if ctx.key < n.key then .left else .right }, some t)
      else if n.key = ctx.key then
        if ctx.op = .insert then
          let (s, t) := makeWeakCopy s n ctx.ver
          some (setVal s t (n.val + 1), { ctx with fn := .setref }, some t)
        else if n.val = 1 then
          if numCommitted < n.ver then none
          else concat s { ctx with tL := n.lch, tR := n.rch, fn := .concat }
        else
          let (s, t) := makeWeakCopy s n ctx.ver
          some (setVal s t (n.val - 1), { ctx with fn := .setref }, some t)
      else if ctx.op = .insert then
        if numCommitted < n.ver then none
        else do
          let (s, t) ← processDeploy (recursionBound s) s ctx.ver (some tPast) ctx.pry ctx.key
          some (s, ctx.done, t)
      else some (s, ctx.done, some tPast)

/-- One level: the links of `t_cur` are written, the next node is made, and the task moves
on to it. -/
def executeOneStep (s : Store) (numCommitted : Nat) (ctx : Context) : Option (Store × Context) := do
  let tCur ← ctx.tCur
  match ctx.fn with
  | .search =>
      let tPast ← ctx.tPast
      let n ← s.get? tPast
      if ctx.dir = .left then
        let s := setRch s tCur n.rch
        let (s, ctx, t) ← update s numCommitted { ctx with tPast := n.lch }
        some (setLch s tCur t, { ctx with tCur := t })
      else
        let s := setLch s tCur n.lch
        let (s, ctx, t) ← update s numCommitted { ctx with tPast := n.rch }
        some (setRch s tCur t, { ctx with tCur := t })
  | .setref =>
      let tPast ← ctx.tPast
      let n ← s.get? tPast
      let s := setLch s tCur n.lch
      some (setRch s tCur n.rch, ctx.done)
  | .concat =>
      if ctx.dir = .left then
        let tR ← ctx.tR
        let n ← s.get? tR
        let s := setRch s tCur n.rch
        let (s, ctx, t) ← concat s { ctx with tR := n.lch }
        some (setLch s tCur t, { ctx with tCur := t })
      else
        let tL ← ctx.tL
        let n ← s.get? tL
        let s := setLch s tCur n.lch
        let (s, ctx, t) ← concat s { ctx with tL := n.rch }
        some (setRch s tCur t, { ctx with tCur := t })

/-- The sequential update a search goes over to. -/
def searchRest (s : Store) (ctx : Context) : Option (Store × Ptr) :=
  if ctx.op = .insert then searchInsert (recursionBound s) s ctx.ver ctx.tPast ctx.pry ctx.key
  else searchDelete (recursionBound s) s ctx.ver ctx.tPast ctx.pry ctx.key

/-- All the levels that are left, by the sequential functions. -/
def executeToComplete (s : Store) (ctx : Context) : Option (Store × Context) := do
  let tCur ← ctx.tCur
  match ctx.fn with
  | .search =>
      let tPast ← ctx.tPast
      let n ← s.get? tPast
      if ctx.dir = .left then
        let s := setRch s tCur n.rch
        let ctx := { ctx with tPast := n.lch }
        let (s, t) ← searchRest s ctx
        some (setLch s tCur t, ctx.done)
      else
        let s := setLch s tCur n.lch
        let ctx := { ctx with tPast := n.rch }
        let (s, t) ← searchRest s ctx
        some (setRch s tCur t, ctx.done)
  | .setref =>
      let tPast ← ctx.tPast
      let n ← s.get? tPast
      let s := setLch s tCur n.lch
      some (setRch s tCur n.rch, ctx.done)
  | .concat =>
      if ctx.dir = .left then
        let tR ← ctx.tR
        let n ← s.get? tR
        let s := setRch s tCur n.rch
        let ctx := { ctx with tR := n.lch }
        let (s, t) ← processConcat (recursionBound s + recursionBound s) s ctx.ver ctx.tL ctx.tR
        some (setLch s tCur t, ctx.done)
      else
        let tL ← ctx.tL
        let n ← s.get? tL
        let s := setLch s tCur n.lch
        let ctx := { ctx with tL := n.rch }
        let (s, t) ← processConcat (recursionBound s + recursionBound s) s ctx.ver ctx.tL ctx.tR
        some (setRch s tCur t, ctx.done)

/-! ### Threads

Where a thread is between two steps is a constructor of its own, with the local
variables that the next steps read.  The state has these places, the shared counters,
the contexts, and the heap.
-/

/-- What the master is asked to issue. -/
inductive Op
  | insertElem (elem : UInt64)
  | deleteElem (elem : UInt64)
  | nop
  deriving DecidableEq, Repr

/-- Where the thread is that issues operations. -/
inductive Master
  /-- Between two calls. -/
  | idle
  /-- A context is ready, its token is not. -/
  | push
  | notify
  deriving DecidableEq, Repr

/-- Where a pipe is with the task at its position. -/
inductive PipeAt
  /-- About to take a token. -/
  | claim
  /-- In `atomic_wait`, about to compare. -/
  | wait
  /-- In `atomic_wait`, until notified. -/
  | asleep
  | exec
  | push
  | notify
  deriving DecidableEq, Repr

/-- The variables of a pipe. -/
structure Pipe where
  pos : Nat := 1
  at_ : PipeAt := .claim
  deriving DecidableEq, Repr

/-- The variables of the boarder. -/
structure Boarder where
  localSubmitted : Nat := 0
  /-- Tokens have been taken and are still to be published. -/
  storing : Bool := false
  deriving DecidableEq, Repr

/-- Where a worker is in `worker_thread_`. -/
inductive WorkerAt
  | fetch
  /-- Until the task fetched is submitted. -/
  | waitSubmit
  /-- At the head of the loop over stages. -/
  | head (stage : Nat)
  /-- The stage is stored; about to compare the version depended on. -/
  | decide (stage : Nat)
  /-- Until the task depended on is ahead, then one step. -/
  | oneStep (stage : Nat)
  /-- The task is done, or there was none left. -/
  | settle
  /-- In `work_estimate_`, at this version. -/
  | estimate (task : Nat)
  | store
  | stopped
  deriving DecidableEq, Repr

/-- The variables of a worker.  Its block is the range of versions it has to augment next.
-/
structure Worker where
  taskId : Nat
  cachedSubmit : Nat
  blockCount : Nat
  blockStart : Nat
  blockEnd : Nat
  at_ : WorkerAt
  deriving DecidableEq, Repr

/-- The variables of the collector. -/
structure Collector where
  localCommitted : Nat := 0
  nextCommittable : Nat := 0
  deriving DecidableEq, Repr

/-- What the threads have done that leaves no trace in their variables. -/
inductive Event
  | fetched (worker task : Nat)
  | estimated (worker start stop : Nat)
  deriving DecidableEq, Repr

/-- What a scheduler is made with, and what it is asked to do. -/
structure Config where
  numPipes : Nat
  numWorkers : Nat
  blockSize : Nat
  numTasks : Nat
  hash : UInt64 → UInt64
  /-- The operations the master issues, in order. -/
  ops : List Op
  heap₀ : Store
  /-- The treap the scheduler is started on. -/
  t₀ : Ptr

/-- `tokens i` is what pipe `i` has left for whoever comes next, the master being
pipe `0`; `numEstimated` is indexed from `0`, pipes and workers from `1`. -/
structure State where
  heap : Store
  ctxs : Nat → Context
  tokens : Nat → Int
  numIssued : Nat
  numSubmitted : Nat
  numFetched : Nat
  numCommitted : Nat
  numEstimated : Nat → Nat
  master : Master
  pipes : Nat → Pipe
  boarder : Boarder
  workers : Nat → Worker
  collector : Collector
  log : List Event

/-- Which thread takes the next step. -/
inductive Action
  | master
  | pipe (id : Nat)
  /-- A sleeping pipe is woken without being notified, as the standard allows. -/
  | unblock (id : Nat)
  | boarder
  | worker (id : Nat)
  | collector
  deriving DecidableEq, Repr

section
variable (c : Config)

/-- The last block may be a short one. -/
def blockEnd (blockStart : Nat) : Nat := min (blockStart + c.blockSize - 1) c.numTasks

/-- Blocks go round among the workers; the first is for worker `1`. -/
def startWorker (id : Nat) : Worker where
  taskId := 0
  cachedSubmit := 0
  blockCount := 0
  blockStart := (id - 1) * c.blockSize + 1
  blockEnd := blockEnd c ((id - 1) * c.blockSize + 1)
  at_ := .fetch

/-- What the constructor leaves.  Version `0` is the treap it is given, and is done. -/
def init : State where
  heap := c.heap₀
  ctxs := fun u => if u = 0 then ({ root := c.t₀ } : Context).done else {}
  tokens := fun _ => 0
  numIssued := 0
  numSubmitted := 0
  numFetched := 0
  numCommitted := 0
  numEstimated := fun _ => 0
  master := .idle
  pipes := fun _ => {}
  boarder := {}
  workers := startWorker c
  collector := {}
  log := []

/-- Put back the context of a task together with the heap it has worked on. -/
def State.setTask (s : State) (task : Nat) (x : Store × Context) : State :=
  { s with heap := x.1, ctxs := Function.update s.ctxs task x.2 }

/-- The other pipes are left as they are. -/
def State.setPipe (s : State) (id : Nat) (p : Pipe) : State :=
  { s with pipes := Function.update s.pipes id p }

/-- The other workers are left as they are. -/
def State.setWorker (s : State) (id : Nat) (w : Worker) : State :=
  { s with workers := Function.update s.workers id w }

/-- `fetch_add` on a token counter. -/
def State.pushToken (s : State) (i : Nat) : State :=
  { s with tokens := Function.update s.tokens i (s.tokens i + 1) }

/-- `notify_one` for the pipe that sleeps on a counter, if it does. -/
def State.notify (s : State) (i : Nat) : State :=
  if (s.pipes (i + 1)).at_ = .asleep then
    s.setPipe (i + 1) { s.pipes (i + 1) with at_ := .wait }
  else s

/-- The context of a new task, before `update_`. -/
def freshContext (s : State) (op : Operation) (elem : UInt64) : Context where
  op := op
  ver := s.numIssued + 1
  pry := c.hash elem
  key := elem
  tPast := (s.ctxs s.numIssued).root

/-- `init_context_` up to where the task is pushed into the pipeline. -/
def initContext (s : State) : Op → Option State
  | .insertElem elem => start (freshContext c s .insert elem)
  | .deleteElem elem => start (freshContext c s .delete elem)
  | .nop => some (issue (s.heap,
      ({ ver := s.numIssued + 1, root := (s.ctxs s.numIssued).root } : Context).done))
where
  issue (x : Store × Context) : State :=
    { s.setTask (s.numIssued + 1) x with numIssued := s.numIssued + 1, master := .push }
  start (ctx : Context) : Option State := do
    let (heap, ctx, t) ← update s.heap s.numCommitted ctx
    some (issue (heap, { ctx with root := t, tCur := t }))

/-- The master issues the next operation, and then pushes a token for it. -/
def masterStep (s : State) : Option State :=
  match s.master with
  | .idle => (c.ops[s.numIssued]?).bind fun op => initContext c s op
  | .push =>
      some { s.pushToken 0 with master := if s.tokens 0 + 1 = 0 then .notify else .idle }
  | .notify => some { s.notify 0 with master := .idle }

/-- A pipe takes a token, runs one step of the task at its position, unless the task is
done, and passes a token on. -/
def pipeStep (s : State) (id : Nat) : Option State :=
  let p := s.pipes id
  if p.pos ≤ c.numTasks then
    match p.at_ with
    | .claim =>
        some { s.setPipe id { p with at_ := if s.tokens (id - 1) = 0 then .wait else .exec } with
          tokens := Function.update s.tokens (id - 1) (s.tokens (id - 1) - 1) }
    | .wait => some (s.setPipe id { p with at_ := if s.tokens (id - 1) = -1 then .asleep else .exec })
    | .asleep => none
    | .exec =>
        if (s.ctxs p.pos).st = .done then some (s.setPipe id { p with at_ := .push })
        else do
          let x ← executeOneStep s.heap s.numCommitted (s.ctxs p.pos)
          some ((s.setTask p.pos x).setPipe id { p with at_ := .push })
    | .push =>
        some ((s.pushToken id).setPipe id
          (if s.tokens id + 1 = 0 then { p with at_ := .notify } else { pos := p.pos + 1 }))
    | .notify => some ((s.notify id).setPipe id { pos := p.pos + 1 })
  else none

/-- The tokens behind the last pipe are taken all at once, and published as tasks
submitted. -/
def boarderStep (s : State) : Option State :=
  let b := s.boarder
  if b.storing then
    some { s with numSubmitted := b.localSubmitted, boarder := { b with storing := false } }
  else if b.localSubmitted < c.numTasks ∧ 0 < s.tokens c.numPipes then
    some { s with
      tokens := Function.update s.tokens c.numPipes 0
      boarder := ⟨b.localSubmitted + (s.tokens c.numPipes).toNat, true⟩ }
  else none

/-- Back at the head of `worker_thread_`'s loop. -/
def again (taskId : Nat) : WorkerAt := if taskId ≤ c.numTasks then .fetch else .stopped

/-- The version of the node a task has come to. -/
def vdep (s : State) (task : Nat) : Option Nat := do
  let tPast ← (s.ctxs task).tPast
  let n ← s.heap.get? tPast
  some n.ver

/-- A worker fetches a task, waits until it is submitted, and takes it down stage by
stage.  A block is augmented backwards, from its last version, once the worker's task is
at its end or beyond. -/
def workerStep (s : State) (id : Nat) : Option State :=
  let w := s.workers id
  let ctx := s.ctxs w.taskId
  match w.at_ with
  | .fetch =>
      let taskId := 1 + s.numFetched
      some { s.setWorker id { w with
          taskId := taskId, at_ := if taskId > c.numTasks then .settle else .waitSubmit } with
        numFetched := taskId
        log := s.log ++ [.fetched id taskId] }
  | .waitSubmit =>
      if w.taskId ≤ w.cachedSubmit then some (s.setWorker id { w with at_ := .head 1 })
      else if w.taskId ≤ s.numSubmitted then
        some (s.setWorker id { w with cachedSubmit := s.numSubmitted, at_ := .head 1 })
      else none
  | .head stage =>
      if ctx.st = .done then some (s.setWorker id { w with at_ := .settle })
      else
        some ((s.setTask w.taskId (s.heap, { ctx with stage := .reached stage })).setWorker id
          { w with at_ := .decide stage })
  | .decide stage => do
      let vdep ← vdep s w.taskId
      if vdep ≤ s.numCommitted then
        let x ← executeToComplete s.heap ctx
        some ((s.setTask w.taskId x).setWorker id { w with at_ := .head (stage + 1) })
      else some (s.setWorker id { w with at_ := .oneStep stage })
  | .oneStep stage => do
      let vdep ← vdep s w.taskId
      if (s.ctxs vdep).stage.le stage then none
      else
        let x ← executeOneStep s.heap s.numCommitted ctx
        some ((s.setTask w.taskId x).setWorker id { w with at_ := .head (stage + 1) })
  | .settle =>
      if w.taskId ≥ w.blockEnd then
        some { s.setWorker id { w with
            at_ := if w.blockStart ≤ w.blockEnd then .estimate w.blockEnd else .store } with
          log := s.log ++ [.estimated id w.blockStart w.blockEnd] }
      else some (s.setWorker id { w with at_ := again c w.taskId })
  | .estimate task => do
      let (heap, _) ← augment (recursionBound s.heap) s.heap (s.ctxs task).root
      some { s.setWorker id { w with
          at_ := if w.blockStart ≤ task - 1 then .estimate (task - 1) else .store } with
        heap := heap }
  | .store =>
      let blockStart := w.blockStart + c.numWorkers * c.blockSize
      some { s.setWorker id { w with
          blockCount := w.blockCount + 1
          blockStart := blockStart
          blockEnd := blockEnd c blockStart
          at_ := again c w.taskId } with
        numEstimated := Function.update s.numEstimated (id - 1) (w.blockCount + 1) }
  | .stopped => none

/-- The collector looks at one task more, or publishes how far it has come. -/
def collectorStep (s : State) : Option State :=
  let k := s.collector
  if k.nextCommittable < c.numTasks ∧ (s.ctxs (k.nextCommittable + 1)).isDone then
    some { s with collector := { k with nextCommittable := k.nextCommittable + 1 } }
  else if k.localCommitted < k.nextCommittable then
    some { s with
      numCommitted := k.nextCommittable
      collector := { k with localCommitted := k.nextCommittable } }
  else none

/-- There are no pipes and workers beyond those of the configuration. -/
def step (s : State) : Action → Option State
  | .master => masterStep c s
  | .pipe id => if 1 ≤ id ∧ id ≤ c.numPipes then pipeStep c s id else none
  | .unblock id =>
      if (s.pipes id).at_ = .asleep then some (s.setPipe id { s.pipes id with at_ := .wait })
      else none
  | .boarder => boarderStep c s
  | .worker id => if 1 ≤ id ∧ id ≤ c.numWorkers then workerStep c s id else none
  | .collector => collectorStep c s

/-- The threads of one scheduler, interleaved at will. -/
def system : Transition.System State Action := ⟨init c, step c⟩

/-! ### Reading a snapshot -/

/-- Whether `get_snapshot` is past its wait for a version. -/
def snapshotReady (s : State) (ver : Nat) : Bool :=
  (ver / c.blockSize) / c.numWorkers < s.numEstimated ((ver / c.blockSize) % c.numWorkers)

/-- What `get_snapshot` returns, once it does. -/
def getSnapshot (s : State) (ver : Nat) : Option Ptr :=
  if ver > s.numIssued then some none
  else if snapshotReady c s ver then some (s.ctxs ver).root
  else none

/-! ### A node half written

`execute_one_step_` and `execute_to_complete_` write the two links of a node one after the
other, and `update_` may have to wait in between; and `update_` links the copy of a node
before it changes the counter there.  A client that reads the node meanwhile sees the
fields that have been written by then.
-/

/-- The side of the link that a step writes first. -/
def Context.firstSide (ctx : Context) : Direction :=
  if ctx.fn = .setref then .left else if ctx.dir = .left then .right else .left

/-- The heap when a step has written its first link. -/
def firstLink (s : Store) (ctx : Context) : Option Store := do
  let tCur ← ctx.tCur
  match ctx.fn with
  | .search =>
      let tPast ← ctx.tPast
      let n ← s.get? tPast
      some (if ctx.dir = .left then setRch s tCur n.rch else setLch s tCur n.lch)
  | .setref =>
      let tPast ← ctx.tPast
      let n ← s.get? tPast
      some (setLch s tCur n.lch)
  | .concat =>
      if ctx.dir = .left then
        let tR ← ctx.tR
        let n ← s.get? tR
        some (setRch s tCur n.rch)
      else
        let tL ← ctx.tL
        let n ← s.get? tL
        some (setLch s tCur n.lch)

/-- The heap while the copy a task has come to still has the counter of the original. -/
def uncounted (s : Store) (ctx : Context) : Option Store := do
  let tCur ← ctx.tCur
  let tPast ← ctx.tPast
  let n ← s.get? tPast
  some (setVal s tCur n.val)

/-- The task of the step a thread has come to.  All its waits are over, but for the one in
`update_`. -/
def comingTask (s : State) : Action → Option Nat
  | .pipe id =>
      let p := s.pipes id
      if (1 ≤ id ∧ id ≤ c.numPipes) ∧ p.at_ = .exec ∧ (s.ctxs p.pos).st ≠ .done then some p.pos
      else none
  | .worker id =>
      let w := s.workers id
      match w.at_ with
      | .decide _ => do
          let vdep ← vdep s w.taskId
          if vdep ≤ s.numCommitted then some w.taskId else none
      | .oneStep stage => do
          let vdep ← vdep s w.taskId
          if (s.ctxs vdep).stage.le stage then none else some w.taskId
      | _ => none
  | _ => none

/-- The task of the step a thread has just taken. -/
def takenTask (s : State) : Action → Option Nat
  | .master => if s.master = .push then some s.numIssued else none
  | .pipe id => if (s.pipes id).at_ = .push then some (s.pipes id).pos else none
  | .worker id =>
      match (s.workers id).at_ with
      | .head stage => if 1 < stage then some (s.workers id).taskId else none
      | _ => none
  | _ => none

/-- The task whose last step was to copy the node of its key. -/
def countingTask (s : State) (a : Action) : Option Nat := do
  let u ← takenTask s a
  if (s.ctxs u).st = .running ∧ (s.ctxs u).fn = .setref then some u else none

/-- How far the threads are when a client reads.  A read is of one node, so that it is
enough to speak of one thread that is inside its step. -/
inductive Moment
  /-- Every thread is between two of its steps. -/
  | between
  /-- The thread has written the first link of the step it has come to. -/
  | linking (thread : Action)
  /-- The thread has still to change the counter of the copy it has just linked. -/
  | counting (thread : Action)
  deriving DecidableEq, Repr

/-- What a client reads from. -/
def seen (s : State) : Moment → Option Store
  | .between => some s.heap
  | .linking a => do
      let u ← comingTask c s a
      firstLink s.heap (s.ctxs u)
  | .counting a => do
      let u ← countingTask s a
      uncounted s.heap (s.ctxs u)

end

/-! ### The sequential treap

What the threads do together is to be what these functions do one after the other.
-/

/-- One operation on the tree of the version before. -/
def Op.apply (hash : UInt64 → UInt64) (s : Store) (ver : Nat) (t : Ptr) : Op → Option (Store × Ptr)
  | .insertElem elem => searchInsert (recursionBound s) s ver t (hash elem) elem
  | .deleteElem elem => searchDelete (recursionBound s) s ver t (hash elem) elem
  | .nop => some (s, t)

/-- The operations one after the other, as versions `ver + 1`, `ver + 2` and so on. -/
def replay (hash : UInt64 → UInt64) (s : Store) (t : Ptr) (ver : Nat) :
    List Op → Option (Store × Ptr)
  | [] => some (s, t)
  | op :: ops => (op.apply hash s (ver + 1) t).bind fun x => replay hash x.1 x.2 (ver + 1) ops

end Scheduler
