/-
Whose turn it is with a task.

A task belongs to one thread at a time: to the master until its token is pushed, then to
each pipe in turn, and once it has left the last pipe to the worker that has fetched it.
The counters are what hands it on.  `HasTurn` says where a thread is when it may use a
context, no two threads have their turn with the same task, and a step of a thread is the
same whatever the execution state of a context it has no turn with.
-/
import Contreap.Proofs.Scheduler.Blocks
import Contreap.Proofs.Scheduler.Threads

namespace Scheduler

open BinaryTree PtrHeap Treap Transition

variable {c : Config} {T : Nat → BinaryTree Datum} {t₀ : BinaryTree Datum} {s s' : State}
  {steps : Nat → Nat} {a : Action} {id i k : Nat} {x : Context}

/-! ### Turns

Where a thread is in its loop tells whether it may use a context.  The counters of the
pipeline never pass one another, so that of two threads the later one has its turn with
earlier tasks.
-/

/-- A thread that works on contexts. -/
inductive Thread
  | master
  | pipe (id : Nat)
  | worker (id : Nat)
  deriving DecidableEq, Repr

/-- The thread that makes a step, when it is one that uses contexts. -/
def Action.thread : Action → Option Thread
  | .master => some .master
  | .pipe id => some (.pipe id)
  | .worker id => some (.worker id)
  | .unblock _ | .boarder | .collector => none

/-- The master has its turn with all tasks it has not pushed, a pipe from when it has the
token to when it pushes the next one, and a worker in its loop over stages. -/
def HasTurn (c : Config) (s : State) : Thread → Nat → Prop
  | .master, k => s.pushed 0 < k
  | .pipe id, k => (1 ≤ id ∧ id ≤ c.numPipes) ∧ (s.pipes id).pos = k ∧
      ((s.pipes id).at_ = .exec ∨ (s.pipes id).at_ = .push)
  | .worker id, k => (s.workers id).taskId = k ∧ (s.workers id).at_.working = true

namespace Inv

theorem pipe_turn (h : Inv c T s steps) (hi : i < c.numPipes) (hturn : HasTurn c s (.pipe (i + 1)) k) :
    k ≤ s.pushed i ∧ s.pushed (i + 1) < k := by
  obtain ⟨-, rfl, hat⟩ := hturn
  have hlink := h.flow.links i hi
  have hpos := hlink.pos
  refine ⟨hlink.entered (hat.imp_right Or.inl), ?_⟩
  have hpushed : s.pushed (i + 1) = (s.pipes (i + 1)).pos - 1 := by
    simp only [State.pushed, Pipe.pushed]
    rcases hat with hat | hat
    · rw [hat, if_neg (by decide)]
    · rw [hat, if_neg (by decide)]
  omega

theorem worker_turn (h : Inv c T s steps) (hturn : HasTurn c s (.worker id) k) :
    1 ≤ k ∧ k ≤ s.pushed c.numPipes := by
  obtain ⟨rfl, hwork⟩ := hturn
  obtain ⟨hpos, -, hsub⟩ := (h.crew.knows id).of_working hwork
  exact ⟨hpos, hsub.trans h.flow.submitted_le⟩

/-- A thread that comes later in the pipeline has its turn with earlier tasks. -/
theorem turn_le (h : Inv c T s steps) {th : Thread} (hne : th ≠ .master) (hturn : HasTurn c s th k) :
    k ≤ s.pushed 0 := by
  cases th with
  | master => exact absurd rfl hne
  | pipe id =>
      obtain ⟨i, rfl⟩ : ∃ i, id = i + 1 := ⟨id - 1, by have := hturn.1.1; omega⟩
      have hi : i < c.numPipes := hturn.1.2
      exact (h.pipe_turn hi hturn).1.trans (h.flow.pushed_anti (Nat.zero_le i) (Nat.le_of_lt hi))
  | worker id => exact (h.worker_turn hturn).2.trans (h.flow.pushed_anti (Nat.zero_le _) (Nat.le_refl _))

theorem pipes_exclusive (h : Inv c T s steps) {id' : Nat} (hturn : HasTurn c s (.pipe id) k)
    (hturn' : HasTurn c s (.pipe id') k) : id' ≤ id := by
  by_contra hlt
  have hbounds := hturn.1
  have hbounds' := hturn'.1
  obtain ⟨i, rfl⟩ : ∃ i, id = i + 1 := ⟨id - 1, by omega⟩
  obtain ⟨i', rfl⟩ : ∃ i', id' = i' + 1 := ⟨id' - 1, by omega⟩
  -- The later pipe has been given the task by the earlier one.
  have hpast := (h.pipe_turn hbounds.2 hturn).2
  have hgiven := (h.pipe_turn hbounds'.2 hturn').1
  have hanti := h.flow.pushed_anti (i := i + 1) (j := i') (by omega) (by omega)
  omega

theorem pipe_worker_exclusive (h : Inv c T s steps) {id' : Nat} (hturn : HasTurn c s (.pipe id) k)
    (hturn' : HasTurn c s (.worker id') k) : False := by
  have hbounds := hturn.1
  obtain ⟨i, rfl⟩ : ∃ i, id = i + 1 := ⟨id - 1, by omega⟩
  have hpast := (h.pipe_turn hbounds.2 hturn).2
  have hgiven := (h.worker_turn hturn').2
  have hanti := h.flow.pushed_anti (i := i + 1) (j := c.numPipes) hbounds.2 (Nat.le_refl _)
  omega

/-- **No two threads have their turn with the same task.** -/
theorem exclusive (h : Inv c T s steps) {th th' : Thread} (hturn : HasTurn c s th k)
    (hturn' : HasTurn c s th' k) : th = th' := by
  have hmaster : ∀ {th : Thread}, HasTurn c s .master k → HasTurn c s th k → th = .master := by
    intro th hm ht
    by_contra hne
    exact absurd (h.turn_le hne ht) (Nat.not_le.mpr hm)
  cases th with
  | master => exact (hmaster hturn hturn').symm
  | pipe id =>
      cases th' with
      | master => exact hmaster hturn' hturn
      | pipe id' =>
          rw [Nat.le_antisymm (h.pipes_exclusive hturn' hturn) (h.pipes_exclusive hturn hturn')]
      | worker id' => exact (h.pipe_worker_exclusive hturn hturn').elim
  | worker id =>
      cases th' with
      | master => exact hmaster hturn' hturn
      | pipe id' => exact (h.pipe_worker_exclusive hturn' hturn).elim
      | worker id' =>
          have hpos := (h.worker_turn hturn).1
          obtain ⟨rfl, -⟩ := hturn
          rw [h.crew.distinct id id' hturn'.1.symm hpos]

end Inv

/-! ### What a thread without a turn cannot see

Other threads do read some of a context, namely its stage and its root.  What they do
not read is the execution state, and the proof is to run each step with another one in
its place.
-/

/-- Contexts that differ in their execution state at most. -/
structure Context.SameIssue (x y : Context) : Prop where
  op : x.op = y.op
  ver : x.ver = y.ver
  pry : x.pry = y.pry
  key : x.key = y.key
  stage : x.stage = y.stage
  root : x.root = y.root

/-- The state with another context for one task. -/
def State.withContext (s : State) (k : Nat) (x : Context) : State :=
  { s with ctxs := Function.update s.ctxs k x }

theorem withContext_of_ne (s : State) (x : Context) {u : Nat} (hu : u ≠ k) :
    (s.withContext k x).ctxs u = s.ctxs u := Function.update_of_ne hu ..

theorem withContext_same (hx : x.SameIssue (s.ctxs k)) (u : Nat) :
    ((s.withContext k x).ctxs u).root = (s.ctxs u).root ∧
      ((s.withContext k x).ctxs u).stage = (s.ctxs u).stage := by
  by_cases hu : u = k
  · subst hu
    simp only [State.withContext, Function.update_self]
    exact ⟨hx.root, hx.stage⟩
  · rw [withContext_of_ne s x hu]
    exact ⟨rfl, rfl⟩

theorem setTask_withContext (s : State) (x : Context) {u : Nat} (hu : u ≠ k) (y : Store × Context) :
    (s.withContext k x).setTask u y = (s.setTask u y).withContext k x := by
  simp only [State.setTask, State.withContext, Function.update_comm hu]

theorem notify_withContext (s : State) (x : Context) (i : Nat) :
    (s.withContext k x).notify i = (s.notify i).withContext k x := by
  rw [notify_eq, notify_eq]
  rfl

/-! ### The same step in another context

The threads are taken one by one.  At each point of a loop either no context is read at
all, or the one read belongs to a task the thread has its turn with, or only its stage or
its root is read.
-/

/-- The master reads the root of the last task and writes a new context. -/
theorem masterStep_withContext (hx : x.SameIssue (s.ctxs k)) (hk : k ≤ s.pushed 0) :
    masterStep c (s.withContext k x) = (masterStep c s).map (·.withContext k x) := by
  have hroot := (withContext_same hx s.numIssued).1
  have hne : s.numIssued + 1 ≠ k := by
    have := pushed_zero_le s
    omega
  -- The context that is written belongs to the next task, and `k` has been pushed.
  have hissue : ∀ y, initContext.issue (s.withContext k x) y
      = (initContext.issue s y).withContext k x := by
    intro y
    simp only [initContext.issue, State.setTask, State.withContext, Function.update_comm hne]
  have hstart : ∀ op elem,
      initContext.start (s.withContext k x) (freshContext c (s.withContext k x) op elem)
      = (initContext.start s (freshContext c s op elem)).map (·.withContext k x) := by
    intro op elem
    have hfresh : freshContext c (s.withContext k x) op elem = freshContext c s op elem := by
      unfold freshContext
      rw [← hroot]
      rfl
    rw [hfresh, initContext.start, initContext.start, Option.bind_eq_bind,
      Option.map_bind]
    exact congrArg (Option.bind _) (funext fun y => congrArg some (hissue _))
  unfold masterStep
  cases hm : s.master with
  | idle =>
      have hsame : (s.withContext k x).master = .idle := hm
      rw [hsame]
      dsimp only
      rw [Option.map_bind]
      refine congrArg (Option.bind _) (funext fun op => ?_)
      cases op with
      | insertElem elem => exact hstart .insert elem
      | deleteElem elem => exact hstart .delete elem
      | nop =>
          have hissued : (s.withContext k x).numIssued = s.numIssued := rfl
          refine congrArg some ?_
          rw [hissued, hroot]
          exact hissue _
  | push =>
      have hsame : (s.withContext k x).master = .push := hm
      rw [hsame]
      rfl
  | notify =>
      have hsame : (s.withContext k x).master = .notify := hm
      rw [hsame]
      refine congrArg some ?_
      rw [notify_withContext]
      rfl

/-- A pipe reads and writes the context at its position while it has its turn. -/
theorem pipeStep_withContext
    (hk : (s.pipes id).at_ = .exec → (s.pipes id).pos ≠ k) :
    pipeStep c (s.withContext k x) id = (pipeStep c s id).map (·.withContext k x) := by
  have hpipe : (s.withContext k x).pipes = s.pipes := rfl
  have htokens : (s.withContext k x).tokens = s.tokens := rfl
  unfold pipeStep
  rw [hpipe, htokens]
  dsimp only
  by_cases hpos : (s.pipes id).pos ≤ c.numTasks
  swap
  · rw [if_neg hpos, if_neg hpos]
    rfl
  rw [if_pos hpos, if_pos hpos]
  cases hat : (s.pipes id).at_ with
  | claim => rfl
  | wait => rfl
  | asleep => rfl
  | exec =>
      have hne := hk hat
      have hctx := withContext_of_ne s x hne
      dsimp only
      rw [hctx]
      by_cases hdone : (s.ctxs (s.pipes id).pos).st = .done
      · rw [if_pos hdone, if_pos hdone]
        rfl
      · rw [if_neg hdone, if_neg hdone, Option.bind_eq_bind, Option.map_bind]
        refine congrArg (Option.bind _) (funext fun y => congrArg some ?_)
        rw [setTask_withContext s x hne]
        rfl
  | push => rfl
  | notify =>
      refine congrArg some ?_
      rw [notify_withContext]
      rfl

theorem vdep_withContext {u : Nat} (hu : u ≠ k) : vdep (s.withContext k x) u = vdep s u := by
  unfold vdep
  rw [withContext_of_ne s x hu]
  rfl

/-- A worker does the same for its task, and reads the stage of another. -/
theorem workerStep_withContext (hx : x.SameIssue (s.ctxs k))
    (hk : (s.workers id).at_.working = true → (s.workers id).taskId ≠ k) :
    workerStep c (s.withContext k x) id = (workerStep c s id).map (·.withContext k x) := by
  have hworkers : (s.withContext k x).workers = s.workers := rfl
  have hheap : (s.withContext k x).heap = s.heap := rfl
  unfold workerStep
  rw [hworkers]
  dsimp only
  cases hat : (s.workers id).at_ with
  | fetch => rfl
  | waitSubmit =>
      have hsub : (s.withContext k x).numSubmitted = s.numSubmitted := rfl
      dsimp only
      rw [hsub]
      by_cases hcached : (s.workers id).taskId ≤ (s.workers id).cachedSubmit
      · rw [if_pos hcached, if_pos hcached]
        rfl
      · rw [if_neg hcached, if_neg hcached]
        by_cases hle : (s.workers id).taskId ≤ s.numSubmitted
        · rw [if_pos hle, if_pos hle]
          rfl
        · rw [if_neg hle, if_neg hle]
          rfl
  | head n =>
      have hne := hk (hat ▸ rfl)
      dsimp only
      rw [withContext_of_ne s x hne, hheap]
      by_cases hdone : (s.ctxs (s.workers id).taskId).st = .done
      · rw [if_pos hdone, if_pos hdone]
        rfl
      · rw [if_neg hdone, if_neg hdone]
        refine congrArg some ?_
        rw [setTask_withContext s x hne]
        rfl
  | decide n =>
      have hne := hk (hat ▸ rfl)
      dsimp only
      rw [withContext_of_ne s x hne, hheap, vdep_withContext hne, Option.bind_eq_bind,
        Option.map_bind]
      refine congrArg (Option.bind _) (funext fun v => ?_)
      have hcommitted : (s.withContext k x).numCommitted = s.numCommitted := rfl
      rw [Function.comp_apply, hcommitted]
      by_cases hle : v ≤ s.numCommitted
      · rw [if_pos hle, if_pos hle, Option.bind_eq_bind, Option.map_bind]
        refine congrArg (Option.bind _) (funext fun y => congrArg some ?_)
        rw [setTask_withContext s x hne]
        rfl
      · rw [if_neg hle, if_neg hle]
        rfl
  | oneStep n =>
      have hne := hk (hat ▸ rfl)
      dsimp only
      rw [withContext_of_ne s x hne, hheap, vdep_withContext hne, Option.bind_eq_bind,
        Option.map_bind]
      refine congrArg (Option.bind _) (funext fun v => ?_)
      rw [Function.comp_apply, (withContext_same hx v).2]
      by_cases hle : (s.ctxs v).stage.le n = true
      · rw [if_pos hle, if_pos hle]
        rfl
      · rw [if_neg hle, if_neg hle, Option.bind_eq_bind, Option.map_bind]
        refine congrArg (Option.bind _) (funext fun y => congrArg some ?_)
        rw [setTask_withContext s x hne]
        rfl
  | settle =>
      dsimp only
      by_cases hle : (s.workers id).taskId ≥ (s.workers id).blockEnd
      · rw [if_pos hle, if_pos hle]
        rfl
      · rw [if_neg hle, if_neg hle]
        rfl
  | estimate task =>
      dsimp only
      rw [(withContext_same hx task).1, hheap, Option.bind_eq_bind, Option.map_bind]
      rfl
  | store => rfl
  | stopped => rfl

/-- **A thread takes the same step whatever the execution state of a context it has no turn
with**, and leaves it as it is. -/
theorem step_withContext (hx : x.SameIssue (s.ctxs k))
    (hturn : ∀ th, a.thread = some th → ¬ HasTurn c s th k) :
    step c (s.withContext k x) a = (step c s a).map (·.withContext k x) := by
  cases a with
  | master => exact masterStep_withContext hx (Nat.not_lt.mp (hturn _ rfl))
  | pipe id =>
      unfold step
      dsimp only
      by_cases hid : 1 ≤ id ∧ id ≤ c.numPipes
      · rw [if_pos hid, if_pos hid]
        exact pipeStep_withContext fun hat hpos => hturn _ rfl ⟨hid, hpos, Or.inl hat⟩
      · rw [if_neg hid, if_neg hid]
        rfl
  | unblock id =>
      have hpipe : (s.withContext k x).pipes = s.pipes := rfl
      unfold step
      dsimp only
      rw [hpipe]
      by_cases hat : (s.pipes id).at_ = .asleep
      · rw [if_pos hat, if_pos hat]
        rfl
      · rw [if_neg hat, if_neg hat]
        rfl
  | boarder =>
      have hsame : (s.withContext k x).boarder = s.boarder ∧ (s.withContext k x).tokens = s.tokens :=
        ⟨rfl, rfl⟩
      unfold step boarderStep
      rw [hsame.1, hsame.2]
      dsimp only
      by_cases hstoring : s.boarder.storing = true
      · rw [if_pos hstoring, if_pos hstoring]
        rfl
      · rw [if_neg hstoring, if_neg hstoring]
        by_cases hgo : s.boarder.localSubmitted < c.numTasks ∧ 0 < s.tokens c.numPipes
        · rw [if_pos hgo, if_pos hgo]
          rfl
        · rw [if_neg hgo, if_neg hgo]
          rfl
  | worker id =>
      unfold step
      dsimp only
      by_cases hid : 1 ≤ id ∧ id ≤ c.numWorkers
      · rw [if_pos hid, if_pos hid]
        exact workerStep_withContext hx fun hwork htask => hturn _ rfl ⟨htask, hwork⟩
      · rw [if_neg hid, if_neg hid]
        rfl
  | collector =>
      have hsame : (s.withContext k x).collector = s.collector := rfl
      -- Whether a task is done is told by its stage.
      have hdone : ∀ u, ((s.withContext k x).ctxs u).isDone = (s.ctxs u).isDone := by
        intro u
        unfold Context.isDone
        rw [(withContext_same hx u).2]
      unfold step collectorStep
      rw [hsame]
      dsimp only
      rw [hdone]
      by_cases hnext : s.collector.nextCommittable < c.numTasks ∧
          (s.ctxs (s.collector.nextCommittable + 1)).isDone = true
      · rw [if_pos hnext, if_pos hnext]
        rfl
      · rw [if_neg hnext, if_neg hnext]
        by_cases hlt : s.collector.localCommitted < s.collector.nextCommittable
        · rw [if_pos hlt, if_pos hlt]
          rfl
        · rw [if_neg hlt, if_neg hlt]
          rfl

/-! ### What has been executed and fetched

A state does not record what the pipes have executed, so this is said of the run that
leads to it.
-/

/-- The task a pipe executes in a step. -/
def execution (s : State) (id : Nat) (a : Action) : List Nat :=
  if a = .pipe id ∧ (s.pipes id).at_ = .exec then [(s.pipes id).pos] else []

/-- The tasks a pipe executes in a run, in order. -/
def executed (c : Config) (id : Nat) : List Action → State → List Nat
  | [], _ => []
  | a :: acts, s => execution s id a ++ (step c s a).elim [] (executed c id acts)

theorem notify_moved (s : State) (i id : Nat) :
    ((s.notify i).pipes id).moved = (s.pipes id).moved := by
  rw [notify_eq]
  by_cases hid : id = i + 1
  · rw [hid, setPipe_self, (s.pipes (i + 1)).woken_same.1]
  · rw [setPipe_of_ne s _ hid]

/-- The master moves no task through a pipe. -/
theorem masterStep_moved (hstep : masterStep c s = some s') :
    (s'.pipes id).moved = (s.pipes id).moved := by
  have hstart : ∀ ctx, initContext.start s ctx = some s' → s'.pipes = s.pipes := by
    intro ctx hrun
    rw [initContext.start, Option.bind_eq_bind] at hrun
    obtain ⟨y, -, hy⟩ := Option.bind_eq_some_iff.mp hrun
    cases hy
    rfl
  unfold masterStep at hstep
  split at hstep
  · obtain ⟨op, -, hinit⟩ := Option.bind_eq_some_iff.mp hstep
    cases op with
    | insertElem elem => rw [hstart _ hinit]
    | deleteElem elem => rw [hstart _ hinit]
    | nop =>
        cases hinit
        rfl
  · cases hstep
    rfl
  · cases hstep
    exact notify_moved s 0 id

/-- A step of a pipe changes how far it is and nothing of the others. -/
theorem pipeStep_moved (hpos : 1 ≤ (s.pipes id).pos) (hstep : pipeStep c s id = some s') :
    (∀ id', id' ≠ id → (s'.pipes id').moved = (s.pipes id').moved) ∧
      (s'.pipes id).moved =
        if (s.pipes id).at_ = .exec then (s.pipes id).moved + 1 else (s.pipes id).moved := by
  have hother : ∀ {s₁ : State} {p : Pipe}, s₁.pipes = s.pipes → ∀ id', id' ≠ id →
      ((s₁.setPipe id p).pipes id').moved = (s.pipes id').moved := by
    intro s₁ p hs₁ id' hne
    rw [setPipe_of_ne s₁ p hne, hs₁]
  unfold pipeStep at hstep
  dsimp only at hstep
  by_cases hle : (s.pipes id).pos ≤ c.numTasks
  swap
  · rw [if_neg hle] at hstep
    cases hstep
  rw [if_pos hle] at hstep
  cases hat : (s.pipes id).at_ with
  | claim =>
      rw [hat] at hstep
      cases hstep
      refine ⟨hother rfl, ?_⟩
      rw [if_neg (show ¬ PipeAt.claim = .exec by decide)]
      show ((s.setPipe id _).pipes id).moved = _
      rw [setPipe_self]
      by_cases hz : s.tokens (id - 1) = 0 <;> simp [Pipe.moved, hat, hz]
  | wait =>
      rw [hat] at hstep
      cases hstep
      refine ⟨hother rfl, ?_⟩
      rw [if_neg (show ¬ PipeAt.wait = .exec by decide), setPipe_self]
      by_cases hz : s.tokens (id - 1) = -1 <;> simp [Pipe.moved, hat, hz]
  | asleep =>
      rw [hat] at hstep
      cases hstep
  | exec =>
      have hmoved : ∀ {s₁ : State}, ((s₁.setPipe id { s.pipes id with at_ := .push }).pipes id).moved
          = (s.pipes id).moved + 1 := by
        intro s₁
        rw [setPipe_self]
        simp only [Pipe.moved, hat, reduceCtorEq, or_false, if_true, if_false]
        omega
      rw [hat] at hstep
      dsimp only at hstep
      rw [if_pos rfl]
      by_cases hdone : (s.ctxs (s.pipes id).pos).st = .done
      · rw [if_pos hdone] at hstep
        cases hstep
        exact ⟨hother rfl, hmoved⟩
      · rw [if_neg hdone, Option.bind_eq_bind] at hstep
        obtain ⟨y, -, hy⟩ := Option.bind_eq_some_iff.mp hstep
        cases hy
        exact ⟨hother rfl, hmoved⟩
  | push =>
      rw [hat] at hstep
      cases hstep
      refine ⟨hother rfl, ?_⟩
      rw [if_neg (show ¬ PipeAt.push = .exec by decide), setPipe_self]
      by_cases hz : s.tokens id + 1 = 0 <;> simp [Pipe.moved, hat, hz]
  | notify =>
      rw [hat] at hstep
      cases hstep
      refine ⟨fun id' hne => ?_, ?_⟩
      · rw [setPipe_of_ne _ _ hne, notify_moved]
      · rw [if_neg (by decide), setPipe_self]
        simp [Pipe.moved, hat]

theorem workerStep_pipes (hstep : workerStep c s id = some s') : s'.pipes = s.pipes := by
  unfold workerStep at hstep
  dsimp only at hstep
  cases hat : (s.workers id).at_ with
  | fetch =>
      rw [hat] at hstep
      cases hstep
      rfl
  | waitSubmit =>
      rw [hat] at hstep
      dsimp only at hstep
      split at hstep
      · cases hstep
        rfl
      · split at hstep
        · cases hstep
          rfl
        · cases hstep
  | head n =>
      rw [hat] at hstep
      dsimp only at hstep
      split at hstep
      · cases hstep
        rfl
      · cases hstep
        rfl
  | decide n =>
      rw [hat] at hstep
      obtain ⟨v, -, hv⟩ := Option.bind_eq_some_iff.mp hstep
      split at hv
      · obtain ⟨y, -, hy⟩ := Option.bind_eq_some_iff.mp hv
        cases hy
        rfl
      · cases hv
        rfl
  | oneStep n =>
      rw [hat] at hstep
      obtain ⟨v, -, hv⟩ := Option.bind_eq_some_iff.mp hstep
      split at hv
      · cases hv
      · obtain ⟨y, -, hy⟩ := Option.bind_eq_some_iff.mp hv
        cases hy
        rfl
  | settle =>
      rw [hat] at hstep
      dsimp only at hstep
      split at hstep
      · cases hstep
        rfl
      · cases hstep
        rfl
  | estimate task =>
      rw [hat] at hstep
      obtain ⟨y, -, hy⟩ := Option.bind_eq_some_iff.mp hstep
      cases hy
      rfl
  | store =>
      rw [hat] at hstep
      cases hstep
      rfl
  | stopped =>
      rw [hat] at hstep
      cases hstep

/-- A pipe moves a task on by executing it, and in no other way. -/
theorem moved_step (id : Nat) (hflow : Flow c s) (hstep : step c s a = some s') :
    (s'.pipes id).moved = (s.pipes id).moved ∧ execution s id a = [] ∨
      (s'.pipes id).moved = (s.pipes id).moved + 1 ∧
        execution s id a = [(s.pipes id).moved + 1] := by
  have hquiet : (∀ id', a ≠ .pipe id') → (s'.pipes id).moved = (s.pipes id).moved →
      (s'.pipes id).moved = (s.pipes id).moved ∧ execution s id a = [] ∨
        (s'.pipes id).moved = (s.pipes id).moved + 1 ∧ execution s id a = [(s.pipes id).moved + 1] :=
    fun hne hmoved => Or.inl ⟨hmoved, if_neg fun hact => hne id hact.1⟩
  cases a with
  | master => exact hquiet (by simp) (masterStep_moved hstep)
  | pipe id' =>
      unfold step at hstep
      dsimp only at hstep
      by_cases hid : 1 ≤ id' ∧ id' ≤ c.numPipes
      swap
      · rw [if_neg hid] at hstep
        cases hstep
      rw [if_pos hid] at hstep
      obtain ⟨i, rfl⟩ : ∃ i, id' = i + 1 := ⟨id' - 1, by omega⟩
      -- Positions begin with `1`, so that the task at the position is one after those moved.
      have hpos := (hflow.links i hid.2).pos
      obtain ⟨hother, hself⟩ := pipeStep_moved hpos hstep
      by_cases heq : id = i + 1
      · subst heq
        by_cases hat : (s.pipes (i + 1)).at_ = .exec
        · have hmoved : (s.pipes (i + 1)).moved + 1 = (s.pipes (i + 1)).pos := by
            simp only [Pipe.moved, hat, reduceCtorEq, or_self, if_false]
            omega
          rw [if_pos hat] at hself
          refine Or.inr ⟨hself, ?_⟩
          rw [hmoved]
          exact if_pos ⟨rfl, hat⟩
        · rw [if_neg hat] at hself
          exact Or.inl ⟨hself, if_neg fun hact => hat hact.2⟩
      · refine Or.inl ⟨hother id heq, if_neg fun hact => ?_⟩
        cases hact.1
        exact heq rfl
  | unblock id' =>
      refine hquiet (by simp) ?_
      unfold step at hstep
      dsimp only at hstep
      by_cases hat : (s.pipes id').at_ = .asleep
      swap
      · rw [if_neg hat] at hstep
        cases hstep
      rw [if_pos hat] at hstep
      cases hstep
      by_cases heq : id = id'
      · subst heq
        rw [setPipe_self]
        simp [Pipe.moved, hat]
      · rw [setPipe_of_ne s _ heq]
  | boarder =>
      refine hquiet (by simp) ?_
      unfold step boarderStep at hstep
      dsimp only at hstep
      split at hstep
      · cases hstep
        rfl
      · split at hstep
        · cases hstep
          rfl
        · cases hstep
  | worker id' =>
      refine hquiet (by simp) ?_
      unfold step at hstep
      dsimp only at hstep
      split at hstep
      · rw [workerStep_pipes hstep]
      · cases hstep
  | collector =>
      refine hquiet (by simp) ?_
      unfold step collectorStep at hstep
      dsimp only at hstep
      split at hstep
      · cases hstep
        rfl
      · split at hstep
        · cases hstep
          rfl
        · cases hstep

/-! ### Over a run

The tasks a pipe has executed are counted off from the state it starts in, one step of the
run after the other; and so are the fetches in the log.
-/

/-- **A pipe executes the tasks in order.** -/
theorem executed_eq (id : Nat) (hflow : ∀ s, (system c).Reachable s → Flow c s) {acts : List Action} :
    ∀ {s s' : State}, (system c).Reachable s → (system c).run acts s = some s' →
      (s.pipes id).moved ≤ (s'.pipes id).moved ∧ executed c id acts s =
        List.range' ((s.pipes id).moved + 1) ((s'.pipes id).moved - (s.pipes id).moved) := by
  induction acts with
  | nil =>
      intro s s' _ hrun
      cases hrun
      rw [Nat.sub_self]
      exact ⟨Nat.le_refl _, rfl⟩
  | cons a acts ih =>
      intro s s' hs hrun
      obtain ⟨s₁, hstep, hrest⟩ := Option.bind_eq_some_iff.mp hrun
      obtain ⟨hle, heq⟩ := ih (hs.tail a trivial hstep) hrest
      have hsplit : executed c id (a :: acts) s = execution s id a ++ executed c id acts s₁ := by
        rw [executed, show step c s a = some s₁ from hstep]
        rfl
      rw [hsplit, heq]
      rcases moved_step id (hflow s hs) hstep with ⟨hmoved, hnone⟩ | ⟨hmoved, hone⟩
      · rw [hnone, ← hmoved]
        exact ⟨hle, List.nil_append _⟩
      · rw [hmoved] at hle
        rw [hone, hmoved]
        obtain ⟨n, hn⟩ : ∃ n, (s'.pipes id).moved = (s.pipes id).moved + 1 + n :=
          ⟨(s'.pipes id).moved - ((s.pipes id).moved + 1), by omega⟩
        have hdiff : (s'.pipes id).moved - (s.pipes id).moved = n + 1 := by omega
        have hdiff' : (s'.pipes id).moved - ((s.pipes id).moved + 1) = n := by omega
        rw [hdiff, hdiff', List.range'_succ]
        exact ⟨by omega, rfl⟩

/-- The number of a fetch. -/
def Event.fetch : Event → Option Nat
  | .fetched _ task => some task
  | .estimated .. => none

/-- All fetches, whoever made them, are numbered one after the other. -/
theorem fetched_in_order (hs : (system c).Reachable s) :
    s.log.filterMap Event.fetch = List.range' 1 s.numFetched := by
  refine hs.invariant (I := fun s => s.log.filterMap Event.fetch = List.range' 1 s.numFetched) ?_ rfl
  intro s a s' h _ hstep
  have hsame : s'.log.filterMap Event.fetch = s.log.filterMap Event.fetch →
      s'.numFetched = s.numFetched → s'.log.filterMap Event.fetch = List.range' 1 s'.numFetched := by
    intro hlog hfetched
    rw [hlog, hfetched, h]
  rcases step_loop hstep with hs | ⟨id, -, -, -, hl⟩
  · exact hsame (by rw [hs.log]) hs.fetched
  · cases hl with
    | fetch _ _ _ hfetched _ hlog =>
        have hconcat : List.range' 1 (1 + s.numFetched)
            = List.range' 1 s.numFetched ++ [1 + s.numFetched] := by
          rw [Nat.add_comm 1 s.numFetched, List.range'_1_concat, Nat.add_comm 1]
        rw [hlog, List.filterMap_append, h, hfetched, hconcat]
        rfl
    | work _ _ _ hfetched _ hlog => exact hsame (by rw [hlog]) hfetched
    | skip _ _ _ hfetched _ hlog => exact hsame (by rw [hlog]) hfetched
    | pass _ _ _ hfetched _ hlog =>
        refine hsame ?_ hfetched
        rw [hlog, List.filterMap_append]
        exact List.append_nil _
    | estimate _ _ hfetched _ hlog => exact hsame (by rw [hlog]) hfetched
    | store _ _ hfetched _ hlog => exact hsame (by rw [hlog]) hfetched

/-- What a worker works on it has fetched. -/
theorem Passing.fetched (h : Passing c s id) (hwork : (s.workers id).at_.working = true) :
    .fetched id (s.workers id).taskId ∈ s.log := by
  obtain ⟨done, hfetches, -⟩ := h.compared
  have hopen : (s.workers id).open = [(s.workers id).taskId] := by
    unfold Worker.open
    cases hat : (s.workers id).at_ with
    | head n => rfl
    | decide n => rfl
    | oneStep n => rfl
    | _ =>
        rw [hat] at hwork
        cases hwork
  have hmem : (s.workers id).taskId ∈ fetches s id := by
    rw [hfetches, hopen]
    exact List.mem_append_right _ (List.mem_singleton_self _)
  obtain ⟨e, he, hby⟩ := List.mem_filterMap.mp hmem
  cases e with
  | fetched worker task =>
      simp only [Event.fetchedBy, Option.ite_none_right_eq_some, Option.some.injEq] at hby
      obtain ⟨rfl, htask⟩ := hby
      rw [← htask]
      exact he
  | estimated => cases hby

/-! ### The pipeline

What has been proved of the counters, of the turns and of what is executed, put together
for one run.
-/

/-- The order of the pipeline, after a run from the initial state. -/
structure Pipelined (c : Config) (acts : List Action) (s : State) : Prop where
  /-- Each pipe has executed the first tasks, in order and each once. -/
  inOrder : ∀ id, 1 ≤ id → id ≤ c.numPipes →
    executed c id acts (init c) = List.range' 1 (s.pipes id).moved
  /-- What it executes the pipe before, or the master, has finished with. -/
  handedOn : ∀ i < c.numPipes, (s.pipes (i + 1)).at_ = .exec → (s.pipes (i + 1)).pos ≤ s.pushed i
  submitted : s.numSubmitted ≤ s.pushed c.numPipes
  /-- Every number is fetched once. -/
  fetched : s.log.filterMap Event.fetch = List.range' 1 s.numFetched
  /-- A worker works on a task it has fetched, which all pipes have finished with. -/
  worked : ∀ id, 1 ≤ id → (s.workers id).at_.working = true →
    .fetched id (s.workers id).taskId ∈ s.log ∧ ∀ i ≤ c.numPipes, (s.workers id).taskId ≤ s.pushed i
  exclusive : ∀ th th' k, HasTurn c s th k → HasTurn c s th' k → th = th'
  /-- No step reads or writes the execution state of a context out of turn. -/
  unseen : ∀ a k x, x.SameIssue (s.ctxs k) → (∀ th, a.thread = some th → ¬ HasTurn c s th k) →
    step c (s.withContext k x) a = (step c s a).map (·.withContext k x)
  tokens : ∀ i < c.numPipes, s.tokens i = s.pushed i - (s.pipes (i + 1)).claimed ∧ -1 ≤ s.tokens i
  /-- The boarder takes all tokens there are, and none there are not. -/
  boarded : s.tokens c.numPipes = s.pushed c.numPipes - s.boarder.localSubmitted ∧
    0 ≤ s.tokens c.numPipes

/-- **The pipeline hands every task on in order**, and no two threads use its context at
the same time. -/
theorem pipeline_ordered (hshow : Shows layout c.heap₀ c.t₀ t₀) (h₀ : VerBound 0 t₀)
    {acts : List Action} (hrun : (system c).run acts (init c) = some s) : Pipelined c acts s := by
  have hflow : ∀ s, (system c).Reachable s → Flow c s := by
    intro s hs
    obtain ⟨steps, hinv⟩ := inv_reachable hshow h₀ hs
    exact hinv.flow
  have hs : (system c).Reachable s := System.reach_of_run hrun
  obtain ⟨steps, hinv⟩ := inv_reachable hshow h₀ hs
  have hlinks := hinv.flow.links
  refine ⟨fun id _ _ => ?_, fun i hi hat => (hlinks i hi).entered (Or.inl hat),
    hinv.flow.submitted_le, fetched_in_order hs, fun id hid hwork => ⟨?_, fun i hi => ?_⟩,
    fun th th' k => hinv.exclusive, fun a k x => step_withContext, fun i hi => ?_, ?_⟩
  · exact (executed_eq id hflow .refl hrun).2
  · exact (passing_reachable hs id hid).fetched hwork
  · exact (hinv.worker_turn ⟨rfl, hwork⟩).2.trans (hinv.flow.pushed_anti hi (Nat.le_refl _))
  · have hlink := hlinks i hi
    have hbalance := hlink.balance
    have hroom := hlink.room
    have hclaimed : (s.pipes (i + 1)).claimed ≤ (s.pipes (i + 1)).pos := by
      unfold Pipe.claimed
      split <;> omega
    exact ⟨hbalance, by omega⟩
  · have hlast := hinv.flow.last
    have htaken := hinv.flow.taken
    exact ⟨hlast, by omega⟩

/-- Three queries on the empty treap, of which the boarder has submitted all. -/
theorem pipeline_ordered_queried :
    ∃ s, (system queried).Reachable s ∧ s.numSubmitted = 3 ∧
      executed queried 1 allSubmitted (init queried) = [1, 2, 3] := by
  obtain ⟨s, hrun⟩ : ∃ s, (system queried).run allSubmitted (init queried) = some s := ⟨_, rfl⟩
  have hstate : (s.pipes 1).moved = 3 ∧ s.numSubmitted = 3 := by
    cases hrun
    decide
  have horder := (pipeline_ordered .nil verBound_nil hrun).inOrder 1
    (by decide) (by decide)
  rw [hstate.1] at horder
  exact ⟨s, System.reach_of_run hrun, hstate.2, horder⟩

end Scheduler
