/-
Which versions a worker has estimated.

The versions are divided into blocks, and worker `id` has every `numWorkers`-th block
from block `id - 1` on.  It goes through them in order, and passes at most one for each
task it fetches: when the task is at the end of its block or after it.  `Loop` is what
one step does to the variables of `worker_thread_`, and `Passing` what is known of them
in every state.

Whether the last fetch leaves a worker at the end of its blocks depends on which tasks
it was given.  A worker that fetches a few tasks far apart stays behind, and then the
snapshots of its last blocks are waited for in vain.
-/
import Mathlib.Tactic.Ring
import Contreap.Lib.CatchUp
import Contreap.Model.Scheduler

namespace Scheduler

open CatchUp Transition

variable {c : Config} {s s' : State} {a : Action} {id id' : Nat}

/-! ### One step of a worker

Every step of the scheduler is sorted here once and for all by what it does to the
variables of a worker's loop, and most do nothing to them.
-/

/-- The loop of another worker, or of this one at another time: no variable of it changes. -/
structure Silent (s s' : State) : Prop where
  workers : s'.workers = s.workers
  fetched : s'.numFetched = s.numFetched
  estimated : s'.numEstimated = s.numEstimated
  log : s'.log = s.log

/-- With the task fetched last not compared with the end of the block yet. -/
def WorkerAt.pending : WorkerAt → Bool
  | .waitSubmit | .head _ | .decide _ | .oneStep _ | .settle => true
  | _ => false

/-- What a step of a worker does to the variables of its loop. -/
inductive Loop (c : Config) (s : State) (id : Nat) (s' : State) : Prop
  | fetch {p : WorkerAt} (hat : (s.workers id).at_ = .fetch) (hp : p.pending = true)
      (hworkers : s'.workers = Function.update s.workers id
        { s.workers id with taskId := 1 + s.numFetched, at_ := p })
      (hfetched : s'.numFetched = 1 + s.numFetched) (hestimated : s'.numEstimated = s.numEstimated)
      (hlog : s'.log = s.log ++ [.fetched id (1 + s.numFetched)])
  | work {p : WorkerAt} {cached : Nat} (hat : (s.workers id).at_.pending = true)
      (hp : p.pending = true)
      (hworkers : s'.workers = Function.update s.workers id
        { s.workers id with cachedSubmit := cached, at_ := p })
      (hfetched : s'.numFetched = s.numFetched) (hestimated : s'.numEstimated = s.numEstimated)
      (hlog : s'.log = s.log)
  | skip (hat : (s.workers id).at_ = .settle) (hlt : (s.workers id).taskId < (s.workers id).blockEnd)
      (hworkers : s'.workers = Function.update s.workers id
        { s.workers id with at_ := again c (s.workers id).taskId })
      (hfetched : s'.numFetched = s.numFetched) (hestimated : s'.numEstimated = s.numEstimated)
      (hlog : s'.log = s.log)
  | pass (hat : (s.workers id).at_ = .settle) (hle : (s.workers id).blockEnd ≤ (s.workers id).taskId)
      (hworkers : s'.workers = Function.update s.workers id
        { s.workers id with
          at_ := if (s.workers id).blockStart ≤ (s.workers id).blockEnd then
            .estimate (s.workers id).blockEnd else .store })
      (hfetched : s'.numFetched = s.numFetched) (hestimated : s'.numEstimated = s.numEstimated)
      (hlog : s'.log = s.log ++ [.estimated id (s.workers id).blockStart (s.workers id).blockEnd])
  | estimate {task : Nat} (hat : (s.workers id).at_ = .estimate task)
      (hworkers : s'.workers = Function.update s.workers id
        { s.workers id with
          at_ := if (s.workers id).blockStart ≤ task - 1 then .estimate (task - 1) else .store })
      (hfetched : s'.numFetched = s.numFetched) (hestimated : s'.numEstimated = s.numEstimated)
      (hlog : s'.log = s.log)
  | store (hat : (s.workers id).at_ = .store)
      (hworkers : s'.workers = Function.update s.workers id
        { s.workers id with
          blockCount := (s.workers id).blockCount + 1
          blockStart := (s.workers id).blockStart + c.numWorkers * c.blockSize
          blockEnd := blockEnd c ((s.workers id).blockStart + c.numWorkers * c.blockSize)
          at_ := again c (s.workers id).taskId })
      (hfetched : s'.numFetched = s.numFetched)
      (hestimated : s'.numEstimated
        = Function.update s.numEstimated (id - 1) ((s.workers id).blockCount + 1))
      (hlog : s'.log = s.log)

/-- The steps inside `work_update_` are all of one kind: the task stays, and what changes
is where the worker is with it. -/
theorem workerStep_loop (hstep : workerStep c s id = some s') : Loop c s id s' := by
  unfold workerStep at hstep
  cases hat : (s.workers id).at_ with
  | fetch =>
      simp only [hat] at hstep
      cases hstep
      refine .fetch hat ?_ rfl rfl rfl rfl
      split <;> rfl
  | waitSubmit =>
      simp only [hat] at hstep
      split at hstep
      · cases hstep
        exact .work (hat ▸ rfl) rfl rfl rfl rfl rfl
      · split at hstep
        · cases hstep
          exact .work (hat ▸ rfl) rfl rfl rfl rfl rfl
        · cases hstep
  | head n =>
      simp only [hat] at hstep
      split at hstep
      · cases hstep
        exact .work (hat ▸ rfl) rfl rfl rfl rfl rfl
      · cases hstep
        exact .work (hat ▸ rfl) rfl rfl rfl rfl rfl
  | decide n =>
      simp only [hat, Option.bind_eq_bind] at hstep
      obtain ⟨v, -, hstep⟩ := Option.bind_eq_some_iff.mp hstep
      split at hstep
      · obtain ⟨x, -, hx⟩ := Option.bind_eq_some_iff.mp hstep
        cases hx
        exact .work (hat ▸ rfl) rfl rfl rfl rfl rfl
      · cases hstep
        exact .work (hat ▸ rfl) rfl rfl rfl rfl rfl
  | oneStep n =>
      simp only [hat, Option.bind_eq_bind] at hstep
      obtain ⟨v, -, hstep⟩ := Option.bind_eq_some_iff.mp hstep
      split at hstep
      · cases hstep
      · obtain ⟨x, -, hx⟩ := Option.bind_eq_some_iff.mp hstep
        cases hx
        exact .work (hat ▸ rfl) rfl rfl rfl rfl rfl
  | settle =>
      simp only [hat] at hstep
      split at hstep
      · next hle =>
          cases hstep
          exact .pass hat hle rfl rfl rfl rfl
      · next hlt =>
          cases hstep
          exact .skip hat (Nat.lt_of_not_le hlt) rfl rfl rfl rfl
  | estimate task =>
      simp only [hat, Option.bind_eq_bind] at hstep
      obtain ⟨x, -, hx⟩ := Option.bind_eq_some_iff.mp hstep
      cases hx
      exact .estimate hat rfl rfl rfl rfl
  | store =>
      simp only [hat] at hstep
      cases hstep
      exact .store hat rfl rfl rfl rfl
  | stopped =>
      simp only [hat] at hstep
      cases hstep

theorem notify_silent (s : State) (i : Nat) : Silent s (s.notify i) := by
  unfold State.notify
  split <;> exact ⟨rfl, rfl, rfl, rfl⟩

/-- Issuing a task touches nothing of the workers. -/
theorem initContext_silent {op : Op} (hinit : initContext c s op = some s') : Silent s s' := by
  have hstart : ∀ ctx, initContext.start s ctx = some s' → Silent s s' := by
    intro ctx hrun
    unfold initContext.start at hrun
    rw [Option.bind_eq_bind] at hrun
    obtain ⟨x, -, hx⟩ := Option.bind_eq_some_iff.mp hrun
    cases hx
    exact ⟨rfl, rfl, rfl, rfl⟩
  cases op with
  | insertElem elem => exact hstart _ hinit
  | deleteElem elem => exact hstart _ hinit
  | nop =>
      cases hinit
      exact ⟨rfl, rfl, rfl, rfl⟩

theorem masterStep_silent (hstep : masterStep c s = some s') : Silent s s' := by
  unfold masterStep at hstep
  split at hstep
  · obtain ⟨op, -, hinit⟩ := Option.bind_eq_some_iff.mp hstep
    exact initContext_silent hinit
  · cases hstep
    exact ⟨rfl, rfl, rfl, rfl⟩
  · cases hstep
    obtain ⟨hworkers, hfetched, hestimated, hlog⟩ := notify_silent s 0
    exact ⟨hworkers, hfetched, hestimated, hlog⟩

/-- Neither does a pipe. -/
theorem pipeStep_silent (hstep : pipeStep c s id = some s') : Silent s s' := by
  unfold pipeStep at hstep
  simp only at hstep
  split at hstep
  · split at hstep
    · cases hstep
      exact ⟨rfl, rfl, rfl, rfl⟩
    · cases hstep
      exact ⟨rfl, rfl, rfl, rfl⟩
    · cases hstep
    · split at hstep
      · cases hstep
        exact ⟨rfl, rfl, rfl, rfl⟩
      · rw [Option.bind_eq_bind] at hstep
        obtain ⟨x, -, hx⟩ := Option.bind_eq_some_iff.mp hstep
        cases hx
        exact ⟨rfl, rfl, rfl, rfl⟩
    · cases hstep
      exact ⟨rfl, rfl, rfl, rfl⟩
    · cases hstep
      obtain ⟨hworkers, hfetched, hestimated, hlog⟩ := notify_silent s id
      exact ⟨hworkers, hfetched, hestimated, hlog⟩
  · cases hstep

/-- A step is one of a worker's loop, or changes nothing there. -/
theorem step_loop (hstep : step c s a = some s') :
    Silent s s' ∨ ∃ id, 1 ≤ id ∧ id ≤ c.numWorkers ∧ a = .worker id ∧ Loop c s id s' := by
  cases a with
  | master => exact Or.inl (masterStep_silent hstep)
  | pipe id =>
      simp only [step] at hstep
      split at hstep
      · exact Or.inl (pipeStep_silent hstep)
      · cases hstep
  | unblock id =>
      simp only [step] at hstep
      split at hstep
      · cases hstep
        exact Or.inl ⟨rfl, rfl, rfl, rfl⟩
      · cases hstep
  | boarder =>
      refine Or.inl ?_
      simp only [step, boarderStep] at hstep
      split at hstep
      · cases hstep
        exact ⟨rfl, rfl, rfl, rfl⟩
      · split at hstep
        · cases hstep
          exact ⟨rfl, rfl, rfl, rfl⟩
        · cases hstep
  | worker id =>
      simp only [step] at hstep
      split at hstep
      · next hid => exact Or.inr ⟨id, hid.1, hid.2, rfl, workerStep_loop hstep⟩
      · cases hstep
  | collector =>
      refine Or.inl ?_
      simp only [step, collectorStep] at hstep
      split at hstep
      · cases hstep
        exact ⟨rfl, rfl, rfl, rfl⟩
      · split at hstep
        · cases hstep
          exact ⟨rfl, rfl, rfl, rfl⟩
        · cases hstep

/-! ### The blocks of a worker

A worker passes a block when a task it has fetched is at its end or beyond.  So which
blocks it has passed is a function of the tasks it has fetched, in the order in which it
fetched them: `catchUp`.
-/

/-- Where block `j` of worker `id` starts. -/
def blockStart (c : Config) (id j : Nat) : Nat :=
  (id - 1) * c.blockSize + 1 + j * (c.numWorkers * c.blockSize)

/-- The task number from which on a worker passes its block `j`. -/
def due (c : Config) (id j : Nat) : Nat := blockEnd c (blockStart c id j)

theorem blockStart_succ (c : Config) (id j : Nat) :
    blockStart c id (j + 1) = blockStart c id j + c.numWorkers * c.blockSize := by
  simp only [blockStart, Nat.succ_mul, Nat.add_assoc]

/-- The task of an event, if this worker has fetched it. -/
def Event.fetchedBy (id : Nat) : Event → Option Nat
  | .fetched worker task => if worker = id then some task else none
  | .estimated .. => none

/-- The tasks a worker has fetched, in order. -/
def fetches (s : State) (id : Nat) : List Nat := s.log.filterMap (Event.fetchedBy id)

/-- In `work_estimate_`, or past it with the count not stored. -/
def WorkerAt.passing : WorkerAt → Bool
  | .estimate _ | .store => true
  | _ => false

/-- The blocks passed to `work_estimate_` so far. -/
def Worker.passed (w : Worker) : Nat := if w.at_.passing then w.blockCount + 1 else w.blockCount

/-- The fetch that is not compared yet. -/
def Worker.open (w : Worker) : List Nat := if w.at_.pending then [w.taskId] else []

/-- What is known of a worker's loop.  The block it is at is the one its count says, and
it has passed exactly the blocks that the tasks it has compared so far are due to pass;
the log has them all. -/
structure Passing (c : Config) (s : State) (id : Nat) : Prop where
  start : (s.workers id).blockStart = blockStart c id (s.workers id).blockCount
  stop : (s.workers id).blockEnd = due c id (s.workers id).blockCount
  stored : s.numEstimated (id - 1) = (s.workers id).blockCount
  within : ∀ task, (s.workers id).at_ = .estimate task →
    (s.workers id).blockStart ≤ task ∧ task ≤ (s.workers id).blockEnd
  estimated : ∀ start stop, .estimated id start stop ∈ s.log ↔
    ∃ j < (s.workers id).passed, start = blockStart c id j ∧ stop = due c id j
  sorted : (fetches s id).Pairwise (· ≤ ·)
  bounded : ∀ task ∈ fetches s id, task ≤ s.numFetched
  compared : ∃ done, fetches s id = done ++ (s.workers id).open ∧
    (s.workers id).passed = catchUp (due c id) 0 done

theorem passing_init (c : Config) (id : Nat) : Passing c (init c) id := by
  refine ⟨?_, ?_, rfl, nofun, fun start stop => ?_, .nil, nofun, [], rfl, rfl⟩
  · simp [init, startWorker, blockStart]
  · simp [init, startWorker, blockStart, due]
  · constructor
    · nofun
    · rintro ⟨j, hj, -⟩
      exact absurd hj (Nat.not_lt_zero j)

/-- What is known of one worker's loop stays true when others move, or when its own step
is none of the loop. -/
theorem Passing.frame (h : Passing c s id) (hworker : s'.workers id = s.workers id)
    (hfetched : s.numFetched ≤ s'.numFetched)
    (hestimated : s'.numEstimated (id - 1) = s.numEstimated (id - 1))
    (hfetches : fetches s' id = fetches s id)
    (hlog : ∀ start stop, Event.estimated id start stop ∈ s'.log ↔
      Event.estimated id start stop ∈ s.log) : Passing c s' id := by
  obtain ⟨hstart, hstop, hstored, hwithin, hest, hsorted, hbounded, hcompared⟩ := h
  constructor
  · rw [hworker]
    exact hstart
  · rw [hworker]
    exact hstop
  · rw [hestimated, hworker]
    exact hstored
  · rw [hworker]
    exact hwithin
  · intro start stop
    rw [hlog, hworker]
    exact hest start stop
  · rw [hfetches]
    exact hsorted
  · rw [hfetches]
    exact fun task htask => (hbounded task htask).trans hfetched
  · rw [hfetches, hworker]
    exact hcompared

/-- When a worker moves on with no task to compare, and has passed as many blocks as before. -/
theorem Passing.move (h : Passing c s id) {w : Worker}
    (hworker : s'.workers id = w) (hcount : w.blockCount = (s.workers id).blockCount)
    (hstart : w.blockStart = (s.workers id).blockStart) (hstop : w.blockEnd = (s.workers id).blockEnd)
    (hpassed : w.passed = (s.workers id).passed)
    (hwithin : ∀ task, w.at_ = .estimate task → w.blockStart ≤ task ∧ task ≤ w.blockEnd)
    (hfetched : s'.numFetched = s.numFetched)
    (hestimated : s'.numEstimated = s.numEstimated) (hlog : s'.log = s.log)
    (hcompared : ∃ done, fetches s id = done ++ w.open ∧ w.passed = catchUp (due c id) 0 done) :
    Passing c s' id := by
  have hfetches : fetches s' id = fetches s id := by rw [fetches, hlog]; rfl
  constructor
  · rw [hworker, hstart, hcount]
    exact h.start
  · rw [hworker, hstop, hcount]
    exact h.stop
  · rw [hestimated, hworker, hcount]
    exact h.stored
  · rw [hworker]
    exact hwithin
  · intro start stop
    rw [hlog, hworker, hpassed]
    exact h.estimated start stop
  · rw [hfetches]
    exact h.sorted
  · rw [hfetches, hfetched]
    exact h.bounded
  · rw [hfetches, hworker]
    exact hcompared

/-! ### One step of a worker's loop

A worker fetches a task, works on it, and compares it with the end of its block; and it
passes the block or goes on to the next task.  The tasks it has compared are those that
count for the blocks it has passed, and the one it has fetched last may be still to come.
-/

theorem again_eq (c : Config) (task : Nat) : again c task = .fetch ∨ again c task = .stopped := by
  unfold again
  split
  · exact Or.inl rfl
  · exact Or.inr rfl

theorem again_not_pending (c : Config) (task : Nat) : (again c task).pending = false := by
  rcases again_eq c task with h | h
  · rw [h]; rfl
  · rw [h]; rfl

theorem again_not_passing (c : Config) (task : Nat) : (again c task).passing = false := by
  rcases again_eq c task with h | h
  · rw [h]; rfl
  · rw [h]; rfl

theorem WorkerAt.passing_of_pending {at_ : WorkerAt} (h : at_.pending = true) :
    at_.passing = false := by
  cases at_ <;> first | rfl | cases h

theorem fetches_append (s : State) (id : Nat) (e : Event) (hlog : s'.log = s.log ++ [e]) :
    fetches s' id = fetches s id ++ (e.fetchedBy id).toList := by
  rw [fetches, hlog, List.filterMap_append]
  cases he : e.fetchedBy id with
  | none => simp [fetches, he]
  | some task => simp [fetches, he]

/-- The comparison with the end of the block, which the settled worker makes next. -/
theorem Passing.compare (h : Passing c s id) (hat : (s.workers id).at_ = .settle) :
    ∃ done, fetches s id = done ∧ catchUp (due c id) 0 done =
      if (s.workers id).blockEnd ≤ (s.workers id).taskId then (s.workers id).blockCount + 1
      else (s.workers id).blockCount := by
  obtain ⟨done, hfetches, hpassed⟩ := h.compared
  have hopen : (s.workers id).open = [(s.workers id).taskId] := by
    rw [Worker.open, hat]
    rfl
  have hcount : (s.workers id).passed = (s.workers id).blockCount := by
    rw [Worker.passed, hat]
    rfl
  refine ⟨_, rfl, ?_⟩
  rw [hfetches, hopen, catchUp_append, ← hpassed, hcount, h.stop]
  rfl

section
variable (h : Passing c s id)
include h

/-- The task fetched is later than all before it, and is still to be compared. -/
theorem Passing.fetch {p : WorkerAt} (hat : (s.workers id).at_ = .fetch) (hp : p.pending = true)
    (hworker : s'.workers id = { s.workers id with taskId := 1 + s.numFetched, at_ := p })
    (hfetched : s'.numFetched = 1 + s.numFetched) (hestimated : s'.numEstimated = s.numEstimated)
    (hlog : s'.log = s.log ++ [.fetched id (1 + s.numFetched)]) : Passing c s' id := by
  have hfetches : fetches s' id = fetches s id ++ [1 + s.numFetched] := by
    rw [fetches_append s id _ hlog]
    simp [Event.fetchedBy]
  have hpassed : (s'.workers id).passed = (s.workers id).passed := by
    rw [hworker, Worker.passed, Worker.passed, hat, WorkerAt.passing_of_pending hp]
    rfl
  obtain ⟨done, hdone, hcount⟩ := h.compared
  have hopen : (s.workers id).open = [] := by
    rw [Worker.open, hat]
    rfl
  constructor
  · rw [hworker]
    exact h.start
  · rw [hworker]
    exact h.stop
  · rw [hestimated, hworker]
    exact h.stored
  · intro task htask
    rw [hworker] at htask
    rw [show p = .estimate task from htask] at hp
    cases hp
  · intro start stop
    rw [hpassed, ← h.estimated, hlog]
    simp
  · rw [hfetches, List.pairwise_append]
    refine ⟨h.sorted, List.pairwise_singleton .., fun task htask task' htask' => ?_⟩
    have := h.bounded task htask
    rw [List.mem_singleton.mp htask']
    omega
  · intro task htask
    rw [hfetched]
    rw [hfetches, List.mem_append] at htask
    rcases htask with htask | htask
    · have := h.bounded task htask
      omega
    · exact (List.mem_singleton.mp htask).le
  · refine ⟨done, ?_, hpassed.trans hcount⟩
    rw [hfetches, hdone, hopen, List.append_nil, hworker, Worker.open, if_pos hp]

/-- The worker comes to the end of its block, which it is about to estimate. -/
theorem Passing.pass (hat : (s.workers id).at_ = .settle)
    (hle : (s.workers id).blockEnd ≤ (s.workers id).taskId)
    (hworker : s'.workers id = { s.workers id with
      at_ := if (s.workers id).blockStart ≤ (s.workers id).blockEnd then
        .estimate (s.workers id).blockEnd else .store })
    (hfetched : s'.numFetched = s.numFetched) (hestimated : s'.numEstimated = s.numEstimated)
    (hlog : s'.log = s.log ++ [.estimated id (s.workers id).blockStart (s.workers id).blockEnd]) :
    Passing c s' id := by
  obtain ⟨p, hp⟩ : ∃ p, p = if (s.workers id).blockStart ≤ (s.workers id).blockEnd then
    WorkerAt.estimate (s.workers id).blockEnd else .store := ⟨_, rfl⟩
  rw [← hp] at hworker
  have hpassing : p.passing = true ∧ p.pending = false := by
    rw [hp]
    split <;> exact ⟨rfl, rfl⟩
  have hcount : (s.workers id).passed = (s.workers id).blockCount := by
    rw [Worker.passed, hat]
    rfl
  have hpassed : (s'.workers id).passed = (s.workers id).blockCount + 1 := by
    rw [hworker, Worker.passed, hpassing.1]
    rfl
  have hfetches : fetches s' id = fetches s id := by
    rw [fetches_append s id _ hlog]
    simp [Event.fetchedBy]
  constructor
  · rw [hworker]
    exact h.start
  · rw [hworker]
    exact h.stop
  · rw [hestimated, hworker]
    exact h.stored
  · intro task htask
    rw [hworker] at htask ⊢
    rw [hp] at htask
    dsimp only at htask
    split at htask
    · cases htask
      exact ⟨by assumption, Nat.le_refl _⟩
    · cases htask
  · intro start stop
    have hold := h.estimated start stop
    rw [hcount] at hold
    rw [hpassed, hlog, List.mem_append, hold, List.mem_singleton, h.start, h.stop]
    constructor
    · rintro (⟨j, hj, hblock⟩ | heq)
      · exact ⟨j, Nat.lt_succ_of_lt hj, hblock⟩
      · cases heq
        exact ⟨_, Nat.lt_succ_self _, rfl, rfl⟩
    · rintro ⟨j, hj, hstart, hstop⟩
      rcases Nat.lt_succ_iff_lt_or_eq.mp hj with hlt | rfl
      · exact Or.inl ⟨j, hlt, hstart, hstop⟩
      · exact Or.inr (by rw [hstart, hstop])
  · rw [hfetches]
    exact h.sorted
  · rw [hfetches, hfetched]
    exact h.bounded
  · obtain ⟨done, hdone, hcompared⟩ := h.compare hat
    rw [if_pos hle] at hcompared
    refine ⟨done, ?_, hpassed.trans hcompared.symm⟩
    rw [hfetches, hdone, hworker, Worker.open, hpassing.2]
    exact (List.append_nil _).symm

/-- The count is stored, and the worker has its next block. -/
theorem Passing.store (hat : (s.workers id).at_ = .store)
    (hworker : s'.workers id = { s.workers id with
      blockCount := (s.workers id).blockCount + 1
      blockStart := (s.workers id).blockStart + c.numWorkers * c.blockSize
      blockEnd := blockEnd c ((s.workers id).blockStart + c.numWorkers * c.blockSize)
      at_ := again c (s.workers id).taskId })
    (hfetched : s'.numFetched = s.numFetched)
    (hestimated : s'.numEstimated
      = Function.update s.numEstimated (id - 1) ((s.workers id).blockCount + 1))
    (hlog : s'.log = s.log) : Passing c s' id := by
  have hpassed : (s'.workers id).passed = (s.workers id).passed := by
    rw [hworker, Worker.passed, Worker.passed, again_not_passing, hat]
    rfl
  have hfetches : fetches s' id = fetches s id := by rw [fetches, hlog]; rfl
  constructor
  · rw [hworker]
    show (s.workers id).blockStart + _ = _
    rw [blockStart_succ, h.start]
  · rw [hworker]
    show blockEnd c ((s.workers id).blockStart + _) = _
    rw [h.start, ← blockStart_succ]
    rfl
  · rw [hestimated, hworker, Function.update_self]
  · intro task htask
    rw [hworker] at htask
    rcases again_eq c (s.workers id).taskId with heq | heq
    · cases heq.symm.trans htask
    · cases heq.symm.trans htask
  · intro start stop
    rw [hpassed, hlog]
    exact h.estimated start stop
  · rw [hfetches]
    exact h.sorted
  · rw [hfetches, hfetched]
    exact h.bounded
  · obtain ⟨done, hdone, hcount⟩ := h.compared
    refine ⟨done, ?_, hpassed.trans hcount⟩
    rw [hfetches, hdone, hworker, Worker.open, Worker.open, again_not_pending, hat]
    rfl

end

/-! ### The loop of a worker, and those of the others

What is known of a worker is about its own variables, the fetches it has made and its own
counter of blocks.  A step of another worker changes none of them.
-/

/-- Each kind of step of the loop keeps what is known of it. -/
theorem Loop.passing (hl : Loop c s id s') (h : Passing c s id) : Passing c s' id := by
  have hself : ∀ w, Function.update s.workers id w id = w := fun w => Function.update_self ..
  cases hl with
  | fetch hat hp hworkers hfetched hestimated hlog =>
      exact h.fetch hat hp ((congrFun hworkers id).trans (hself _)) hfetched hestimated hlog
  | @work p cached hat hp hworkers hfetched hestimated hlog =>
      have hworker := (congrFun hworkers id).trans (hself _)
      have hpassed : ({ s.workers id with cachedSubmit := cached, at_ := p } : Worker).passed
          = (s.workers id).passed := by
        rw [Worker.passed, Worker.passed, WorkerAt.passing_of_pending hp,
          WorkerAt.passing_of_pending hat]
      refine h.move hworker rfl rfl rfl hpassed ?_ hfetched hestimated hlog ?_
      · intro task htask
        rw [show p = .estimate task from htask] at hp
        cases hp
      · obtain ⟨done, hdone, hcount⟩ := h.compared
        refine ⟨done, ?_, hpassed.trans hcount⟩
        rw [hdone, Worker.open, Worker.open, if_pos hat, if_pos hp]
  | skip hat hlt hworkers hfetched hestimated hlog =>
      have hworker := (congrFun hworkers id).trans (hself _)
      have hpassed : ({ s.workers id with at_ := again c (s.workers id).taskId } : Worker).passed
          = (s.workers id).passed := by
        rw [Worker.passed, Worker.passed, again_not_passing, hat]
        rfl
      refine h.move hworker rfl rfl rfl hpassed ?_ hfetched hestimated hlog ?_
      · intro task htask
        rcases again_eq c (s.workers id).taskId with heq | heq
        · cases heq.symm.trans htask
        · cases heq.symm.trans htask
      · obtain ⟨done, hdone, hcount⟩ := h.compare hat
        rw [if_neg (Nat.not_le.mpr hlt)] at hcount
        refine ⟨done, ?_, ?_⟩
        · rw [hdone, Worker.open, again_not_pending]
          exact (List.append_nil _).symm
        · rw [hcount, Worker.passed, again_not_passing]
          rfl
  | pass hat hle hworkers hfetched hestimated hlog =>
      exact h.pass hat hle ((congrFun hworkers id).trans (hself _)) hfetched hestimated hlog
  | @estimate task hat hworkers hfetched hestimated hlog =>
      have hworker := (congrFun hworkers id).trans (hself _)
      obtain ⟨p, hp⟩ : ∃ p, p = if (s.workers id).blockStart ≤ task - 1 then
        WorkerAt.estimate (task - 1) else .store := ⟨_, rfl⟩
      rw [← hp] at hworker
      have hpassing : p.passing = true ∧ p.pending = false := by
        rw [hp]
        split <;> exact ⟨rfl, rfl⟩
      have hpassed : ({ s.workers id with at_ := p } : Worker).passed = (s.workers id).passed := by
        rw [Worker.passed, Worker.passed, hpassing.1, hat]
        rfl
      refine h.move hworker rfl rfl rfl hpassed ?_ hfetched hestimated hlog ?_
      · intro task' htask
        have hwithin := h.within task hat
        rw [show p = .estimate task' from htask] at hp
        split at hp
        · cases hp
          dsimp only
          omega
        · cases hp
      · obtain ⟨done, hdone, hcount⟩ := h.compared
        refine ⟨done, ?_, hpassed.trans hcount⟩
        rw [hdone, Worker.open, Worker.open, hpassing.2, hat]
        rfl
  | store hat hworkers hfetched hestimated hlog =>
      exact h.store hat ((congrFun hworkers id).trans (hself _)) hfetched hestimated hlog

theorem Loop.other (hl : Loop c s id s') (hne : id' ≠ id) : s'.workers id' = s.workers id' := by
  cases hl with
  | fetch _ _ hworkers => exact hworkers ▸ Function.update_of_ne hne ..
  | work _ _ hworkers => exact hworkers ▸ Function.update_of_ne hne ..
  | skip _ _ hworkers => exact hworkers ▸ Function.update_of_ne hne ..
  | pass _ _ hworkers => exact hworkers ▸ Function.update_of_ne hne ..
  | estimate _ hworkers => exact hworkers ▸ Function.update_of_ne hne ..
  | store _ hworkers => exact hworkers ▸ Function.update_of_ne hne ..

/-- The loop of one worker leaves those of the others alone. -/
theorem Loop.others (hl : Loop c s id s') (h : Passing c s id') (hne : id' ≠ id) (hid : 1 ≤ id)
    (hid' : 1 ≤ id') : Passing c s' id' := by
  have hother := hl.other hne
  have hfetches : ∀ e, s'.log = s.log ++ [e] → (∀ task, e ≠ .fetched id' task) →
      fetches s' id' = fetches s id' := by
    intro e hlog he
    rw [fetches_append s id' e hlog]
    cases e with
    | fetched worker task =>
        have hworker : worker ≠ id' := fun heq => he task (heq ▸ rfl)
        simp [Event.fetchedBy, hworker]
    | estimated => exact List.append_nil _
  cases hl with
  | fetch _ _ _ hfetched hestimated hlog =>
      refine h.frame hother (by omega) (by rw [hestimated])
        (hfetches _ hlog fun task heq => ?_) fun start stop => by rw [hlog]; simp
      cases heq
      exact hne rfl
  | work _ _ _ hfetched hestimated hlog =>
      exact h.frame hother hfetched.ge (by rw [hestimated])
        (by rw [fetches, hlog]; rfl) fun start stop => by rw [hlog]
  | skip _ _ _ hfetched hestimated hlog =>
      exact h.frame hother hfetched.ge (by rw [hestimated])
        (by rw [fetches, hlog]; rfl) fun start stop => by rw [hlog]
  | pass _ _ _ hfetched hestimated hlog =>
      refine h.frame hother hfetched.ge (by rw [hestimated])
        (hfetches _ hlog nofun) fun start stop => ?_
      rw [hlog]
      simp [hne]
  | estimate _ _ hfetched hestimated hlog =>
      exact h.frame hother hfetched.ge (by rw [hestimated])
        (by rw [fetches, hlog]; rfl) fun start stop => by rw [hlog]
  | store _ _ hfetched hestimated hlog =>
      refine h.frame hother hfetched.ge ?_
        (by rw [fetches, hlog]; rfl) fun start stop => by rw [hlog]
      rw [hestimated, Function.update_of_ne (by omega)]

theorem Silent.passing (hs : Silent s s') (h : Passing c s id) : Passing c s' id :=
  h.frame (congrFun hs.workers id) hs.fetched.ge (congrFun hs.estimated _)
    (by rw [fetches, hs.log]; rfl) fun start stop => by rw [hs.log]

theorem passing_step (hstep : step c s a = some s') (h : ∀ id, 1 ≤ id → Passing c s id) :
    ∀ id, 1 ≤ id → Passing c s' id := by
  intro id hid
  rcases step_loop hstep with hs | ⟨id', hid', -, -, hl⟩
  · exact hs.passing (h id hid)
  · by_cases heq : id = id'
    · exact heq ▸ hl.passing (heq ▸ h id hid)
    · exact hl.others (h id hid) heq hid' hid

theorem passing_reachable (hs : (system c).Reachable s) : ∀ id, 1 ≤ id → Passing c s id :=
  hs.invariant (I := fun s => ∀ id, 1 ≤ id → Passing c s id)
    (fun _ _ _ h _ hstep => passing_step hstep h) fun id _ => passing_init c id

/-! ### When all blocks are estimated

Fetched numbers only grow, and each passes one block at the most.  That all blocks are
passed is a condition on the sequence of fetches, and the log has this sequence.
-/

/-- The worker of a block, and which of its blocks that is. -/
theorem blockStart_div_mod (c : Config) (b : Nat) :
    blockStart c (b % c.numWorkers + 1) (b / c.numWorkers) = b * c.blockSize + 1 := by
  have hb := Nat.div_add_mod b c.numWorkers
  calc blockStart c (b % c.numWorkers + 1) (b / c.numWorkers)
      = (c.numWorkers * (b / c.numWorkers) + b % c.numWorkers) * c.blockSize + 1 := by
        rw [blockStart, Nat.add_sub_cancel]
        ring
    _ = b * c.blockSize + 1 := by rw [hb]

/-- A worker that has stopped has counted as many blocks as its fetches let it pass. -/
theorem Passing.counted (h : Passing c s id) (hat : (s.workers id).at_ = .stopped) :
    s.numEstimated (id - 1) = catchUp (due c id) 0 (fetches s id) ∧
      (s.workers id).passed = s.numEstimated (id - 1) := by
  obtain ⟨done, hdone, hcount⟩ := h.compared
  have hpassed : (s.workers id).passed = s.numEstimated (id - 1) := by
    rw [h.stored, Worker.passed, hat]
    rfl
  rw [Worker.open, hat] at hdone
  rw [← hpassed, hcount, hdone]
  exact ⟨congrArg _ (List.append_nil _).symm, rfl⟩

/-- Two workers and three queries, in blocks of one version. -/
def queried : Config where
  numPipes := 1
  numWorkers := 2
  blockSize := 1
  numTasks := 3
  hash := fun elem => elem
  ops := [.nop, .nop, .nop]
  heap₀ := ⟨#[]⟩
  t₀ := none

/-- All tasks are issued, go through the pipe and are submitted. -/
def allSubmitted : List Action :=
  List.replicate 6 .master ++ List.replicate 9 (.pipe 1) ++ List.replicate 2 .boarder

end Scheduler
