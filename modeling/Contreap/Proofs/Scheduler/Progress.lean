/-
The scheduler does not deadlock while updates remain.

The argument is about the first task that is not committed.  All tasks before it are
done, so nothing waits on anything but this one, and it is somewhere: done, and then
the collector can count it; with the master; in front of a pipe, and then that pipe,
or whoever is to wake it, can go on, since every task it has before is done or is this
one; past the pipes, and then the boarder can; or submitted, and then the worker that
holds it can, or any worker if it has not been fetched.

What a worker or a pipe waits for in a tree is a version before its task's, which for
this task is committed.
-/
import Contreap.Proofs.Scheduler.Threads

namespace Scheduler

open BinaryTree PtrHeap Treap

variable {c : Config} {T : Nat → BinaryTree Datum} {t₀ : BinaryTree Datum} {s : State}
  {steps : Nat → Nat} {k id i : Nat} {w : Worker}

/-- Only a wait condition is tested again, with the same outcome. -/
def Retest (s : State) : Action → Prop
  | .unblock _ => True
  | .pipe id => (s.pipes id).at_ = .wait ∧ s.tokens (id - 1) = -1
  | _ => False

/-- Some thread has a step, and not one that only tests a wait condition again. -/
def CanGoOn (c : Config) (s : State) : Prop :=
  ∃ a s', step c s a = some s' ∧ ¬ Retest s a

theorem not_retest (hat : (s.pipes id).at_ ≠ .wait) : ¬ Retest s (.pipe id) := fun hre => hat hre.1

/-- The first task that is not committed. -/
structure First (c : Config) (s : State) (k : Nat) : Prop where
  committed : s.numCommitted + 1 = k
  left : k ≤ c.numTasks

section
variable (h : Inv c (versionTree c t₀) s steps) (hk : First c s k)
include h hk

theorem First.finished {u : Nat} (hu : u < k) : Finished s.ctxs u :=
  h.trees.committed u (by have := hk.committed; omega)

/-! ### The collector and the master

Done but not counted is the collector's business, and not yet in the pipeline the
master's.  The master can wait only for a version before the first task, and these are
committed.
-/

/-- The collector looks at the task next, or has something to publish before. -/
theorem collector_goes_on (hdone : Finished s.ctxs k) : CanGoOn c s := by
  have hcommitted := hk.committed
  have hleft := hk.left
  obtain ⟨hlocal, hle, -⟩ := h.collected
  refine ⟨.collector, ?_⟩
  simp only [step, collectorStep]
  by_cases hnext : s.collector.nextCommittable = s.numCommitted
  · have hstage : (s.ctxs (s.collector.nextCommittable + 1)).isDone = true := by
      rw [hnext, hcommitted]
      exact decide_eq_true ((h.trees.done k).mp hdone)
    rw [if_pos ⟨by omega, hstage⟩]
    exact ⟨_, rfl, id⟩
  · by_cases hmore : s.collector.nextCommittable < c.numTasks ∧
        (s.ctxs (s.collector.nextCommittable + 1)).isDone = true
    · rw [if_pos hmore]
      exact ⟨_, rfl, id⟩
    · rw [if_neg hmore, if_pos (by omega)]
      exact ⟨_, rfl, id⟩

/-- The master pushes the task, or issues it: all versions it may wait for are committed.
-/
theorem master_goes_on (h₀ : VerBound 0 t₀) (hlen : c.ops.length = c.numTasks)
    (hmaster : s.master ≠ .idle ∨ s.numIssued < k) : CanGoOn c s := by
  refine ⟨.master, ?_⟩
  simp only [step, masterStep]
  cases hm : s.master with
  | idle =>
      have hlt := hmaster.resolve_left (absurd hm)
      have hcommitted := hk.committed
      have hleft := hk.left
      have hop : c.ops[s.numIssued]? = some c.ops[s.numIssued] := List.getElem?_eq_getElem (by omega)
      rcases h.initContext h₀ hm hop with ⟨w, hw, hwk, -⟩ | ⟨s', hrun, -⟩
      · omega
      · rw [hop, Option.bind_some]
        exact ⟨s', hrun, id⟩
  | push => exact ⟨_, rfl, id⟩
  | notify => exact ⟨_, rfl, id⟩

/-! ### The pipes

The first task is in front of some pipe.  That pipe has it at its position, or is at an
earlier task, which is done, or has still to be told; in each case somebody has a step.
-/

/-- A pipe that has not handed the task on yet, but has been handed it. -/
theorem pipe_goes_on (hlen : c.ops.length = c.numTasks) (hi : i < c.numPipes)
    (hm : s.master = .idle) (hin : k ≤ s.pushed i)
    (hout : s.pushed (i + 1) < k) : CanGoOn c s := by
  have hlink := h.flow.links i hi
  have hleft := hk.left
  have hroom := hlink.room
  have hid : 1 ≤ i + 1 ∧ i + 1 ≤ c.numPipes := ⟨Nat.le_add_left 1 i, hi⟩
  have hpos : (s.pipes (i + 1)).pos ≤ k := by
    have hpushed : (s.pipes (i + 1)).pos - 1 ≤ (s.pipes (i + 1)).pushed := by
      unfold Pipe.pushed
      split <;> omega
    have : (s.pipes (i + 1)).pushed < k := hout
    omega
  have hgo : step c s (.pipe (i + 1)) = pipeStep c s (i + 1) := if_pos hid
  have hguard : (s.pipes (i + 1)).pos ≤ c.numTasks := hpos.trans hleft
  cases hat : (s.pipes (i + 1)).at_ with
  | claim =>
      refine ⟨.pipe (i + 1), ?_⟩
      simp only [hgo, pipeStep, hguard, if_true, hat]
      exact ⟨_, rfl, not_retest (by simp [hat])⟩
  | wait =>
      have htoken := hlink.balance
      rw [Link.claimed_of (by rw [hat]; decide)] at htoken
      refine ⟨.pipe (i + 1), ?_⟩
      simp only [hgo, pipeStep, hguard, if_true, hat]
      refine ⟨_, rfl, fun hre => ?_⟩
      have := hre.2
      rw [Nat.add_sub_cancel] at this
      omega
  | asleep =>
      -- Its token is there, so it is about to be notified.
      have htoken := hlink.balance
      rw [Link.claimed_of (by rw [hat]; decide)] at htoken
      have hring := (hlink.asleep hat).resolve_left (by omega)
      cases i with
      | zero => exact absurd (hm.symm.trans hring) (by decide)
      | succ j =>
          have hj : j < c.numPipes := Nat.lt_of_succ_lt hi
          have hring : (s.pipes (j + 1)).at_ = .notify := hring
          have hle : (s.pipes (j + 1)).pos ≤ c.numTasks := by
            have hentered := (h.flow.links j hj).entered (Or.inr (Or.inr hring))
            have hissued := h.flow.pushed_le_issued (Nat.le_of_lt hj)
            have hbounded := h.flow.bounded
            omega
          refine ⟨.pipe (j + 1), ?_⟩
          simp only [step, if_pos (show 1 ≤ j + 1 ∧ j + 1 ≤ c.numPipes from ⟨by omega, hj⟩), pipeStep,
            hle, if_true, hring]
          exact ⟨_, rfl, not_retest (by simp [hring])⟩
  | exec =>
      refine ⟨.pipe (i + 1), ?_⟩
      simp only [hgo, pipeStep, hguard, if_true, hat]
      by_cases hdone : (s.ctxs (s.pipes (i + 1)).pos).st = .done
      · rw [if_pos hdone]
        exact ⟨_, rfl, not_retest (by simp [hat])⟩
      · have heq : (s.pipes (i + 1)).pos = k := by
          by_contra hne
          exact hdone (hk.finished h (Nat.lt_of_le_of_ne hpos hne))
        have hcommitted := hk.committed
        rcases h.pipe_oneStep hi hat rfl hdone with ⟨v, hv, hvk, -⟩ | ⟨x, hone, -⟩
        · omega
        · rw [if_neg hdone, hone]
          exact ⟨_, rfl, not_retest (by simp [hat])⟩
  | push =>
      refine ⟨.pipe (i + 1), ?_⟩
      simp only [hgo, pipeStep, hguard, if_true, hat]
      exact ⟨_, rfl, not_retest (by simp [hat])⟩
  | notify =>
      refine ⟨.pipe (i + 1), ?_⟩
      simp only [hgo, pipeStep, hguard, if_true, hat]
      exact ⟨_, rfl, not_retest (by simp [hat])⟩

/-- Some pipe has been handed the task and not handed it on. -/
theorem pipes_go_on (hlen : c.ops.length = c.numTasks) (hm : s.master = .idle)
    (hin : k ≤ s.pushed 0) (hout : s.pushed c.numPipes < k) : CanGoOn c s := by
  have hex : ∀ j ≤ c.numPipes, s.pushed j < k → CanGoOn c s := by
    intro j
    induction j with
    | zero =>
        intro _ hlt
        exact absurd hin (Nat.not_le.mpr hlt)
    | succ j ih =>
        intro hj hlt
        by_cases hbefore : s.pushed j < k
        · exact ih (Nat.le_of_succ_le hj) hbefore
        · exact pipe_goes_on h hk hlen hj hm (Nat.not_lt.mp hbefore) hlt
  exact hex c.numPipes (Nat.le_refl _) hout

/-! ### The boarder and the workers

Behind the pipes the task is with the boarder until it is submitted.  Then it has been
fetched, and its worker waits for nothing but committed versions; or nobody has fetched
it, and any worker can go on until it does.
-/

theorem boarder_goes_on (hin : k ≤ s.pushed c.numPipes) (hout : s.numSubmitted < k) :
    CanGoOn c s := by
  have hlast := h.flow.last
  have hleft := hk.left
  refine ⟨.boarder, ?_⟩
  simp only [step, boarderStep]
  cases hstoring : s.boarder.storing with
  | true => exact ⟨_, rfl, id⟩
  | false =>
      have hstored := h.flow.stored hstoring
      rw [if_neg (by decide), if_pos (by omega)]
      exact ⟨_, rfl, id⟩

/-- A worker whose task is the first one, or done. -/
theorem worker_goes_on (hid : 1 ≤ id ∧ id ≤ c.numWorkers) (hw : s.workers id = w)
    (hle : w.taskId ≤ k) (hsub : k ≤ s.numSubmitted) : CanGoOn c s := by
  have hcommitted := hk.committed
  have hleft := hk.left
  have hgo : step c s (.worker id) = workerStep c s id := if_pos hid
  have hknows := h.crew.knows id
  rw [hw] at hknows
  -- All tasks before the first that is not done are committed, and the task reads of one of them.
  have hreads : ¬ Finished s.ctxs w.taskId →
      ∃ v, vdep s w.taskId = some v ∧ v ≤ s.numCommitted := by
    intro hrun
    have hissued := hle.trans (hsub.trans h.flow.submitted_le_issued)
    obtain ⟨b, y, hb, hy, hlt⟩ := h.trees.reads hissued hrun
    exact ⟨y.ver, vdep_eq_some.mpr ⟨b, y, hb, hy, rfl⟩, by omega⟩
  refine ⟨.worker id, ?_⟩
  rw [hgo]
  unfold workerStep
  simp only [hw]
  cases hat : w.at_ with
  | fetch => exact ⟨_, rfl, nofun⟩
  | waitSubmit =>
      dsimp only
      by_cases hcached : w.taskId ≤ w.cachedSubmit
      · rw [if_pos hcached]
        exact ⟨_, rfl, nofun⟩
      · rw [if_neg hcached, if_pos (hle.trans hsub)]
        exact ⟨_, rfl, nofun⟩
  | head n =>
      dsimp only
      by_cases hdone : (s.ctxs w.taskId).st = .done
      · rw [if_pos hdone]
        exact ⟨_, rfl, nofun⟩
      · rw [if_neg hdone]
        exact ⟨_, rfl, nofun⟩
  | decide n =>
      rw [hat] at hknows
      obtain ⟨v, hv, hvle⟩ := hreads hknows.2.2.2.2.1
      obtain ⟨x, hrun, -⟩ := h.worker_complete hw hat hv hvle
      simp only [hv, Option.bind_eq_bind, Option.bind_some, if_pos hvle, hrun]
      exact ⟨_, rfl, nofun⟩
  | oneStep n =>
      rw [hat] at hknows
      obtain ⟨v, hv, hvle⟩ := hreads hknows.2.2.2.2.1
      have hstage : (s.ctxs v).stage.le n = false := by
        rw [(h.trees.done v).mp (h.trees.committed v hvle)]
        rfl
      rcases h.worker_oneStep hw hat hv hstage with ⟨u, hu, huk, -⟩ | ⟨x, hrun, -⟩
      · omega
      · simp only [hv, Option.bind_eq_bind, Option.bind_some, hstage, hrun]
        exact ⟨_, rfl, nofun⟩
  | settle =>
      dsimp only
      by_cases hend : w.taskId ≥ w.blockEnd
      · rw [if_pos hend]
        exact ⟨_, rfl, nofun⟩
      · rw [if_neg hend]
        exact ⟨_, rfl, nofun⟩
  | estimate task =>
      obtain ⟨x, hrun, -⟩ := h.augment_root task
      simp only [hrun, Option.bind_eq_bind, Option.bind_some]
      exact ⟨_, rfl, nofun⟩
  | store => exact ⟨_, rfl, nofun⟩
  | stopped =>
      rw [hat] at hknows
      have : c.numTasks < w.taskId := hknows
      omega

/-- A submitted task is held by a worker, or any worker can fetch it. -/
theorem workers_go_on (hworkers : 1 ≤ c.numWorkers) (hrun : ¬ Finished s.ctxs k)
    (hsub : k ≤ s.numSubmitted) : CanGoOn c s := by
  have hcommitted := hk.committed
  by_cases hfetched : k ≤ s.numFetched
  · obtain ⟨id, h1, hle, htask, -⟩ := h.crew.holder k (by omega) hfetched hk.left hrun
    exact worker_goes_on h hk ⟨h1, hle⟩ rfl htask.le hsub
  · have := h.crew.fetched 1
    exact worker_goes_on h hk ⟨Nat.le_refl 1, hworkers⟩ rfl (by omega) hsub

end

/--
**The scheduler never deadlocks while updates remain.**  In a reachable state in which
not all tasks are committed some thread has a step other than testing a wait condition
again.  And in no reachable state does a pipe sleep while its token is there and no
notification is pending.
-/
theorem never_deadlocks (hlen : c.ops.length = c.numTasks) (hworkers : 1 ≤ c.numWorkers)
    (hshow : Shows layout c.heap₀ c.t₀ t₀) (hver : ∀ e ∈ t₀.inorder, e.ver = 0)
    (hs : (system c).Reachable s) :
    (s.numCommitted < c.numTasks →
      ∃ a s', (system c).step s a = some s' ∧ ¬ Retest s a) ∧
    ∀ i < c.numPipes, (s.pipes (i + 1)).at_ = .asleep → s.tokens i = -1 ∨ s.Ringing i := by
  have h₀ := verBound_of_forall hver
  obtain ⟨steps, h⟩ := inv_reachable hshow h₀ hs
  refine ⟨fun hleft => ?_, fun i hi hat => (h.flow.links i hi).asleep hat⟩
  have hk : First c s (s.numCommitted + 1) := ⟨rfl, hleft⟩
  show CanGoOn c s
  by_cases hdone : Finished s.ctxs (s.numCommitted + 1)
  · exact collector_goes_on h hk hdone
  by_cases hmaster : s.master ≠ .idle ∨ s.numIssued < s.numCommitted + 1
  · exact master_goes_on h hk h₀ hlen hmaster
  rw [not_or, not_not, Nat.not_lt] at hmaster
  obtain ⟨hm, hissued⟩ := hmaster
  have hin : s.numCommitted + 1 ≤ s.pushed 0 := by
    simp only [State.pushed, hm]
    exact hissued
  by_cases hpiped : s.pushed c.numPipes < s.numCommitted + 1
  · exact pipes_go_on h hk hlen hm hin hpiped
  by_cases hsub : s.numSubmitted < s.numCommitted + 1
  · exact boarder_goes_on h hk (Nat.not_lt.mp hpiped) hsub
  · exact workers_go_on h hk hworkers hdone (Nat.not_lt.mp hsub)

/-- One pipe, one worker and two insertions into an empty treap. -/
def starting : Config where
  numPipes := 1
  numWorkers := 1
  blockSize := 1
  numTasks := 2
  hash := fun elem => elem
  ops := [.insertElem 3, .insertElem 4]
  heap₀ := ⟨#[]⟩
  t₀ := none

theorem never_deadlocks_starting :
    ∃ s, (system starting).Reachable s ∧ (s.pipes 1).at_ = .asleep ∧
      (∃ a s', (system starting).step s a = some s' ∧ ¬ Retest s a) ∧ s.tokens 0 = -1 := by
  obtain ⟨s, hrun⟩ : ∃ s, (system starting).run
      [.pipe 1, .pipe 1] (init starting) = some s := ⟨_, rfl⟩
  have hstate : s.numCommitted = 0 ∧ (s.pipes 1).at_ = .asleep ∧ s.master ≠ .notify := by
    cases hrun
    decide
  obtain ⟨hcommitted, hasleep, hquiet⟩ := hstate
  have hreach : (system starting).Reachable s := Transition.System.reach_of_run hrun
  have hshow : Shows layout starting.heap₀ starting.t₀ nil := .nil
  have hlive := never_deadlocks rfl (Nat.le_refl 1) hshow nofun hreach
  have hleft : s.numCommitted < starting.numTasks := by
    rw [hcommitted]
    exact Nat.succ_pos 1
  exact ⟨s, hreach, hasleep, hlive.1 hleft,
    (hlive.2 0 Nat.one_pos hasleep).resolve_right hquiet⟩

end Scheduler
