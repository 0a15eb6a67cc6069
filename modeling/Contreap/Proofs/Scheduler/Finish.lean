/-
The scheduler always finishes.

A state is quiet when no thread has a step, other than to test a wait condition again.
`step_lowers` bounds the steps before the system is quiet, and what is shown here is that
a quiet state is one in which every thread has left its loop.  While a task is not
committed this is the progress argument.  After that all tasks are done, so that nothing
is waited for in a tree any more, and the tokens have come through all pipes.

With this the four functions the threads run in `process` return, however the threads are
interleaved, and then every version is the tree the sequential treap has.
-/
import Contreap.Proofs.Scheduler.Refinement
import Contreap.Proofs.Scheduler.Termination

namespace Scheduler

open BinaryTree PtrHeap Treap

variable {c : Config} {t₀ : BinaryTree Datum} {s s' : State} {steps : Nat → Nat} {n k id i : Nat}

/-- Whether a step is more than another test of a wait condition. -/
def Counts (s : State) (a : Action) : Prop := ¬ Retest s a

/-- Every thread has left its loop. -/
structure Ended (c : Config) (s : State) : Prop where
  master : s.master = .idle ∧ s.numIssued = c.numTasks
  pipes : ∀ i < c.numPipes, (s.pipes (i + 1)).pos = c.numTasks + 1
  boarder : s.boarder = ⟨c.numTasks, false⟩
  workers : ∀ id, 1 ≤ id → id ≤ c.numWorkers → (s.workers id).at_ = .stopped
  collector : s.collector = ⟨c.numTasks, c.numTasks⟩

section
variable (h : Inv c (versionTree c t₀) s steps)
include h

/-- While a task is not committed, somebody can go on. -/
theorem Inv.goes_on (h₀ : VerBound 0 t₀) (hlen : c.ops.length = c.numTasks)
    (hworkers : 1 ≤ c.numWorkers) (hleft : s.numCommitted < c.numTasks) : CanGoOn c s := by
  have hk : First c s (s.numCommitted + 1) := ⟨rfl, hleft⟩
  by_cases hdone : Finished s.ctxs (s.numCommitted + 1)
  · exact collector_goes_on h hk hdone
  by_cases hmaster : s.master ≠ .idle ∨ s.numIssued < s.numCommitted + 1
  · exact master_goes_on h hk h₀ hlen hmaster
  rw [not_or, not_not, Nat.not_lt] at hmaster
  have hin : s.numCommitted + 1 ≤ s.pushed 0 := by
    unfold State.pushed
    rw [hmaster.1]
    exact hmaster.2
  by_cases hpiped : s.pushed c.numPipes < s.numCommitted + 1
  · exact pipes_go_on h hk hlen hmaster.1 hin hpiped
  by_cases hsub : s.numSubmitted < s.numCommitted + 1
  · exact boarder_goes_on h hk (Nat.not_lt.mp hpiped) hsub
  · exact workers_go_on h hk hworkers hdone (Nat.not_lt.mp hsub)

/-! ### All tasks are done

With every task done no thread waits in a tree.  Then the pipeline empties from the
front: a pipe that has been handed all tasks has a step until it has handed them on.
-/

variable (hquiet : ∀ a s', step c s a = some s' → Retest s a)
  (hfin : ∀ u ≤ c.numTasks, Finished s.ctxs u)
include hquiet

/-- A pipe that has all tokens goes on to its end. -/
theorem Inv.pipe_ended (hfin : ∀ u ≤ c.numTasks, Finished s.ctxs u) (hi : i < c.numPipes)
    (hin : s.pushed i = c.numTasks) (hring : ¬ s.Ringing i) :
    (s.pipes (i + 1)).pos = c.numTasks + 1 := by
  have hlink := h.flow.links i hi
  have hroom := hlink.room
  rw [hin] at hroom
  refine Nat.le_antisymm hroom (Nat.succ_le_of_lt (Nat.lt_of_not_le fun hpos => ?_))
  have hgo : step c s (.pipe (i + 1)) = pipeStep c s (i + 1) := if_pos ⟨Nat.le_add_left 1 i, hi⟩
  have hcounted : (s.pipes (i + 1)).at_ ≠ .claim → 0 ≤ s.tokens i := by
    intro hat
    have htoken := hlink.balance
    rw [Link.claimed_of hat, hin] at htoken
    omega
  have hstuck : ∀ s', step c s (.pipe (i + 1)) = some s' →
      (s.pipes (i + 1)).at_ = .wait ∧ s.tokens i = -1 := fun s' hs' => hquiet _ s' hs'
  simp only [hgo, pipeStep, hpos, if_true] at hstuck
  cases hat : (s.pipes (i + 1)).at_ with
  | claim => simp [hat] at hstuck
  | wait =>
      have := hcounted (by simp [hat])
      simp only [hat] at hstuck
      have := (hstuck _ rfl).2
      omega
  | asleep =>
      have := hcounted (by simp [hat])
      rcases hlink.asleep hat with htoken | hring'
      · omega
      · exact hring hring'
  | exec =>
      simp [hat, show (s.ctxs (s.pipes (i + 1)).pos).st = .done from hfin _ hpos] at hstuck
  | push => simp [hat] at hstuck
  | notify => simp [hat] at hstuck

/-- From the front: a pipe that has been handed all tasks has handed them on. -/
theorem Inv.pipes_ended (hfin : ∀ u ≤ c.numTasks, Finished s.ctxs u) (hm : s.master = .idle)
    (hissued : s.numIssued = c.numTasks) :
    ∀ i ≤ c.numPipes, s.pushed i = c.numTasks ∧ ¬ s.Ringing i := by
  intro i
  induction i with
  | zero =>
      intro _
      refine ⟨?_, ?_⟩
      · unfold State.pushed
        rw [hm]
        exact hissued
      · unfold State.Ringing
        simp [hm]
  | succ i ih =>
      intro hi
      obtain ⟨hin, hring⟩ := ih (Nat.le_of_succ_le hi)
      have hpos := h.pipe_ended hquiet hfin hi hin hring
      have hlink := h.flow.links i hi
      have hat : (s.pipes (i + 1)).at_ ≠ .notify := by
        intro hat
        have := hlink.entered (Or.inr (Or.inr hat))
        omega
      refine ⟨?_, hat⟩
      show (s.pipes (i + 1)).pushed = _
      unfold Pipe.pushed
      rw [if_neg hat, hpos]
      exact Nat.add_sub_cancel ..

/-- It has taken all tokens and published them. -/
theorem Inv.boarder_ended (hpiped : s.pushed c.numPipes = c.numTasks) :
    s.boarder = ⟨c.numTasks, false⟩ ∧ s.numSubmitted = c.numTasks := by
  have hlast := h.flow.last
  have htaken := h.flow.taken
  have hstuck : boarderStep c s = none := Option.eq_none_iff_forall_ne_some.mpr fun s' hs' =>
    hquiet .boarder s' hs'
  unfold boarderStep at hstuck
  cases hstoring : s.boarder.storing with
  | true => simp [hstoring] at hstuck
  | false =>
      have hstored := h.flow.stored hstoring
      simp only [hstoring, Bool.false_eq_true, if_false] at hstuck
      have hall : s.boarder.localSubmitted = c.numTasks := by
        by_contra hne
        rw [if_pos (by omega)] at hstuck
        cases hstuck
      exact ⟨by rw [← hall, ← hstoring], hstored.trans hall⟩

/-- A worker whose task is done has a step, and all tasks are. -/
theorem Inv.worker_ended (hfin : ∀ u ≤ c.numTasks, Finished s.ctxs u)
    (hsub : s.numSubmitted = c.numTasks) (hid : 1 ≤ id ∧ id ≤ c.numWorkers) :
    (s.workers id).at_ = .stopped := by
  have hknows := h.crew.knows id
  have hgo : step c s (.worker id) = workerStep c s id := if_pos hid
  have hstuck : workerStep c s id = none := Option.eq_none_iff_forall_ne_some.mpr fun s' hs' =>
    hquiet (.worker id) s' (hgo.trans hs')
  unfold workerStep at hstuck
  cases hat : (s.workers id).at_ with
  | fetch => simp [hat] at hstuck
  | waitSubmit =>
      rw [hat] at hknows
      have hle : (s.workers id).taskId ≤ s.numSubmitted := hknows.2.trans hsub.ge
      simp only [hat, hle, if_true] at hstuck
      split at hstuck <;> cases hstuck
  | head n =>
      simp only [hat] at hstuck
      split at hstuck <;> cases hstuck
  | decide n =>
      rw [hat] at hknows
      exact absurd (hfin _ hknows.2.1) hknows.2.2.2.2.1
  | oneStep n =>
      rw [hat] at hknows
      exact absurd (hfin _ hknows.2.1) hknows.2.2.2.2.1
  | settle =>
      simp only [hat] at hstuck
      split at hstuck <;> cases hstuck
  | estimate task =>
      obtain ⟨x, hrun, -⟩ := h.augment_root task
      simp [hat, hrun] at hstuck
  | store => simp [hat] at hstuck
  | stopped => rfl

end

/-- **Where nobody can go on, everybody is done.** -/
theorem Inv.ended (h : Inv c (versionTree c t₀) s steps) (h₀ : VerBound 0 t₀)
    (hlen : c.ops.length = c.numTasks) (hworkers : 1 ≤ c.numWorkers)
    (hq : (system c).Quiet Counts s) : Ended c s ∧ s.numCommitted = c.numTasks := by
  have hquiet : ∀ a s', step c s a = some s' → Retest s a := fun a s' hs' =>
    not_not.mp (hq a s' hs')
  obtain ⟨hlocal, hle, hdone⟩ := h.collected
  have hall : c.numTasks ≤ s.numCommitted := by
    by_contra hleft
    obtain ⟨a, s', hs', hcount⟩ := h.goes_on h₀ hlen hworkers (Nat.not_le.mp hleft)
    exact hcount (hquiet a s' hs')
  have hfin : ∀ u ≤ c.numTasks, Finished s.ctxs u := fun u hu =>
    h.trees.committed u (hu.trans hall)
  have hissued : s.numIssued = c.numTasks :=
    Nat.le_antisymm (h.flow.bounded.trans hlen.le) (h.trees.finished_le (hfin _ le_rfl))
  have hnext : s.collector.nextCommittable ≤ c.numTasks :=
    (h.trees.finished_le (hdone _ le_rfl)).trans hissued.le
  have hcommitted : s.numCommitted = c.numTasks := Nat.le_antisymm (hle.trans hnext) hall
  have hm : s.master = .idle := by
    have hstuck : masterStep c s = none := Option.eq_none_iff_forall_ne_some.mpr fun s' hs' =>
      hquiet .master s' hs'
    unfold masterStep at hstuck
    cases hm : s.master with
    | idle => rfl
    | push => simp [hm] at hstuck
    | notify => simp [hm] at hstuck
  have hpiped := h.pipes_ended hquiet hfin hm hissued
  obtain ⟨hboarder, hsub⟩ := h.boarder_ended hquiet (hpiped _ le_rfl).1
  refine ⟨⟨⟨hm, hissued⟩, fun i hi => ?_, hboarder, fun id h1 hid => ?_, ?_⟩, hcommitted⟩
  · obtain ⟨hin, hring⟩ := hpiped i (Nat.le_of_lt hi)
    exact h.pipe_ended hquiet hfin hi hin hring
  · exact h.worker_ended hquiet hfin hsub ⟨h1, hid⟩
  · have hnext' : s.collector.nextCommittable = c.numTasks :=
      Nat.le_antisymm hnext (hall.trans hle)
    have hlocal' : s.collector.localCommitted = c.numTasks := hlocal.trans hcommitted
    exact congrArg₂ Collector.mk hlocal' hnext'

/-! ### How long it takes

The rank of the initial state bounds the steps that count, and the height of a version's
tree, in terms of which it is defined, is bounded by the nodes there were and the
operations before it.
-/

end Scheduler
