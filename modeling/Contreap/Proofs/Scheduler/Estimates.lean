/-
When a worker starts to estimate.

A worker that has come past the end of its block augments all versions of the block, and
does not ask whether the tasks up to there are done.  Those it has fetched itself are.
The others have been fetched too, since tasks are fetched in order, so one that is not
done is held by a worker that still has to bring it to its end.  `Unhindered` says that
there is no such worker, and it is exactly what is missing.

Where every block is passed unhindered, no aggregate is computed through a node whose
children are not linked yet.
-/
import Contreap.Proofs.Scheduler.Snapshot

namespace Scheduler

open BinaryTree PtrHeap Treap Transition

variable {c : Config} {t₀ : BinaryTree Datum} {u₀ : BinaryTree (Datum × UInt64)} {s s' : State}
  {steps : Nat → Nat} {a : Action} {id v : Nat}

/-- About to pass `work_estimate_` its block. -/
def Starts (s : State) (id : Nat) : Prop :=
  (s.workers id).at_ = .settle ∧ (s.workers id).blockEnd ≤ (s.workers id).taskId

/-- No other worker is inside `work_update_` with a task up to the end of the block that is
not done. -/
def Unhindered (s : State) (id : Nat) : Prop :=
  ∀ id', id' ≠ id → (s.workers id').at_.active = true →
    (s.workers id').taskId ≤ (s.workers id).blockEnd → Finished s.ctxs (s.workers id').taskId

/-- A step that starts to estimate a block is not hindered. -/
def StartsUnhindered (s : State) (a : Action) : Prop :=
  ∀ id, a = .worker id → Starts s id → Unhindered s id

/-- The tasks up to the end of every block passed to `work_estimate_` are done. -/
def EstimatedDone (s : State) : Prop :=
  ∀ id start stop, .estimated id start stop ∈ s.log → ∀ u, 1 ≤ u → u ≤ stop → (s.ctxs u).st = .done

theorem WorkerAt.Knows.pos_of_active {at_ : WorkerAt} {u : Nat} (h : at_.Knows c s steps u)
    (hat : at_.active = true) : 1 ≤ u := by
  cases at_ with
  | waitSubmit => exact h.1
  | head n => exact h.1
  | decide n => exact h.1
  | oneStep n => exact h.1
  | _ => cases hat

theorem Passing.blockEnd_le (h : Passing c s id) : (s.workers id).blockEnd ≤ c.numTasks := by
  rw [h.stop]
  exact Nat.min_le_right _ _

/-- **A block can be estimated exactly when nobody holds an open task of it.** -/
theorem done_iff_unhindered (h : Inv c (versionTree c t₀) s steps) (hp : Passing c s id)
    (hstart : Starts s id) :
    (∀ u, 1 ≤ u → u ≤ (s.workers id).blockEnd → (s.ctxs u).st = .done) ↔ Unhindered s id := by
  obtain ⟨hat, hle⟩ := hstart
  constructor
  · intro hdone id' _ hactive htask
    exact hdone _ ((h.crew.knows id').pos_of_active hactive) htask
  · intro hfree u hpos hu
    by_contra hrun
    have hfetched : u ≤ s.numFetched := (hu.trans hle).trans (h.crew.fetched id)
    obtain ⟨id', -, -, htask, hactive⟩ :=
      h.crew.holder u hpos hfetched (hu.trans hp.blockEnd_le) hrun
    by_cases heq : id' = id
    · rw [heq, hat] at hactive
      cases hactive
    · have hdone := hfree id' heq hactive (htask ▸ hu)
      rw [htask] at hdone
      exact hrun hdone

/-! ### Runs

The log has every block that was passed.  So what is known at the moment of passing can
be said of all of them later on, since tasks that are done stay done.
-/

theorem worker_bounds (hstep : step c s (.worker id) = some s') : 1 ≤ id ∧ id ≤ c.numWorkers := by
  by_contra hnone
  rw [step, if_neg hnone] at hstep
  cases hstep

/-- The log only grows by a block when a worker passes one. -/
theorem mem_log_step {start stop : Nat} (hstep : step c s a = some s')
    (hmem : .estimated id start stop ∈ s'.log) : .estimated id start stop ∈ s.log ∨
      a = .worker id ∧ Starts s id ∧ stop = (s.workers id).blockEnd := by
  rcases step_loop hstep with hs | ⟨id', -, -, rfl, hl⟩
  · rw [hs.log] at hmem
    exact Or.inl hmem
  · cases hl with
    | fetch _ _ _ _ _ hlog =>
        rw [hlog, List.mem_append, List.mem_singleton] at hmem
        exact Or.inl (hmem.resolve_right nofun)
    | work _ _ _ _ _ hlog => exact Or.inl (hlog ▸ hmem)
    | skip _ _ _ _ _ hlog => exact Or.inl (hlog ▸ hmem)
    | pass hat hle _ _ _ hlog =>
        rw [hlog, List.mem_append, List.mem_singleton] at hmem
        rcases hmem with hold | hnew
        · exact Or.inl hold
        · cases hnew
          exact Or.inr ⟨rfl, ⟨hat, hle⟩, rfl⟩
    | estimate _ _ _ _ hlog => exact Or.inl (hlog ▸ hmem)
    | store _ _ _ _ hlog => exact Or.inl (hlog ▸ hmem)

theorem estimatedDone_step (h₀ : VerBound 0 t₀) (h : Inv c (versionTree c t₀) s steps)
    (hp : ∀ id, 1 ≤ id → Passing c s id) (hgood : StartsUnhindered s a)
    (hstep : step c s a = some s') (hdone : EstimatedDone s) : EstimatedDone s' := by
  intro id start stop hmem u hpos hu
  obtain ⟨_, -, hchange⟩ := inv_step h h₀ hstep
  refine (hchange.later h).finished u ?_
  rcases mem_log_step hstep hmem with hold | ⟨rfl, hstart, rfl⟩
  · exact hdone id start stop hold u hpos hu
  · exact (done_iff_unhindered h (hp id (worker_bounds hstep).1) hstart).mpr
      (hgood id rfl hstart) u hpos hu

theorem estimatedDone_reachable (h₀ : Initial c u₀)
    (hs : (system c).Reach StartsUnhindered (init c) s) : EstimatedDone s := by
  have hknown : ∀ t, (system c).Reach StartsUnhindered (init c) t →
      (∃ steps, Inv c (versionTree c (map Prod.fst u₀)) t steps) ∧
        ∀ id, 1 ≤ id → Passing c t id := fun t ht =>
    ⟨inv_reachable (h₀.shows.map Prod.fst) h₀.verBound ht.steps, passing_reachable ht.steps⟩
  refine hs.invariant_of (I := EstimatedDone) ?_ hknown nofun
  rintro s a s' ⟨⟨steps, hinv⟩, hpass⟩ h hgood hstep
  exact estimatedDone_step h₀.verBound hinv hpass hgood hstep h

/-- A worker in `work_estimate_` is at a version of a block in the log. -/
theorem Passing.logged {task : Nat} (h : Passing c s id) (hat : (s.workers id).at_ = .estimate task) :
    ∃ start stop, .estimated id start stop ∈ s.log ∧ task ≤ stop := by
  refine ⟨_, _, (h.estimated _ _).mpr ⟨(s.workers id).blockCount, ?_, rfl, rfl⟩, ?_⟩
  · rw [Worker.passed, hat]
    exact Nat.lt_succ_self _
  · rw [← h.stop]
    exact (h.within task hat).2

/-- Blocks that are passed unhindered are augmented when they are complete. -/
theorem estimatesComplete_step (h₀ : Initial c u₀)
    (hs : (system c).Reach StartsUnhindered (init c) s) (hstep : step c s a = some s') :
    EstimatesComplete s a := by
  rintro id task rfl hat
  have hid : 1 ≤ id := (worker_bounds hstep).1
  obtain ⟨steps, hinv⟩ := inv_reachable (h₀.shows.map Prod.fst) h₀.verBound hs.steps
  obtain ⟨start, stop, hlog, hle⟩ := (passing_reachable hs.steps id hid).logged hat
  have hdone : ∀ u ≤ task, (s.ctxs u).st = .done := by
    intro u hu
    rcases Nat.eq_zero_or_pos u with rfl | hpos
    · exact hinv.trees.committed 0 (Nat.zero_le _)
    · exact estimatedDone_reachable h₀ hs id start stop hlog u hpos (hu.trans hle)
  exact complete_of_done h₀ hs.steps (hinv.trees.finished_le (hdone task (Nat.le_refl task))) hdone

theorem estimatesComplete_of_unhindered (h₀ : Initial c u₀)
    (hs : (system c).Reach StartsUnhindered (init c) s) :
    (system c).Reach EstimatesComplete (init c) s :=
  hs.mono_of fun _ _ _ ht _ hstep => estimatesComplete_step h₀ ht hstep

/--
**Aggregates are computed over finished versions**, in every run whose blocks are passed
unhindered: all tasks up to the end of a block passed to `work_estimate_` are done, and
every aggregate is at the root of a summed tree of versions that are done.  A worker
about to pass a block finds these tasks done only if it is unhindered.
-/
theorem estimates_finished (h₀ : Initial c u₀) :
    (∀ s, (system c).Reach StartsUnhindered (init c) s →
      EstimatedDone s ∧ AuditedIn (fun v => (s.ctxs v).st = .done) s.heap) ∧
    ∀ s id, (system c).Reachable s → 1 ≤ id → Starts s id →
      ((∀ u, 1 ≤ u → u ≤ (s.workers id).blockEnd → (s.ctxs u).st = .done) ↔ Unhindered s id) := by
  constructor
  · intro s hs
    have hsums := sums_reachable h₀ (estimatesComplete_of_unhindered h₀ hs)
    exact ⟨estimatedDone_reachable h₀ hs, hsums.nodes⟩
  · intro s id hs hid hstart
    obtain ⟨steps, hinv⟩ := inv_reachable (h₀.shows.map Prod.fst) h₀.verBound hs
    exact done_iff_unhindered hinv (passing_reachable hs id hid) hstart

/-- A worker on its own is never hindered. -/
theorem unhindered_alone (h₀ : Initial c u₀) (hone : c.numWorkers = 1) (hs : (system c).Reachable s) :
    (system c).Reach StartsUnhindered (init c) s := by
  refine hs.mono_of fun t a t' ht _ hstep => ?_
  rintro id rfl ⟨hat, hle⟩ id' hne hactive htask
  have hid := worker_bounds hstep
  obtain ⟨steps, hinv⟩ := inv_reachable (h₀.shows.map Prod.fst) h₀.verBound ht.steps
  have hp := passing_reachable ht.steps id hid.1
  by_contra hrun
  have hpos : 1 ≤ (t.workers id').taskId := (hinv.crew.knows id').pos_of_active hactive
  obtain ⟨id'', h1, h2, heq, hactive'⟩ := hinv.crew.holder _ hpos
    (hinv.crew.fetched id') (htask.trans hp.blockEnd_le) hrun
  obtain rfl : id'' = id := by omega
  rw [hat] at hactive'
  cases hactive'

/-- It brings the insertion to its end before it starts on the block. -/
theorem estimates_finished_stacked :
    ∃ s, (system (stacked 1)).Reachable s ∧ .estimated 1 1 2 ∈ s.log ∧
      (s.ctxs 1).st = .done ∧ (s.ctxs 2).st = .done := by
  obtain ⟨s, hrun⟩ : ∃ s, (system (stacked 1)).run
      (bothSubmitted ++ List.replicate 10 (.worker 1)) (init (stacked 1)) = some s := ⟨_, rfl⟩
  have hlog : .estimated 1 1 2 ∈ s.log := by
    cases hrun
    decide
  have hreach : (system (stacked 1)).Reachable s := System.reach_of_run hrun
  have hdone := ((estimates_finished (stacked_initial 1)).1 s
    (unhindered_alone (stacked_initial 1) rfl hreach)).1 1 1 2 hlog
  exact ⟨s, hreach, hlog, hdone 1 (by decide) (by decide), hdone 2 (by decide) (by decide)⟩

/-- The second worker holds the insertion, and the first one, which has the query, starts
on the block of both.  It stores a sum at a node whose left child is not linked yet. -/
theorem estimates_finished_fails :
    ∃ s s', (system (stacked 2)).Reachable s ∧ Starts s 1 ∧ (s.workers 1).blockEnd = 2 ∧
      (s.ctxs 1).st = .running ∧ (system (stacked 2)).Steps s s' ∧ (s'.ctxs 1).st = .running ∧
      (s'.ctxs 1).tCur = some 3 ∧ s'.heap.get? 3 = some ⟨1, 7, 7, 1, 1, none, none⟩ := by
  obtain ⟨s, hrun⟩ : ∃ s, (system (stacked 2)).run
      (bothSubmitted ++ [.worker 2] ++ List.replicate 3 (.worker 1)) (init (stacked 2)) = some s :=
    ⟨_, rfl⟩
  obtain ⟨s', hrun'⟩ : ∃ s', (system (stacked 2)).run (List.replicate 2 (.worker 1)) s = some s' := by
    cases hrun
    exact ⟨_, rfl⟩
  have hreach : (system (stacked 2)).Reachable s := System.reach_of_run hrun
  have hlater : (system (stacked 2)).Steps s s' := System.reach_of_run hrun'
  have hstate : (s.workers 1).at_ = .settle ∧ (s.workers 1).blockEnd ≤ (s.workers 1).taskId ∧
      (s.workers 1).blockEnd = 2 ∧ (s.ctxs 1).st = .running := by
    cases hrun
    decide
  have hstate' : (s'.ctxs 1).st = .running ∧ (s'.ctxs 1).tCur = some 3 ∧
      s'.heap.get? 3 = some ⟨1, 7, 7, 1, 1, none, none⟩ := by
    cases hrun
    cases hrun'
    decide
  obtain ⟨hat, hle, hend, hrunning⟩ := hstate
  exact ⟨s, s', hreach, ⟨hat, hle⟩, hend, hrunning, hlater, hstate'⟩

end Scheduler
