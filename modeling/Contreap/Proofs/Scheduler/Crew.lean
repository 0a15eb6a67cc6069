/-
What the workers hold.

A worker has one task, the last one it fetched, and no two have the same.  Until the
task is done the worker is at it: waiting for it to be submitted, or working on it
stage by stage.  `WorkerAt.Knows` is what a worker can rely on at each point, and in
particular how many steps its task has taken: one in each pipe, and one in each stage
before the present one.  A task nobody works on has no stage yet.
-/
import Contreap.Proofs.Scheduler.Flow
import Contreap.Proofs.Scheduler.Plan

namespace Scheduler

variable {c : Config} {s s' : State} {steps steps' : Nat → Nat} {u n id : Nat} {at_ : WorkerAt}
  {w w' : Worker}

/-- In the loop over stages. -/
def WorkerAt.working : WorkerAt → Bool
  | .head _ | .decide _ | .oneStep _ => true
  | _ => false

/-- With a task that is not known to be done. -/
def WorkerAt.active : WorkerAt → Bool
  | .waitSubmit | .head _ | .decide _ | .oneStep _ => true
  | _ => false

theorem WorkerAt.active_of_working (h : at_.working = true) : at_.active = true := by
  cases at_ <;> simp_all [WorkerAt.working, WorkerAt.active]

/-- The task is at this stage, which it has stored if `stored` is the stage itself. -/
structure AtStage (c : Config) (s : State) (steps : Nat → Nat) (u n stored : Nat) : Prop where
  steps : steps u + 1 = c.numPipes + n
  stage : (s.ctxs u).stage = .reached stored

/-- What a worker can rely on at each point about its task: whether it is done, and if it
is not, how many steps it has taken and which stage others see. -/
def WorkerAt.Knows (c : Config) (s : State) (steps : Nat → Nat) (u : Nat) : WorkerAt → Prop
  | .fetch => u ≤ c.numTasks ∧ Finished s.ctxs u
  | .waitSubmit => 1 ≤ u ∧ u ≤ c.numTasks
  | .head n => 1 ≤ u ∧ u ≤ c.numTasks ∧ u ≤ s.numSubmitted ∧ 1 ≤ n ∧
      (¬ Finished s.ctxs u → AtStage c s steps u n (n - 1))
  | .decide n | .oneStep n => 1 ≤ u ∧ u ≤ c.numTasks ∧ u ≤ s.numSubmitted ∧ 1 ≤ n ∧
      ¬ Finished s.ctxs u ∧ AtStage c s steps u n n
  | .settle | .estimate _ | .store => 1 ≤ u ∧ (u ≤ c.numTasks → Finished s.ctxs u)
  | .stopped => c.numTasks < u

theorem WorkerAt.Knows.of_working (h : at_.Knows c s steps u) (hat : at_.working = true) :
    1 ≤ u ∧ u ≤ c.numTasks ∧ u ≤ s.numSubmitted := by
  cases at_ with
  | head n => exact ⟨h.1, h.2.1, h.2.2.1⟩
  | decide n => exact ⟨h.1, h.2.1, h.2.2.1⟩
  | oneStep n => exact ⟨h.1, h.2.1, h.2.2.1⟩
  | _ => cases hat

/-- What a worker knows stays true when others move. -/
theorem WorkerAt.Knows.congr (h : at_.Knows c s steps u) (hsub : s.numSubmitted ≤ s'.numSubmitted)
    (hfin : Finished s.ctxs u → Finished s'.ctxs u)
    (hwork : at_.working = true → s'.ctxs u = s.ctxs u ∧ steps' u = steps u) :
    at_.Knows c s' steps' u := by
  have hstage : ∀ {n stored}, at_.working = true → AtStage c s steps u n stored →
      AtStage c s' steps' u n stored := by
    intro n stored hat hst
    obtain ⟨hctx, hsteps⟩ := hwork hat
    exact ⟨hsteps ▸ hst.steps, hctx ▸ hst.stage⟩
  have hrun : at_.working = true → ¬ Finished s.ctxs u → ¬ Finished s'.ctxs u := by
    intro hat hnot
    rwa [Finished, (hwork hat).1]
  have hback : at_.working = true → ¬ Finished s'.ctxs u → ¬ Finished s.ctxs u :=
    fun _ hnot hf => hnot (hfin hf)
  cases at_ with
  | fetch => exact ⟨h.1, hfin h.2⟩
  | waitSubmit => exact h
  | head n =>
      exact ⟨h.1, h.2.1, h.2.2.1.trans hsub, h.2.2.2.1,
        fun hnot => hstage rfl (h.2.2.2.2 (hback rfl hnot))⟩
  | decide n =>
      exact ⟨h.1, h.2.1, h.2.2.1.trans hsub, h.2.2.2.1, hrun rfl h.2.2.2.2.1,
        hstage rfl h.2.2.2.2.2⟩
  | oneStep n =>
      exact ⟨h.1, h.2.1, h.2.2.1.trans hsub, h.2.2.2.1, hrun rfl h.2.2.2.2.1,
        hstage rfl h.2.2.2.2.2⟩
  | settle => exact ⟨h.1, fun hle => hfin (h.2 hle)⟩
  | estimate task => exact ⟨h.1, fun hle => hfin (h.2 hle)⟩
  | store => exact ⟨h.1, fun hle => hfin (h.2 hle)⟩
  | stopped => exact h

/-! ### All workers

A step of a worker touches its own variables and the context of its task.  The rules for
it, `Crew.work` and `Crew.fetch`, ask only about these.
-/

/-- What the workers hold, taken together.  No two have the same task, a task that has
been fetched and is not done is held by a worker inside its loop, and one that nobody
works on has come no further than the end of the pipeline. -/
structure Crew (c : Config) (s : State) (steps : Nat → Nat) : Prop where
  knows : ∀ id, (s.workers id).at_.Knows c s steps (s.workers id).taskId
  fetched : ∀ id, (s.workers id).taskId ≤ s.numFetched
  cached : ∀ id, (s.workers id).cachedSubmit ≤ s.numSubmitted
  distinct : ∀ id id', (s.workers id).taskId = (s.workers id').taskId →
    1 ≤ (s.workers id).taskId → id = id'
  holder : ∀ u, 1 ≤ u → u ≤ s.numFetched → u ≤ c.numTasks → ¬ Finished s.ctxs u →
    ∃ id, 1 ≤ id ∧ id ≤ c.numWorkers ∧ (s.workers id).taskId = u ∧ (s.workers id).at_.active = true
  unheld : ∀ u ≤ s.numIssued, ¬ Finished s.ctxs u →
    (∀ id, (s.workers id).taskId = u → (s.workers id).at_.working = false) →
    steps u ≤ c.numPipes ∧ (s.ctxs u).stage = .reached 0

namespace Crew

/-- **A stage is a lower bound on the steps taken**: a task at a stage has been through
all pipes and all stages before it. -/
theorem steps_of_stage (h : Crew c s steps) (hu : u ≤ s.numIssued) (hrun : ¬ Finished s.ctxs u)
    (hstage : (s.ctxs u).stage = .reached n) (hn : 1 ≤ n) : c.numPipes + n ≤ steps u + 1 := by
  by_cases hheld : ∀ id, (s.workers id).taskId = u → (s.workers id).at_.working = false
  · have hzero := (h.unheld u hu hrun hheld).2
    rw [hstage] at hzero
    cases hzero
    omega
  · simp only [not_forall, Bool.not_eq_false] at hheld
    obtain ⟨id, rfl, hat⟩ := hheld
    have hknows := h.knows id
    cases hwork : (s.workers id).at_ with
    | head m =>
        rw [hwork] at hknows
        obtain ⟨-, -, -, hm, hst⟩ := hknows
        have hst := hst hrun
        have hsg := hst.stage
        have hsteps := hst.steps
        rw [hstage] at hsg
        cases hsg
        omega
    | decide m =>
        rw [hwork] at hknows
        obtain ⟨-, -, -, -, -, hst⟩ := hknows
        have hsg := hst.stage
        rw [hstage] at hsg
        cases hsg
        exact hst.steps.ge
    | oneStep m =>
        rw [hwork] at hknows
        obtain ⟨-, -, -, -, -, hst⟩ := hknows
        have hsg := hst.stage
        rw [hstage] at hsg
        cases hsg
        exact hst.steps.ge
    | _ =>
        rw [hwork] at hat
        cases hat

/-- Nothing of the workers has changed, and no task one of them works on. -/
theorem congr (h : Crew c s steps) (hworkers : s'.workers = s.workers)
    (hfetched : s'.numFetched = s.numFetched) (hsub : s.numSubmitted ≤ s'.numSubmitted)
    (hfin : ∀ u, Finished s.ctxs u → Finished s'.ctxs u)
    (hwork : ∀ id, (s.workers id).at_.working = true →
      s'.ctxs (s.workers id).taskId = s.ctxs (s.workers id).taskId ∧
        steps' (s.workers id).taskId = steps (s.workers id).taskId)
    (hunheld : ∀ u ≤ s'.numIssued, ¬ Finished s'.ctxs u →
      (∀ id, (s.workers id).taskId = u → (s.workers id).at_.working = false) →
      steps' u ≤ c.numPipes ∧ (s'.ctxs u).stage = .reached 0) :
    Crew c s' steps' := by
  refine ⟨fun id => ?_, ?_, fun id => ?_, ?_, fun u h1 hu hm hrun => ?_, ?_⟩
  · rw [hworkers]
    exact (h.knows id).congr hsub (hfin _) (hwork id)
  · rw [hworkers, hfetched]
    exact h.fetched
  · rw [hworkers]
    exact (h.cached id).trans hsub
  · rw [hworkers]
    exact h.distinct
  · rw [hworkers]
    rw [hfetched] at hu
    exact h.holder u h1 hu hm fun hf => hrun (hfin u hf)
  · rw [hworkers]
    exact hunheld

/-! ### Steps of a worker

A worker may come to the next point with its task or fetch another one.  In both cases the
others keep theirs, and no task is without a worker that has one now.
-/

/--
**The rule for a step of a worker** that keeps its task.  Only that task may have
changed; what the worker knows next is to be shown, and that it has not let go of a
task that is not done.
-/
theorem work (h : Crew c s steps) (hid : 1 ≤ id ∧ id ≤ c.numWorkers)
    (hw : s.workers id = w) (hworkers : s'.workers = Function.update s.workers id w')
    (hfetched : s'.numFetched = s.numFetched) (hsub : s'.numSubmitted = s.numSubmitted)
    (hissued : s'.numIssued = s.numIssued) (htask : w'.taskId = w.taskId)
    (hcached : w'.cachedSubmit ≤ s.numSubmitted)
    (hothers : ∀ u, u ≠ w.taskId → s'.ctxs u = s.ctxs u ∧ steps' u = steps u)
    (hfin : Finished s.ctxs w.taskId → Finished s'.ctxs w.taskId)
    (hkeep : w.at_.working = false →
      s'.ctxs w.taskId = s.ctxs w.taskId ∧ steps' w.taskId = steps w.taskId)
    (hheld : w'.at_.working = true ∨ (w.at_.active = false ∧ w'.at_.active = false) ∨
      Finished s'.ctxs w.taskId)
    (hknows : w'.at_.Knows c s' steps' w.taskId) : Crew c s' steps' := by
  have hself : s'.workers id = w' := by rw [hworkers, Function.update_self]
  have hne : ∀ id', id' ≠ id → s'.workers id' = s.workers id' := fun id' hid' => by
    rw [hworkers, Function.update_of_ne hid']
  have htaskId : ∀ id', (s'.workers id').taskId = (s.workers id').taskId := fun id' => by
    by_cases hid' : id' = id
    · rw [hid', hself, htask, hw]
    · rw [hne id' hid']
  have hmono : ∀ u, Finished s.ctxs u → Finished s'.ctxs u := fun u hf => by
    by_cases hu : u = w.taskId
    · rw [hu] at hf ⊢
      exact hfin hf
    · rwa [Finished, (hothers u hu).1]
  refine ⟨fun id' => ?_, fun id' => ?_, fun id' => ?_, fun id' id'' heq hpos => ?_,
    fun u h1 hu hm hrun => ?_, fun u hu hrun hidle => ?_⟩
  · by_cases hid' : id' = id
    · rw [hid', hself, htask]
      exact hknows
    · rw [hne id' hid']
      refine (h.knows id').congr hsub.ge (hmono _) fun hat => hothers _ fun heq => hid' ?_
      exact h.distinct id' id (by rw [hw, heq]) ((h.knows id').of_working hat).1
  · rw [htaskId, hfetched]
    exact h.fetched id'
  · rw [hsub]
    by_cases hid' : id' = id
    · rw [hid', hself]
      exact hcached
    · rw [hne id' hid']
      exact h.cached id'
  · rw [htaskId, htaskId] at heq
    rw [htaskId] at hpos
    exact h.distinct id' id'' heq hpos
  · rw [hfetched] at hu
    obtain ⟨id', h1', hle', htu, hat⟩ := h.holder u h1 hu hm fun hf => hrun (hmono u hf)
    refine ⟨id', h1', hle', by rw [htaskId, htu], ?_⟩
    by_cases hid' : id' = id
    · subst hid'
      rw [hw] at htu hat
      rw [hself]
      rcases hheld with hwork | ⟨hidle, -⟩ | hdone
      · exact WorkerAt.active_of_working hwork
      · rw [hidle] at hat
        cases hat
      · exact absurd (htu ▸ hdone) hrun
    · rwa [hne id' hid']
  · rw [hissued] at hu
    by_cases huw : u = w.taskId
    · -- The worker does not hold the task: it did not before either, or has finished it.
      have hnotwork : w'.at_.working = false := by
        rw [← hself]
        exact hidle id (by rw [htaskId, hw, huw])
      rcases hheld with hwork | ⟨hbefore, -⟩ | hdone
      · rw [hnotwork] at hwork
        cases hwork
      · have hbefore' : w.at_.working = false := by
          by_contra hwork
          rw [WorkerAt.active_of_working (Bool.not_eq_false _ ▸ hwork)] at hbefore
          cases hbefore
        obtain ⟨hctx, hsteps⟩ := hkeep hbefore'
        rw [huw, hsteps, hctx]
        rw [huw, Finished, hctx] at hrun
        refine h.unheld _ (huw ▸ hu) hrun fun id' htu => ?_
        by_cases hid' : id' = id
        · rw [hid', hw]
          exact hbefore'
        · rw [← hne id' hid']
          exact hidle id' (by rw [htaskId, htu, huw])
      · exact absurd (huw ▸ hdone) hrun
    · obtain ⟨hctx, hsteps⟩ := hothers u huw
      rw [hctx, hsteps]
      rw [Finished, hctx] at hrun
      refine h.unheld u hu hrun fun id' htu => ?_
      by_cases hid' : id' = id
      · rw [hid', hw] at htu
        exact absurd htu.symm huw
      · rw [← hne id' hid']
        exact hidle id' (by rw [htaskId, htu])

/-- A worker fetches the next task. -/
theorem fetch (h : Crew c s steps) (hid : 1 ≤ id ∧ id ≤ c.numWorkers)
    (hw : s.workers id = w) (hat : w.at_ = .fetch)
    (hworkers : s'.workers = Function.update s.workers id w')
    (htask : w'.taskId = 1 + s.numFetched) (hcached : w'.cachedSubmit = w.cachedSubmit)
    (hat' : w'.at_ = if 1 + s.numFetched > c.numTasks then .settle else .waitSubmit)
    (hfetched : s'.numFetched = 1 + s.numFetched) (hsub : s'.numSubmitted = s.numSubmitted)
    (hissued : s'.numIssued = s.numIssued) (hctxs : s'.ctxs = s.ctxs) : Crew c s' steps := by
  have hself : s'.workers id = w' := by rw [hworkers, Function.update_self]
  have hne : ∀ id', id' ≠ id → s'.workers id' = s.workers id' := fun id' hid' => by
    rw [hworkers, Function.update_of_ne hid']
  -- It does not work on the new task yet, and held none before; and the new number is greater
  -- than those of all others.
  have hidle : w'.at_.working = false := by
    rw [hat']
    split <;> rfl
  have hbefore : (s.workers id).at_.active = false := by
    rw [hw, hat]
    rfl
  have hdist : ∀ id', id' ≠ id → (s'.workers id').taskId ≠ w'.taskId := fun id' hid' heq => by
    have hle := h.fetched id'
    rw [hne id' hid', htask] at heq
    omega
  refine ⟨fun id' => ?_, fun id' => ?_, fun id' => ?_, fun id' id'' heq hpos => ?_,
    fun u h1 hu hm hrun => ?_, fun u hu hrun hnone => ?_⟩
  · by_cases hid' : id' = id
    · rw [hid', hself, hat', htask]
      split
      · exact ⟨Nat.le_add_right 1 _, fun hle => by omega⟩
      · exact ⟨Nat.le_add_right 1 _, by omega⟩
    · rw [hne id' hid']
      exact (h.knows id').congr hsub.ge (by rw [hctxs]; exact fun hf => hf)
        fun _ => ⟨by rw [hctxs], rfl⟩
  · by_cases hid' : id' = id
    · rw [hid', hself, htask, hfetched]
    · rw [hne id' hid', hfetched]
      exact (h.fetched id').trans (Nat.le_add_left _ _)
  · rw [hsub]
    by_cases hid' : id' = id
    · rw [hid', hself, hcached, ← hw]
      exact h.cached id
    · rw [hne id' hid']
      exact h.cached id'
  · by_cases hid' : id' = id
    · by_cases hid'' : id'' = id
      · rw [hid', hid'']
      · rw [hid', hself] at heq
        exact absurd heq.symm (hdist id'' hid'')
    · by_cases hid'' : id'' = id
      · rw [hid'', hself] at heq
        exact absurd heq (hdist id' hid')
      · rw [hne id' hid', hne id'' hid''] at heq
        rw [hne id' hid'] at hpos
        exact h.distinct id' id'' heq hpos
  · rw [hfetched] at hu
    rw [hctxs] at hrun
    by_cases hnew : u = 1 + s.numFetched
    · refine ⟨id, hid.1, hid.2, by rw [hself, htask, hnew], ?_⟩
      rw [hself, hat', if_neg (by omega)]
      rfl
    · obtain ⟨id', h1', hle', htu, hact⟩ := h.holder u h1 (by omega) hm hrun
      have hid' : id' ≠ id := fun heq => by
        rw [heq, hbefore] at hact
        cases hact
      exact ⟨id', h1', hle', by rw [hne id' hid', htu], by rw [hne id' hid', hact]⟩
  · rw [hissued] at hu
    rw [hctxs] at hrun ⊢
    refine h.unheld u hu hrun fun id' htu => ?_
    by_cases hid' : id' = id
    · rw [hid']
      by_contra hwork
      rw [WorkerAt.active_of_working (Bool.not_eq_false _ ▸ hwork)] at hbefore
      cases hbefore
    · rw [← hne id' hid']
      exact hnone id' (by rw [hne id' hid', htu])

end Crew

end Scheduler
