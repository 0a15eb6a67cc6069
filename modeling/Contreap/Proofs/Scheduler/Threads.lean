/-
Every thread keeps the invariant.

One lemma for each kind of thread, by the points it can be at.  Where a task takes a
step, in a pipe or at a worker, the work is to show that the task it reads of is done
or ahead (`Inv.pipe_ahead`, `Inv.worker_ahead`); the rest is which counters change.

`Change` is what is left of a step when only the heap and the contexts are looked at.
It comes with the invariant, and what holds of later states is read off it.
-/
import Contreap.Proofs.Scheduler.Invariant

namespace Scheduler

open BinaryTree PtrHeap Treap

variable {c : Config} {T : Nat → BinaryTree Datum} {t₀ : BinaryTree Datum} {s s' : State}
  {steps steps' : Nat → Nat} {u n id i : Nat} {h' : Store} {ctx' : Context} {a : Action}

/-! ### What a step changes

Most of what is proved of later states does not care which thread has moved.  The cases
are what can happen to the heap and the contexts, and everything else about the step is
forgotten.
-/

/-- What a step does to the heap, the contexts and the steps taken, by what kind of step it
is.  The counters and the threads' own variables are left out. -/
inductive Change (a : Action) (s : State) (steps : Nat → Nat) (s' : State) (steps' : Nat → Nat) :
    Prop
  | same (hheap : s'.heap = s.heap) (hctxs : s'.ctxs = s.ctxs)
      (hissued : s'.numIssued = s.numIssued) (hsteps : steps' = steps)
  | moved {u : Nat} {x : Store × Context} (hu : u ≤ s.numIssued)
      (heff : Effect s.heap s.ctxs steps u s.numCommitted x.1 x.2) (hheap : s'.heap = x.1)
      (hctxs : s'.ctxs = Function.update s.ctxs u x.2) (hissued : s'.numIssued = s.numIssued)
      (hsteps : steps' = Function.update steps u (steps u + 1))
  | staged {u n : Nat} (hheap : s'.heap = s.heap)
      (hctxs : s'.ctxs = Function.update s.ctxs u { s.ctxs u with stage := .reached n })
      (hissued : s'.numIssued = s.numIssued) (hu : u ≤ s.numIssued) (hrun : ¬ Finished s.ctxs u)
      (hsteps : steps' = steps)
  | issued {ctx : Context} (hgrow : Grows s.heap s'.heap)
      (hctxs : s'.ctxs = Function.update s.ctxs (s.numIssued + 1) ctx)
      (hissued : s'.numIssued = s.numIssued + 1)
      (hm : Moves s.heap s.ctxs steps (s.numIssued + 1) s'.heap s'.ctxs steps')
  | augmented {id task : Nat} {v : UInt64} (hact : a = .worker id)
      (hat : (s.workers id).at_ = .estimate task)
      (hrun : augment (recursionBound s.heap) s.heap (s.ctxs task).root = some (s'.heap, v))
      (hctxs : s'.ctxs = s.ctxs) (hissued : s'.numIssued = s.numIssued) (hsteps : steps' = steps)

/-- The invariant after a step, and what the step has changed. -/
def Next (c : Config) (T : Nat → BinaryTree Datum) (s : State) (steps : Nat → Nat) (a : Action)
    (s' : State) : Prop :=
  ∃ steps', Inv c T s' steps' ∧ Change a s steps s' steps'

/-- The heap and the contexts are as they were. -/
theorem Inv.next_same (h : Inv c T s' steps) (hheap : s'.heap = s.heap) (hctxs : s'.ctxs = s.ctxs)
    (hissued : s'.numIssued = s.numIssued) : Next c T s steps a s' :=
  ⟨steps, h, .same hheap hctxs hissued rfl⟩

/-! ### The master

The new task is at its root when `update_` returns.  Nobody waits for it yet, so all
that is to be shown is that its root stands for the tree of its version.
-/

/-- A new task is at its root, and nobody has come to it yet. -/
theorem Inv.issue (h : Inv c T s steps) (hm : s.master = .idle)
    (hlen : s.numIssued < c.ops.length) {x : Store × Context}
    (ht : Trees T x.1 (Function.update s.ctxs (s.numIssued + 1) x.2) steps (s.numIssued + 1)
      s.numCommitted)
    (hx : x.2.st = .done ∨ x.2.stage = .reached 0) :
    Inv c T (initContext.issue s x) steps := by
  have hself : (initContext.issue s x).ctxs (s.numIssued + 1) = x.2 := Function.update_self ..
  have hne : ∀ u, u ≠ s.numIssued + 1 → (initContext.issue s x).ctxs u = s.ctxs u :=
    fun u hu => Function.update_of_ne hu ..
  have hzero : steps (s.numIssued + 1) = 0 := (h.trees.unissued _ (Nat.lt_succ_self _)).2
  have hfin : ∀ u, Finished s.ctxs u → Finished (initContext.issue s x).ctxs u := fun u hf => by
    rwa [Finished, hne u fun heq => Nat.not_succ_le_self _ (heq ▸ h.trees.finished_le hf)]
  have hpushed : (initContext.issue s x).pushed 0 = s.pushed 0 := by
    simp only [State.pushed, hm]
    rfl
  refine ⟨ht, ?_, h.crew.congr rfl rfl (Nat.le_refl _) hfin (fun id hat => ⟨hne _ ?_, rfl⟩)
    (fun u hu hrun hidle => ?_), fun u hu hrun i hi => ?_,
    ⟨h.collected.committed, h.collected.le, fun w hw => hfin w (h.collected.done w hw)⟩⟩
  · refine h.flow.of_master rfl (fun _ _ => rfl) (fun hlink => ?_) ?_ ?_ rfl rfl
      (fun _ => Nat.succ_le_succ (Nat.zero_le _)) hlen
    · rw [hpushed]
      exact hlink.mono fun hr => absurd (hm.symm.trans hr) (by decide)
    · rw [hpushed]
      rfl
    · rw [hpushed]
  · have hle := ((h.crew.knows id).of_working hat).2.2.trans h.flow.submitted_le_issued
    omega
  · by_cases hu' : u = s.numIssued + 1
    · subst hu'
      rw [Finished, hself] at hrun
      rw [hzero, hself]
      exact ⟨Nat.zero_le _, hx.resolve_left hrun⟩
    · rw [Finished, hne u hu'] at hrun
      rw [hne u hu']
      exact h.crew.unheld u (Nat.le_of_lt_succ (Nat.lt_of_le_of_ne hu hu')) hrun hidle
  · by_cases hu' : u = s.numIssued + 1
    · subst hu'
      have hle := (h.flow.moved_le hi).trans (h.flow.pushed_le_issued (Nat.le_of_lt hi))
      rw [hzero]
      exact ⟨fun hmoved => absurd (hmoved.trans hle) (Nat.not_succ_le_self _),
        fun hlt => absurd hlt (Nat.not_lt_zero i)⟩
    · rw [Finished, hne u hu'] at hrun
      exact h.piped u (Nat.le_of_lt_succ (Nat.lt_of_le_of_ne hu hu')) hrun i hi

/-- The task starts, or `update_` waits for a version that is not committed. -/
theorem Inv.initContext (h : Inv c (versionTree c t₀) s steps) (h₀ : VerBound 0 t₀)
    (hm : s.master = .idle) {op : Op} (hop : c.ops[s.numIssued]? = some op) :
    (∃ w, s.numCommitted < w ∧ w ≤ s.numIssued ∧ initContext c s op = none) ∨
    ∃ s', initContext c s op = some s' ∧ Next c (versionTree c t₀) s steps .master s' := by
  have hT := versionTree_succ t₀ hop
  have hbound := verBound_versionTree (c := c) (k := s.numIssued) h₀
  have hlen : s.numIssued < c.ops.length := (List.getElem?_eq_some_iff.mp hop).1
  have hstart : ∀ ctx : Context, ctx.fn = .search → ctx.st = .running → ctx.stage = .reached 0 →
      ctx.ver = s.numIssued + 1 → ctx.tPast = (s.ctxs s.numIssued).root →
      versionTree c t₀ (s.numIssued + 1) = ctx.target (versionTree c t₀ s.numIssued) →
      (∃ w, s.numCommitted < w ∧ w ≤ s.numIssued ∧ initContext.start s ctx = none) ∨
      ∃ s', initContext.start s ctx = some s' ∧ Next c (versionTree c t₀) s steps .master s' := by
    intro ctx hfn hst hstage hver hpast htarget
    rcases h.trees.issue hbound hfn hst hstage hver hpast htarget with
      ⟨w, hlt, hle, hnone⟩ | ⟨heap, ctx', q, hrun, hgrow, hx, hm', ht⟩
    · exact Or.inl ⟨w, hlt, hle, by simp [initContext.start, hnone]⟩
    · exact Or.inr ⟨initContext.issue s (heap, { ctx' with root := q, tCur := q }),
        by rw [initContext.start, hrun]; rfl, steps, h.issue hm hlen ht hx, .issued hgrow rfl rfl hm'⟩
  cases op with
  | insertElem elem => exact hstart _ rfl rfl rfl rfl rfl hT
  | deleteElem elem => exact hstart _ rfl rfl rfl rfl rfl hT
  | nop =>
      have hroot : ({ ver := s.numIssued + 1, root := (s.ctxs s.numIssued).root } : Context).root
          = (s.ctxs s.numIssued).root := rfl
      obtain ⟨hm', ht⟩ := h.trees.issue_done hT hroot
      exact Or.inr ⟨_, rfl, steps, h.issue hm hlen ht (Or.inl rfl),
        .issued (.refl s.heap) rfl rfl hm'⟩

/-- Issuing is the case with something to prove; pushing and notifying are the rules of
the pipeline. -/
theorem inv_master (h : Inv c (versionTree c t₀) s steps) (h₀ : VerBound 0 t₀)
    (hstep : masterStep c s = some s') : Next c (versionTree c t₀) s steps .master s' := by
  unfold masterStep at hstep
  cases hm : s.master with
  | idle =>
      rw [hm] at hstep
      obtain ⟨op, hop, hinit⟩ := Option.bind_eq_some_iff.mp hstep
      rcases h.initContext h₀ hm hop with ⟨-, -, -, hnone⟩ | ⟨s₁, hrun, hinv⟩
      · rw [hnone] at hinit
        cases hinit
      · rw [hrun] at hinit
        cases hinit
        exact hinv
  | push =>
      rw [hm] at hstep
      cases hstep
      have hpos := h.flow.issued hm
      -- One token more is one task more that has been pushed; a pipe that sleeps on the counter
      -- is notified in the next step.
      have hpushed : s.pushed 0 + 1 = s.numIssued := by
        simp only [State.pushed, if_pos hm]
        omega
      obtain ⟨m, hm', hout⟩ : ∃ m, m = (if s.tokens 0 + 1 = 0 then Master.notify else .idle) ∧
          { s.pushToken 0 with master := m }.pushed 0 = s.numIssued := by
        refine ⟨_, rfl, ?_⟩
        by_cases hz : s.tokens 0 + 1 = 0
        · simp [State.pushed, State.pushToken, hz]
        · simp [State.pushed, State.pushToken, hz]
      have htoken := pushToken_self s (i := 0)
      rw [← hm']
      refine Inv.next_same (h.frame rfl rfl rfl rfl rfl rfl rfl (Nat.le_refl _)
        (fun _ _ _ _ => Iff.rfl) (h.flow.of_master rfl (fun l hl => pushToken_of_ne s hl)
          (fun hlink => ?_) ?_ ?_ rfl rfl (fun hcontra => ?_) h.flow.bounded)) rfl rfl rfl
      · rw [hout, ← hpushed]
        show Link _ (m = .notify) ((s.pushToken 0).tokens 0) _
        rw [htoken]
        exact hlink.push (fun hr => absurd (hm.symm.trans hr) (by decide))
          fun hz => by rw [hm', if_pos hz]
      · rw [hout]
        show (s.pushToken 0).tokens 0 - _ = _
        rw [htoken]
        omega
      · rw [hout]
        omega
      · simp only [hm'] at hcontra
        split at hcontra <;> cases hcontra
  | notify =>
      rw [hm] at hstep
      cases hstep
      have hinv := h.notify 0
      -- The pipe has been woken, and nobody is left to be notified.
      have hasleep : ((s.notify 0).pipes 1).at_ ≠ .asleep := by
        rw [notify_eq, setPipe_self]
        exact woken_not_asleep _
      have hm' : (s.notify 0).master = .notify := by
        rw [notify_eq]
        exact hm
      obtain ⟨hheap, hctxs, hissued⟩ := notify_same s 0
      refine Inv.next_same (hinv.frame rfl rfl rfl rfl rfl rfl rfl (Nat.le_refl _)
        (fun _ _ _ _ => Iff.rfl) (hinv.flow.of_master rfl (fun _ _ => rfl) (fun hlink => ?_) ?_ ?_
          rfl rfl (by simp) hinv.flow.bounded)) hheap hctxs hissued
      · simp only [State.pushed, hm', State.Ringing] at hlink ⊢
        exact ⟨hlink.pos, hlink.room, hlink.entered, hlink.balance,
          fun hat => absurd hat hasleep⟩
      · simp only [State.pushed, hm']
        rfl
      · simp only [State.pushed, hm']
        exact Nat.le_refl _

/-! ### Pipes

By the time a pipe executes, the task at its position has been pushed to it (`Link`),
and it has executed every earlier task, so that these are ahead.
-/

section
variable (h : Inv c T s steps) (hi : i < c.numPipes) (hat : (s.pipes (i + 1)).at_ = .exec)
include h hi hat

theorem Inv.pipe_pos : (s.pipes (i + 1)).pos ≤ s.pushed i ∧ (s.pipes (i + 1)).pos ≤ s.numIssued ∧
    (s.pipes (i + 1)).moved + 1 = (s.pipes (i + 1)).pos := by
  have hlink := h.flow.links i hi
  have hle := hlink.entered (Or.inl hat)
  have hpos := hlink.pos
  refine ⟨hle, hle.trans (h.flow.pushed_le_issued (Nat.le_of_lt hi)), ?_⟩
  simp only [Pipe.moved, hat]
  simp only [reduceCtorEq, or_self, if_false]
  omega

/-- A task that is about to be executed has been through the pipes before. -/
theorem Inv.pipe_steps (hrun : ¬ Finished s.ctxs (s.pipes (i + 1)).pos) :
    steps (s.pipes (i + 1)).pos = i := by
  obtain ⟨hle, hissued, hmoved⟩ := h.pipe_pos hi hat
  have hupper : ¬ i < steps (s.pipes (i + 1)).pos := by
    rw [← h.piped _ hissued hrun i hi]
    omega
  refine Nat.le_antisymm (Nat.not_lt.mp hupper) ?_
  cases i with
  | zero => exact Nat.zero_le _
  | succ j =>
      have hj : j < c.numPipes := Nat.lt_of_succ_lt hi
      exact (h.piped _ hissued hrun j hj).mp (hle.trans
        (h.flow.pushed_le_moved (Nat.lt_succ_self j) (Nat.le_of_lt hi)))

/-- **In a pipe, earlier tasks are ahead**: the pipe has executed them before. -/
theorem Inv.pipe_ahead (hrun : ¬ Finished s.ctxs (s.pipes (i + 1)).pos) :
    ∀ w < (s.pipes (i + 1)).pos, Finished s.ctxs w ∨ steps (s.pipes (i + 1)).pos < steps w := by
  intro w hw
  obtain ⟨-, hissued, hmoved⟩ := h.pipe_pos hi hat
  by_cases hfin : Finished s.ctxs w
  · exact Or.inl hfin
  · rw [h.pipe_steps hi hat hrun]
    exact Or.inr ((h.piped w (by omega) hfin i hi).mp (by omega))

/-- No worker has come to the task. -/
theorem Inv.pipe_unheld {u : Nat} (hu : u = (s.pipes (i + 1)).pos) (id : Nat)
    (hwork : (s.workers id).at_.working = true) : (s.workers id).taskId ≠ u := by
  have hsub := ((h.crew.knows id).of_working hwork).2.2
  have hend := h.flow.submitted_le.trans (h.flow.pushed_le_moved hi (Nat.le_refl _))
  obtain ⟨-, -, hmoved⟩ := h.pipe_pos hi hat
  omega

/-- The step of a task in a pipe, put into the invariant: the task has taken one step
more, and so has passed this pipe. -/
theorem Inv.pipe_exec {u : Nat} (hu : u = (s.pipes (i + 1)).pos) (hrun : ¬ Finished s.ctxs u)
    {x : Store × Context} (heff : Effect s.heap s.ctxs steps u s.numCommitted x.1 x.2) :
    Inv c T ((s.setTask u x).setPipe (i + 1) ⟨u, .push⟩)
      (Function.update steps u (steps u + 1)) := by
  obtain ⟨hle, hissued, hmoved⟩ := h.pipe_pos hi hat
  have hsteps := h.pipe_steps hi hat (hu ▸ hrun)
  rw [← hu] at hle hissued hmoved hsteps
  have hfin : ∀ w, Finished s.ctxs w → Finished (Function.update s.ctxs u x.2) w :=
    fun w hw => heff.moves.finished hw
  -- Of the pipes only this one has moved, and the task has taken as many steps as pipes it has
  -- passed.
  have hmoved' : ∀ j, (((s.setTask u x).setPipe (i + 1) ⟨u, .push⟩).pipes (j + 1)).moved
      = if j = i then u else (s.pipes (j + 1)).moved := by
    intro j
    by_cases hj : j = i
    · rw [if_pos hj, hj, setPipe_self]
      exact if_pos (Or.inl rfl)
    · rw [if_neg hj, setPipe_of_ne _ _ (by omega)]
      rfl
  refine ⟨h.trees.effect hissued heff, ?_, h.crew.congr rfl rfl (Nat.le_refl _) hfin
    (fun id hwork => ?_) (fun w hw hrun' hidle => ?_), fun w hw hrun' j hj => ?_,
    ⟨h.collected.committed, h.collected.le, fun w hw => hfin w (h.collected.done w hw)⟩⟩
  · have hpushed : s.pushed (i + 1) = Pipe.pushed ⟨u, .push⟩ := by
      simp only [State.pushed, Pipe.pushed, hat, hu]
      rfl
    refine h.flow.pipe hi rfl (fun _ _ _ => rfl) (fun hlink => ?_) (fun hlink => ?_) ?_ ?_ rfl rfl
      rfl rfl
    · rw [hu]
      exact hlink.advance (Or.inl hat) (Or.inl rfl)
    · rw [← hpushed]
      exact hlink.mono fun hr => absurd (hat.symm.trans hr) (by decide)
    · rw [← hpushed]
      rfl
    · rw [hpushed]
  · have hne := h.pipe_unheld hi hat hu id hwork
    exact ⟨Function.update_of_ne hne .., Function.update_of_ne hne ..⟩
  · by_cases hwu : w = u
    · subst hwu
      have hst : x.2.st ≠ .done := by
        rwa [Finished, show ((s.setTask w x).setPipe (i + 1) ⟨w, .push⟩).ctxs w = x.2 from
          Function.update_self ..] at hrun'
      have hold := (h.crew.unheld w hw hrun hidle).2
      rw [Function.update_self, hsteps]
      exact ⟨hi, (congrArg Context.stage (Function.update_self ..)).trans
        ((heff.stage hst).trans hold)⟩
    · have hctx : ((s.setTask u x).setPipe (i + 1) ⟨u, .push⟩).ctxs w = s.ctxs w :=
        Function.update_of_ne hwu ..
      rw [Finished, hctx] at hrun'
      rw [hctx, Function.update_of_ne hwu]
      exact h.crew.unheld w hw hrun' hidle
  · rw [hmoved']
    by_cases hwu : w = u
    · subst hwu
      have hold := h.piped w hw hrun j hj
      rw [Function.update_self, hsteps]
      rw [hsteps] at hold
      split
      · omega
      · omega
    · rw [Finished, show ((s.setTask u x).setPipe (i + 1) ⟨u, .push⟩).ctxs w = s.ctxs w from
        Function.update_of_ne hwu ..] at hrun'
      have hold := h.piped w hw hrun' j hj
      rw [Function.update_of_ne hwu, ← hold]
      split
      · subst_vars
        omega
      · rfl

end

/-- The step a pipe takes on a task that is not done. -/
theorem Inv.pipe_oneStep (h : Inv c T s steps) (hi : i < c.numPipes)
    (hat : (s.pipes (i + 1)).at_ = .exec) {u : Nat} (hu : u = (s.pipes (i + 1)).pos)
    (hrun : ¬ Finished s.ctxs u) :
    (∃ w, s.numCommitted < w ∧ w < u ∧ executeOneStep s.heap s.numCommitted (s.ctxs u) = none) ∨
    ∃ x, executeOneStep s.heap s.numCommitted (s.ctxs u) = some x ∧
      Effect s.heap s.ctxs steps u s.numCommitted x.1 x.2 := by
  subst hu
  rcases h.trees.oneStep (h.pipe_pos hi hat).2.1 hrun
    (fun b y _ _ hlt => h.pipe_ahead hi hat hrun _ hlt) with hwait | ⟨heap, ctx', hone, heff⟩
  · exact Or.inl hwait
  · exact Or.inr ⟨(heap, ctx'), hone, heff⟩

/-! ### Steps of a pipe that execute nothing

A pipe has a part in two links: it takes from one and pushes to the other.  Such a step is
one of a link's rules, and everything else of the invariant is as before.
-/

/-- The rule for what a pipe does besides: at the most it passes a task that is done. -/
theorem Inv.pipe_frame (h : Inv c T s steps) (hi : i < c.numPipes) {p' : Pipe} {tok : Nat → Int}
    (hmoved : ∀ u, ¬ Finished s.ctxs u → (u ≤ p'.moved ↔ u ≤ (s.pipes (i + 1)).moved))
    (htok : ∀ l, l ≠ i → l ≠ i + 1 → tok l = s.tokens l)
    (hin : Link (s.pushed i) (s.Ringing i) (s.tokens i) (s.pipes (i + 1)) →
      Link (s.pushed i) (s.Ringing i) (tok i) p')
    (hout : Link (s.pushed (i + 1)) (s.Ringing (i + 1)) (s.tokens (i + 1)) (s.pipes (i + 2)) →
      Link p'.pushed (p'.at_ = .notify) (tok (i + 1)) (s.pipes (i + 2)))
    (hlast : tok (i + 1) - p'.pushed = s.tokens (i + 1) - s.pushed (i + 1))
    (hle : s.pushed (i + 1) ≤ p'.pushed) :
    Inv c T { s.setPipe (i + 1) p' with tokens := tok } steps := by
  refine h.frame rfl rfl rfl rfl rfl rfl rfl (Nat.le_refl _) (fun u hrun l _ => ?_)
    (h.flow.pipe hi rfl htok hin hout hlast hle rfl rfl rfl rfl)
  simp only [State.setPipe]
  by_cases hl : l = i
  · rw [hl, Function.update_self]
    exact hmoved u hrun
  · rw [Function.update_of_ne (by omega)]

/-- A pipe that hands nothing on. -/
theorem Inv.pipe_quiet (h : Inv c T s steps) (hi : i < c.numPipes) {p' : Pipe} {tok : Nat → Int}
    (hmoved : ∀ u, ¬ Finished s.ctxs u → (u ≤ p'.moved ↔ u ≤ (s.pipes (i + 1)).moved))
    (htok : ∀ l, l ≠ i → tok l = s.tokens l)
    (hin : Link (s.pushed i) (s.Ringing i) (s.tokens i) (s.pipes (i + 1)) →
      Link (s.pushed i) (s.Ringing i) (tok i) p')
    (hpushed : p'.pushed = s.pushed (i + 1)) (hat : (s.pipes (i + 1)).at_ ≠ .notify) :
    Inv c T { s.setPipe (i + 1) p' with tokens := tok } steps := by
  have htok' := htok (i + 1) (Nat.succ_ne_self i)
  refine h.pipe_frame hi hmoved (fun l hl _ => htok l hl) hin (fun hlink => ?_) ?_ hpushed.ge
  · rw [hpushed, htok']
    exact hlink.mono fun hr => absurd hr hat
  · rw [hpushed, htok']

/-- By the points of the loop.  All but the execution is a matter of the two links that
the pipe has a part in. -/
theorem inv_pipe (h : Inv c T s steps) (hid : 1 ≤ id ∧ id ≤ c.numPipes)
    (hstep : pipeStep c s id = some s') : Next c T s steps (.pipe id) s' := by
  obtain ⟨i, rfl⟩ : ∃ i, id = i + 1 := ⟨id - 1, by omega⟩
  have hi : i < c.numPipes := hid.2
  have hpos := (h.flow.links i hi).pos
  simp only [pipeStep, Nat.add_sub_cancel] at hstep
  split at hstep
  swap
  · cases hstep
  cases hat : (s.pipes (i + 1)).at_ with
  | claim =>
      rw [hat] at hstep
      cases hstep
      refine Inv.next_same (h.pipe_quiet hi (fun u _ => ?_) (fun l hl => Function.update_of_ne hl ..)
        (fun hlink => ?_) ?_ (by rw [hat]; decide)) rfl rfl rfl
      · by_cases hz : s.tokens i = 0 <;> simp [Pipe.moved, hat, hz]
      · rw [Function.update_self]
        exact hlink.claim hat
      · by_cases hz : s.tokens i = 0 <;> simp [State.pushed, Pipe.pushed, hat, hz]
  | wait =>
      rw [hat] at hstep
      cases hstep
      refine Inv.next_same (h.pipe_quiet hi (fun u _ => ?_) (fun _ _ => rfl)
        (fun hlink => hlink.compare hat) ?_ (by rw [hat]; decide)) rfl rfl rfl
      · by_cases hz : s.tokens i = -1 <;> simp [Pipe.moved, hat, hz]
      · by_cases hz : s.tokens i = -1 <;> simp [State.pushed, Pipe.pushed, hat, hz]
  | asleep =>
      rw [hat] at hstep
      cases hstep
  | exec =>
      rw [hat] at hstep
      simp only at hstep
      by_cases hdone : (s.ctxs (s.pipes (i + 1)).pos).st = .done
      · rw [if_pos hdone] at hstep
        cases hstep
        refine Inv.next_same (h.pipe_quiet hi (fun u hrun => ?_) (fun _ _ => rfl)
          (fun hlink => hlink.advance (Or.inl hat) (Or.inl rfl)) ?_
          (by rw [hat]; decide)) rfl rfl rfl
        -- A task that is done is passed on as it is.
        · have hne : u ≠ (s.pipes (i + 1)).pos := fun heq => hrun (heq ▸ hdone)
          simp only [Pipe.moved, hat, true_or, if_true, reduceCtorEq, or_self, if_false]
          omega
        · simp [State.pushed, Pipe.pushed, hat]
      · rw [if_neg hdone] at hstep
        obtain ⟨x, hx, hs'⟩ := Option.bind_eq_some_iff.mp hstep
        cases hs'
        -- The step waits for a commit or is taken, and in this case it is taken.
        rcases h.pipe_oneStep hi hat rfl hdone with ⟨-, -, -, hnone⟩ | ⟨x', hone, heff⟩
        · rw [hnone] at hx
          cases hx
        · obtain rfl := Option.some.inj (hone.symm.trans hx)
          exact ⟨_, h.pipe_exec hi hat rfl hdone heff,
            .moved (h.pipe_pos hi hat).2.1 heff rfl rfl rfl rfl⟩
  | push =>
      rw [hat] at hstep
      cases hstep
      have hpushed : s.pushed (i + 1) + 1 = (s.pipes (i + 1)).pos := by
        simp only [State.pushed, Pipe.pushed, hat, reduceCtorEq, if_false]
        omega
      -- With a pipe asleep at the other end a notification is still to come.
      obtain ⟨p', hp', hmoved, hpushed'⟩ : ∃ p', p' = (if s.tokens (i + 1) + 1 = 0
          then { s.pipes (i + 1) with at_ := .notify } else { pos := (s.pipes (i + 1)).pos + 1 }) ∧
          p'.moved = (s.pipes (i + 1)).pos ∧ p'.pushed = (s.pipes (i + 1)).pos := by
        refine ⟨_, rfl, ?_⟩
        by_cases hz : s.tokens (i + 1) + 1 = 0 <;> simp [hz, Pipe.moved, Pipe.pushed]
      rw [← hp']
      refine Inv.next_same (h.pipe_frame hi (fun u _ => ?_) (fun l _ hl => pushToken_of_ne s hl)
        (fun hlink => ?_) (fun hlink => ?_) ?_ ?_) rfl rfl rfl
      · rw [hmoved]
        simp [Pipe.moved, hat]
      · rw [pushToken_of_ne s (Nat.succ_ne_self i).symm, hp']
        split
        · exact hlink.advance (Or.inr hat) (Or.inr rfl)
        · exact hlink.next (Or.inl hat)
      · rw [pushToken_self, hpushed', ← hpushed]
        exact hlink.push (fun hr => absurd (hat.symm.trans hr) (by decide))
          fun hz => by rw [hp', if_pos hz]
      · rw [pushToken_self, hpushed']
        omega
      · rw [hpushed']
        omega
  | notify =>
      rw [hat] at hstep
      cases hstep
      have hinv := h.notify (i + 1)
      have hsame : (s.notify (i + 1)).pipes (i + 1) = s.pipes (i + 1) := by
        rw [notify_eq, setPipe_of_ne _ _ (by omega)]
      -- The next pipe has been woken if it was asleep.
      have hasleep : ((s.notify (i + 1)).pipes (i + 2)).at_ ≠ .asleep := by
        rw [notify_eq, setPipe_self]
        exact woken_not_asleep _
      have hpushed : (s.notify (i + 1)).pushed (i + 1)
          = Pipe.pushed { pos := (s.pipes (i + 1)).pos + 1 } := by
        simp [State.pushed, Pipe.pushed, hsame, hat]
      obtain ⟨hheap, hctxs, hissued⟩ := notify_same s (i + 1)
      refine Inv.next_same (hinv.pipe_frame hi (fun u _ => ?_) (fun _ _ _ => rfl) (fun hlink => ?_)
        (fun hlink => ?_) ?_ hpushed.le) hheap hctxs hissued
      · rw [hsame]
        simp [Pipe.moved, hat]
      · rw [hsame] at hlink
        exact hlink.next (Or.inr hat)
      · rw [← hpushed]
        exact ⟨hlink.pos, hlink.room, hlink.entered, hlink.balance,
          fun hat' => absurd hat' hasleep⟩
      · rw [hpushed]

/-! ### The boarder and the collector

Neither touches a context.  The boarder turns tokens into submitted tasks, and what the
collector publishes was seen to be done.
-/

/-- Tokens become submitted tasks, and no context changes. -/
theorem inv_boarder (h : Inv c T s steps) (hstep : boarderStep c s = some s') :
    Next c T s steps .boarder s' := by
  simp only [boarderStep] at hstep
  split at hstep
  · cases hstep
    exact Inv.next_same (h.frame rfl rfl rfl rfl rfl rfl rfl h.flow.submitted (fun _ _ _ _ => Iff.rfl)
      ⟨h.flow.links, h.flow.last, h.flow.taken, Nat.le_refl _, fun _ => rfl, h.flow.issued,
        h.flow.bounded⟩) rfl rfl rfl
  · split at hstep
    swap
    · cases hstep
    · rename_i hgo
      cases hstep
      have hlast := h.flow.last
      refine Inv.next_same (h.frame rfl rfl rfl rfl rfl rfl rfl (Nat.le_refl _) (fun _ _ _ _ => Iff.rfl)
        ⟨fun i hi => ?_, ?_, ?_, h.flow.submitted.trans (Nat.le_add_right _ _), nofun,
          h.flow.issued, h.flow.bounded⟩) rfl rfl rfl
      · simp only [Function.update_of_ne (Nat.ne_of_lt hi)]
        exact h.flow.links i hi
      · simp only [Function.update_self]
        show _ = (s.pushed c.numPipes : Int) - _
        omega
      · show s.boarder.localSubmitted + (s.tokens c.numPipes).toNat ≤ s.pushed c.numPipes
        omega

/-- A task that is seen to be done is counted, and what was counted is committed. -/
theorem inv_collector (h : Inv c T s steps) (hstep : collectorStep c s = some s') :
    Next c T s steps .collector s' := by
  have hcrew : Crew c s steps := h.crew
  simp only [collectorStep] at hstep
  split at hstep
  · rename_i hgo
    cases hstep
    refine Inv.next_same ⟨h.trees, h.flow.congr (fun _ _ => rfl) rfl rfl rfl rfl rfl,
      hcrew.congr rfl rfl (Nat.le_refl _) (fun _ hf => hf) (fun _ _ => ⟨rfl, rfl⟩) hcrew.unheld,
      h.piped, ⟨h.collected.committed, h.collected.le.trans (Nat.le_succ _), fun w hw => ?_⟩⟩
      rfl rfl rfl
    rcases Nat.le_succ_iff.mp hw with hle | rfl
    · exact h.collected.done w hle
    · exact (h.trees.done _).mpr (of_decide_eq_true hgo.2)
  · split at hstep
    swap
    · cases hstep
    · cases hstep
      exact Inv.next_same ⟨h.trees.commit h.collected.le h.collected.done,
        h.flow.congr (fun _ _ => rfl) rfl rfl rfl rfl rfl,
        hcrew.congr rfl rfl (Nat.le_refl _) (fun _ hf => hf) (fun _ _ => ⟨rfl, rfl⟩) hcrew.unheld,
        h.piped, ⟨rfl, Nat.le_refl _, h.collected.done⟩⟩ rfl rfl rfl

/-! ### Workers

A worker compares versions and stages before it takes a step.  Either the version is
committed, and the rest can be done at once, or the task of that version is at a later
stage, and then one step ahead at least.
-/

section
variable {w w' : Worker}

/-- A worker that leaves its task as it is. -/
theorem Inv.worker_quiet (h : Inv c T s steps) (hid : 1 ≤ id ∧ id ≤ c.numWorkers)
    (hw : s.workers id = w) {heap : Store} {e : Nat → Nat} {l : List Event}
    (hheap : OnlyAug s.heap heap) (htask : w'.taskId = w.taskId)
    (hcached : w'.cachedSubmit ≤ s.numSubmitted)
    (hheld : w'.at_.working = true ∨ (w.at_.active = false ∧ w'.at_.active = false) ∨
      Finished s.ctxs w.taskId)
    (hknows : w'.at_.Knows c s steps w.taskId) :
    Inv c T { s.setWorker id w' with heap := heap, numEstimated := e, log := l } steps :=
  ⟨h.trees.onlyAug hheap, h.flow.congr (fun _ _ => rfl) rfl rfl rfl rfl rfl,
    h.crew.work hid hw rfl rfl rfl rfl htask hcached (fun _ _ => ⟨rfl, rfl⟩) (fun hf => hf)
      (fun _ => ⟨rfl, rfl⟩) hheld
      (hknows.congr (Nat.le_refl _) (fun hf => hf) fun _ => ⟨rfl, rfl⟩),
    h.piped, ⟨h.collected.committed, h.collected.le, h.collected.done⟩⟩

/-- A task that is submitted has been through all pipes. -/
theorem Inv.submitted_steps (h : Inv c T s steps) (hu : u ≤ s.numSubmitted)
    (hrun : ¬ Finished s.ctxs u) : c.numPipes ≤ steps u := by
  have hissued := hu.trans h.flow.submitted_le_issued
  cases hP : c.numPipes with
  | zero => exact Nat.zero_le _
  | succ i =>
      have hi : i < c.numPipes := by omega
      refine (h.piped u hissued hrun i hi).mp ?_
      exact (hu.trans h.flow.submitted_le).trans (h.flow.pushed_le_moved hi (Nat.le_refl _))

/-- A worker takes its task over from the pipeline. -/
theorem Inv.worker_enter (h : Inv c T s steps) (hw : s.workers id = w) (hat : w.at_ = .waitSubmit)
    (hsub : w.taskId ≤ s.numSubmitted) : (WorkerAt.head 1).Knows c s steps w.taskId := by
  have hknows := h.crew.knows id
  rw [hw, hat] at hknows
  obtain ⟨hpos, hle⟩ := hknows
  refine ⟨hpos, hle, hsub, Nat.le_refl 1, fun hrun => ?_⟩
  obtain ⟨hsteps, hstage⟩ := h.crew.unheld w.taskId (hsub.trans h.flow.submitted_le_issued) hrun
    fun id' htu => by
      rw [h.crew.distinct id' id (by rw [htu, hw]) (by rw [htu]; exact hpos), hw, hat]
      rfl
  have hge := h.submitted_steps hsub hrun
  exact ⟨by omega, hstage⟩

/-- The step of a task at a worker, put into the invariant: it is one stage further. -/
theorem Inv.worker_task (h : Inv c T s steps) (hid : 1 ≤ id ∧ id ≤ c.numWorkers)
    (hw : s.workers id = w) (hwork : w.at_.working = true)
    {x : Store × Context} (heff : Effect s.heap s.ctxs steps w.taskId s.numCommitted x.1 x.2)
    (hstage : x.2.st ≠ .done → (n + 1) + c.numPipes = steps w.taskId + 2 ∧
      (s.ctxs w.taskId).stage = .reached n) :
    Inv c T ((s.setTask w.taskId x).setWorker id { w with at_ := .head (n + 1) })
      (Function.update steps w.taskId (steps w.taskId + 1)) := by
  have hknows := h.crew.knows id
  rw [hw] at hknows
  obtain ⟨hpos, hle, hsub⟩ := hknows.of_working hwork
  have hissued := hsub.trans h.flow.submitted_le_issued
  have hself : ((s.setTask w.taskId x).setWorker id { w with at_ := .head (n + 1) }).ctxs w.taskId
      = x.2 := setTask_self s x
  have hfin : ∀ v, Finished s.ctxs v → Finished (Function.update s.ctxs w.taskId x.2) v :=
    fun v hv => heff.moves.finished hv
  refine ⟨h.trees.effect hissued heff, h.flow.congr (fun _ _ => rfl) rfl rfl rfl rfl rfl,
    h.crew.work hid hw rfl rfl rfl rfl rfl (hw ▸ h.crew.cached id) (fun v hv => ?_)
      (fun hf => hfin _ hf) (fun hidle => ?_) (Or.inl rfl) ?_, fun v hv hrun i hi => ?_,
    ⟨h.collected.committed, h.collected.le, fun v hv => hfin v (h.collected.done v hv)⟩⟩
  · exact ⟨setTask_of_ne s x hv, Function.update_of_ne hv ..⟩
  · rw [hidle] at hwork
    cases hwork
  · refine ⟨hpos, hle, hsub, Nat.le_add_left 1 n, fun hrun => ?_⟩
    rw [Finished, hself] at hrun
    obtain ⟨hsteps, hold⟩ := hstage hrun
    refine ⟨?_, ?_⟩
    · rw [Function.update_self]
      omega
    · rw [hself, heff.stage hrun, hold]
      rfl
  · by_cases hvu : v = w.taskId
    · rw [hvu]
      have hold := h.piped _ hissued heff.moves.running i hi
      have hmoved : w.taskId ≤ (s.pipes (i + 1)).moved := hsub.trans
        (h.flow.submitted_le.trans (h.flow.pushed_le_moved hi (Nat.le_refl _)))
      rw [Function.update_self]
      exact ⟨fun _ => Nat.lt_succ_of_lt (hold.mp hmoved), fun _ => hmoved⟩
    · have hctx : ((s.setTask w.taskId x).setWorker id { w with at_ := .head (n + 1) }).ctxs v
          = s.ctxs v := setTask_of_ne s x hvu
      rw [Finished, hctx] at hrun
      rw [Function.update_of_ne hvu]
      exact h.piped v hv hrun i hi

/-- The stage is stored. -/
theorem Inv.worker_stage (h : Inv c T s steps) (hid : 1 ≤ id ∧ id ≤ c.numWorkers)
    (hw : s.workers id = w) (hat : w.at_ = .head n) (hrun : ¬ Finished s.ctxs w.taskId) :
    Inv c T ((s.setTask w.taskId (s.heap,
      { s.ctxs w.taskId with stage := .reached n })).setWorker id { w with at_ := .decide n })
      steps := by
  have hknows := h.crew.knows id
  rw [hw, hat] at hknows
  obtain ⟨hpos, hle, hsub, hn, hst⟩ := hknows
  have hissued := hsub.trans h.flow.submitted_le_issued
  have hfin : ∀ v, Finished (Function.update s.ctxs w.taskId
      { s.ctxs w.taskId with stage := .reached n }) v ↔ Finished s.ctxs v := by
    intro v
    by_cases hv : v = w.taskId
    · rw [Finished, Finished, hv, Function.update_self]
    · rw [Finished, Finished, Function.update_of_ne hv]
  refine ⟨h.trees.restage hissued hrun n, h.flow.congr (fun _ _ => rfl) rfl rfl rfl rfl rfl,
    h.crew.work hid hw rfl rfl rfl rfl rfl (hw ▸ h.crew.cached id) (fun v hv => ?_)
      (fun hf => (hfin _).mpr hf) (fun hidle => ?_) (Or.inl rfl) ?_,
    fun v hv hrun' i hi => h.piped v hv (fun hf => hrun' ((hfin v).mpr hf)) i hi,
    ⟨h.collected.committed, h.collected.le, fun v hv => (hfin v).mpr (h.collected.done v hv)⟩⟩
  · exact ⟨setTask_of_ne s _ hv, rfl⟩
  · rw [hat] at hidle
    cases hidle
  · exact ⟨hpos, hle, hsub, hn, fun hf => hrun ((hfin w.taskId).mp hf), (hst hrun).steps,
      congrArg Context.stage (setTask_self s _)⟩

theorem vdep_eq_some {v : Nat} : vdep s u = some v ↔
    ∃ b y, (s.ctxs u).tPast = some b ∧ s.heap.get? b = some y ∧ y.ver = v := by
  simp only [vdep, Option.bind_eq_bind, Option.bind_eq_some_iff, Option.some.injEq]
  constructor
  · rintro ⟨b, hb, y, hy, hv⟩
    exact ⟨b, y, hb, hy, hv⟩
  · rintro ⟨b, y, hb, hy, hv⟩
    exact ⟨b, hb, y, hy, hv⟩

/-- **At a worker, the stages tell which task is ahead.** -/
theorem Inv.worker_ahead (h : Inv c T s steps) (hw : s.workers id = w) (hat : w.at_ = .oneStep n)
    {v : Nat} (hlt : v < w.taskId) (hstage : (s.ctxs v).stage.le n = false) :
    Finished s.ctxs v ∨ steps w.taskId < steps v := by
  have hknows := h.crew.knows id
  rw [hw, hat] at hknows
  obtain ⟨-, -, hsub, hn, -, hst⟩ := hknows
  have hissued := hsub.trans h.flow.submitted_le_issued
  cases hv : (s.ctxs v).stage with
  | done => exact Or.inl ((h.trees.done v).mpr hv)
  | reached k =>
      rw [hv] at hstage
      have hk : n < k := by simpa [Stage.le] using hstage
      by_cases hfin : Finished s.ctxs v
      · exact Or.inl hfin
      · have hge := h.crew.steps_of_stage (by omega) hfin hv (by omega)
        have := hst.steps
        exact Or.inr (by omega)

/-! ### What a worker executes

The two tests before a step are what makes it safe: all that the step reads is there, and
is what it is going to be.
-/

/-- The rest of a task, or one step of it, is there to be done. -/
theorem Inv.worker_complete (h : Inv c T s steps) (hw : s.workers id = w) (hat : w.at_ = .decide n)
    {v : Nat} (hv : vdep s w.taskId = some v) (hle : v ≤ s.numCommitted) :
    ∃ x, executeToComplete s.heap (s.ctxs w.taskId) = some x ∧ x.2.st = .done ∧
      Effect s.heap s.ctxs steps w.taskId s.numCommitted x.1 x.2 := by
  have hknows := h.crew.knows id
  rw [hw, hat] at hknows
  obtain ⟨-, -, hsub, -, hrun, -⟩ := hknows
  obtain ⟨b, y, hb, hy, hver⟩ := vdep_eq_some.mp hv
  obtain ⟨heap, ctx', hone, hdone, heff⟩ := h.trees.toComplete
    (hsub.trans h.flow.submitted_le_issued) hrun fun b' y' hb' hy' => by
      obtain rfl : b = b' := Option.some.inj (hb.symm.trans hb')
      obtain rfl := Option.some.inj (hy.symm.trans hy')
      rwa [hver]
  exact ⟨(heap, ctx'), hone, hdone, heff⟩

/-- The task that has been waited for is ahead, so the links that the step copies are
there. -/
theorem Inv.worker_oneStep (h : Inv c T s steps) (hw : s.workers id = w) (hat : w.at_ = .oneStep n)
    {v : Nat} (hv : vdep s w.taskId = some v) (hstage : (s.ctxs v).stage.le n = false) :
    (∃ v, s.numCommitted < v ∧ v < w.taskId ∧
      executeOneStep s.heap s.numCommitted (s.ctxs w.taskId) = none) ∨
    ∃ x, executeOneStep s.heap s.numCommitted (s.ctxs w.taskId) = some x ∧
      Effect s.heap s.ctxs steps w.taskId s.numCommitted x.1 x.2 := by
  have hknows := h.crew.knows id
  rw [hw, hat] at hknows
  obtain ⟨-, -, hsub, -, hrun, -⟩ := hknows
  obtain ⟨b, y, hb, hy, hver⟩ := vdep_eq_some.mp hv
  rcases h.trees.oneStep (hsub.trans h.flow.submitted_le_issued) hrun
    (fun b' y' hb' hy' hlt => by
      obtain rfl : b = b' := Option.some.inj (hb.symm.trans hb')
      obtain rfl := Option.some.inj (hy.symm.trans hy')
      rw [hver] at hlt ⊢
      exact h.worker_ahead hw hat hlt hstage) with hwait | ⟨heap, ctx', hone, heff⟩
  · exact Or.inl hwait
  · exact Or.inr ⟨(heap, ctx'), hone, heff⟩

/-- The root of any task shows a tree, unfinished or empty as it may be. -/
theorem Inv.root_shows (h : Inv c T s steps) (u : Nat) :
    ∃ t, Shows layout s.heap (s.ctxs u).root t := by
  by_cases hu : u ≤ s.numIssued
  · exact (h.trees.roots u hu).shows
  · rw [(h.trees.unissued u (Nat.not_le.mp hu)).1]
    exact ⟨_, .nil⟩

theorem Inv.augment_root (h : Inv c T s steps) (u : Nat) :
    ∃ x, augment (recursionBound s.heap) s.heap (s.ctxs u).root = some x ∧ OnlyAug s.heap x.1 := by
  obtain ⟨t, ht⟩ := h.root_shows u
  obtain ⟨heap, v, hrun, hsame⟩ := augment_total ht (Nat.lt_succ_of_le ht.height_le)
  exact ⟨(heap, v), hrun, hsame⟩

/-- At the head of the loop over tasks again. -/
theorem knows_again (hdone : u ≤ c.numTasks → Finished s.ctxs u) :
    (again c u).Knows c s steps u := by
  unfold again
  by_cases hu : u ≤ c.numTasks
  · rw [if_pos hu]
    exact ⟨hu, hdone hu⟩
  · rw [if_neg hu]
    exact Nat.not_le.mp hu

theorem again_inactive : (again c u).active = false := by
  unfold again
  split <;> rfl

end

/-- By the points of the loop.  Only a stage stored and a step taken change a context, and
only augmenting changes the heap besides. -/
theorem inv_worker (h : Inv c (versionTree c t₀) s steps) (hid : 1 ≤ id ∧ id ≤ c.numWorkers)
    (hstep : workerStep c s id = some s') :
    Next c (versionTree c t₀) s steps (.worker id) s' := by
  obtain ⟨w, hw⟩ : ∃ w, s.workers id = w := ⟨_, rfl⟩
  have hknows := h.crew.knows id
  have hcached := h.crew.cached id
  simp only [workerStep] at hstep
  rw [hw] at hstep hknows hcached
  cases hat : w.at_ with
  | fetch =>
      rw [hat] at hstep
      cases hstep
      exact Inv.next_same ⟨h.trees, h.flow.congr (fun _ _ => rfl) rfl rfl rfl rfl rfl,
        h.crew.fetch hid hw hat rfl rfl rfl rfl rfl rfl rfl rfl, h.piped,
        ⟨h.collected.committed, h.collected.le, h.collected.done⟩⟩ rfl rfl rfl
  | waitSubmit =>
      rw [hat] at hstep
      simp only at hstep
      split at hstep
      · rename_i hle
        cases hstep
        exact Inv.next_same (h.worker_quiet hid hw (.refl _) rfl hcached (Or.inl rfl)
          (h.worker_enter hw hat (hle.trans hcached))) rfl rfl rfl
      · split at hstep
        · rename_i hle
          cases hstep
          exact Inv.next_same (h.worker_quiet hid hw (.refl _) rfl (Nat.le_refl _) (Or.inl rfl)
            (h.worker_enter hw hat hle)) rfl rfl rfl
        · cases hstep
  | head n =>
      rw [hat] at hstep hknows
      simp only at hstep
      split at hstep
      · rename_i hdone
        cases hstep
        exact Inv.next_same (h.worker_quiet hid hw (.refl _) rfl hcached (Or.inr (Or.inr hdone))
          ⟨hknows.1, fun _ => hdone⟩) rfl rfl rfl
      · rename_i hrun
        cases hstep
        exact ⟨steps, h.worker_stage hid hw hat hrun,
          .staged rfl rfl rfl (hknows.2.2.1.trans h.flow.submitted_le_issued) hrun rfl⟩
  | decide n =>
      rw [hat] at hstep hknows
      obtain ⟨v, hv, hstep⟩ := Option.bind_eq_some_iff.mp hstep
      split at hstep
      · rename_i hle
        obtain ⟨x, hx, hs'⟩ := Option.bind_eq_some_iff.mp hstep
        cases hs'
        -- The task it reads of is committed, and so the rest can be done at once.
        obtain ⟨x', hone, hdone, heff⟩ := h.worker_complete hw hat hv hle
        obtain rfl := Option.some.inj (hone.symm.trans hx)
        exact ⟨_, h.worker_task hid hw (by rw [hat]; rfl) heff fun hst => absurd hdone hst,
          .moved (hknows.2.2.1.trans h.flow.submitted_le_issued) heff rfl rfl rfl rfl⟩
      · cases hstep
        exact Inv.next_same (h.worker_quiet hid hw (.refl _) rfl hcached (Or.inl rfl) hknows) rfl rfl rfl
  | oneStep n =>
      rw [hat] at hstep hknows
      obtain ⟨v, hv, hstep⟩ := Option.bind_eq_some_iff.mp hstep
      split at hstep
      · cases hstep
      · rename_i hstage
        obtain ⟨x, hx, hs'⟩ := Option.bind_eq_some_iff.mp hstep
        cases hs'
        -- The task it reads of is at a later stage, and the step can be taken unless it waits.
        rcases h.worker_oneStep hw hat hv (Bool.not_eq_true _ ▸ hstage) with
          ⟨-, -, -, hnone⟩ | ⟨x', hone, heff⟩
        · rw [hnone] at hx
          cases hx
        · obtain rfl := Option.some.inj (hone.symm.trans hx)
          obtain ⟨-, -, hsub, -, -, hst⟩ := hknows
          have hsteps := hst.steps
          exact ⟨_, h.worker_task hid hw (by rw [hat]; rfl) heff fun _ => ⟨by omega, hst.stage⟩,
            .moved (hsub.trans h.flow.submitted_le_issued) heff rfl rfl rfl rfl⟩
  | settle =>
      rw [hat] at hstep hknows
      simp only at hstep
      obtain ⟨hpos, hdone⟩ := hknows
      split at hstep
      · cases hstep
        refine Inv.next_same (h.worker_quiet hid hw (.refl _) rfl hcached
          (Or.inr (Or.inl ⟨by rw [hat]; rfl, ?_⟩)) ?_) rfl rfl rfl
        · split <;> rfl
        · split <;> exact ⟨hpos, hdone⟩
      · cases hstep
        exact Inv.next_same (h.worker_quiet hid hw (.refl _) rfl hcached
          (Or.inr (Or.inl ⟨by rw [hat]; rfl, again_inactive⟩)) (knows_again hdone)) rfl rfl rfl
  | estimate task =>
      rw [hat] at hstep hknows
      obtain ⟨x, hx, hs'⟩ := Option.bind_eq_some_iff.mp hstep
      cases hs'
      -- Whatever the state of the version, only aggregates are written.
      obtain ⟨x', hrun, hsame⟩ := h.augment_root task
      obtain rfl := Option.some.inj (hrun.symm.trans hx)
      refine ⟨steps, h.worker_quiet hid hw hsame rfl hcached
        (Or.inr (Or.inl ⟨by rw [hat]; rfl, ?_⟩)) ?_, .augmented rfl (by rw [hw, hat]) hrun rfl rfl rfl⟩
      · split <;> rfl
      · split <;> exact hknows
  | store =>
      rw [hat] at hstep hknows
      cases hstep
      exact Inv.next_same (h.worker_quiet hid hw (.refl _) rfl hcached
        (Or.inr (Or.inl ⟨by rw [hat]; rfl, again_inactive⟩)) (knows_again hknows.2)) rfl rfl rfl
  | stopped =>
      rw [hat] at hstep
      cases hstep

/-! ### Runs

The initial state has no tasks, and no steps taken.
-/

/-- **The step lemma.** -/
theorem inv_step {a : Action} (h : Inv c (versionTree c t₀) s steps) (h₀ : VerBound 0 t₀)
    (hstep : step c s a = some s') : Next c (versionTree c t₀) s steps a s' := by
  cases a with
  | master => exact inv_master h h₀ hstep
  | pipe id =>
      simp only [step] at hstep
      split at hstep
      · rename_i hid
        exact inv_pipe h hid hstep
      · cases hstep
  | unblock id =>
      simp only [step] at hstep
      split at hstep
      · rename_i hat
        cases hstep
        have hwake := h.wake id
        rw [Pipe.woken, if_pos hat] at hwake
        exact hwake.next_same rfl rfl rfl
      · cases hstep
  | boarder => exact inv_boarder h hstep
  | worker id =>
      simp only [step] at hstep
      split at hstep
      · rename_i hid
        exact inv_worker h hid hstep
      · cases hstep
  | collector => exact inv_collector h hstep

/-- **The invariant holds in every reachable state.** -/
theorem inv_reachable (hshow : Shows layout c.heap₀ c.t₀ t₀) (h₀ : VerBound 0 t₀)
    (hs : (system c).Reachable s) : ∃ steps, Inv c (versionTree c t₀) s steps :=
  hs.invariant (I := fun s => ∃ steps, Inv c (versionTree c t₀) s steps)
    (fun _ _ _ ⟨_, h⟩ _ hstep =>
      let ⟨steps', h', _⟩ := inv_step h h₀ hstep
      ⟨steps', h'⟩) ⟨_, inv_init hshow h₀⟩

end Scheduler
