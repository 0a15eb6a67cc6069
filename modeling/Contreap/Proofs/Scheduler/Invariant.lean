/-
The invariant of the scheduler.

`Inv` puts together the trees, the flow of tasks through the pipes and what the
workers hold.  The steps a task has taken are the link between them: a task that reads
a node of an earlier one must be behind it, and how far the two are is known from
where the threads are.  In the pipes it follows from their order, since a pipe has
executed every earlier task before, and at a worker it is what the stages are compared
for.

The number of steps is no part of a state.  The invariant speaks of some assignment of
steps to tasks, and each thread's step gives the next one.
-/
import Contreap.Proofs.Scheduler.Reference
import Contreap.Proofs.Scheduler.Trees
import Contreap.Proofs.Scheduler.Crew

namespace Scheduler

open BinaryTree PtrHeap Treap

variable {c : Config} {T : Nat → BinaryTree Datum} {t₀ : BinaryTree Datum} {s s' : State}
  {steps steps' : Nat → Nat} {u id i : Nat}

/-! ### The invariant

The number of steps a task has taken is in none of the variables.  It is chosen afresh
in every state, and each part of the invariant says what it is by the places of some
threads.
-/

/-- A task that is not done has taken one step in each pipe that has executed it. -/
def Piped (c : Config) (s : State) (steps : Nat → Nat) : Prop :=
  ∀ u ≤ s.numIssued, ¬ Finished s.ctxs u → ∀ i < c.numPipes,
    (u ≤ (s.pipes (i + 1)).moved ↔ i < steps u)

/-- The tasks that the collector has counted are done, and those it has published are
among them. -/
structure Collected (s : State) : Prop where
  committed : s.collector.localCommitted = s.numCommitted
  le : s.numCommitted ≤ s.collector.nextCommittable
  done : ∀ w ≤ s.collector.nextCommittable, Finished s.ctxs w

/-- **The invariant.**  `T` gives the tree of each version and `steps` the number of steps
each task has taken.  That the two fit the state is said by `trees` for the heap and the
contexts; the other fields tie the steps to the places of the threads. -/
structure Inv (c : Config) (T : Nat → BinaryTree Datum) (s : State) (steps : Nat → Nat) :
    Prop where
  trees : Trees T s.heap s.ctxs steps s.numIssued s.numCommitted
  flow : Flow c s
  crew : Crew c s steps
  piped : Piped c s steps
  collected : Collected s

/-- The only task that is issued is that of version `0`, and it is done. -/
theorem inv_init (hshow : Shows layout c.heap₀ c.t₀ t₀) (hver : VerBound 0 t₀) :
    Inv c (versionTree c t₀) (init c) fun _ => 0 := by
  have hctx : ∀ u, u ≠ 0 → (init c).ctxs u = {} := fun u hu => if_neg hu
  have hzero : Finished (init c).ctxs 0 := rfl
  have hpushed : ∀ i, (init c).pushed i = 0 := fun i => by cases i <;> rfl
  refine ⟨⟨fun w hw => ?_, fun w hw hrun => ?_, fun w hw hrun => ?_, fun w hw => ?_, fun w hw => ?_,
    fun w => ?_⟩, ⟨fun i hi => ?_, by rw [hpushed]; rfl, Nat.zero_le _, Nat.le_refl _,
      fun _ => rfl, by simp [init], Nat.zero_le _⟩,
    ⟨fun id => ⟨Nat.zero_le _, hzero⟩, fun id => Nat.le_refl _, fun id => Nat.le_refl _,
      fun _ _ _ hpos => ?_, fun u h1 hu => ?_, fun u hu hrun => ?_⟩, fun u hu hrun => ?_,
    ⟨rfl, Nat.le_refl _, fun w hw => ?_⟩⟩
  · obtain rfl := Nat.le_zero.mp hw
    exact .settled ⟨hshow, fun e he => by rw [Nat.le_zero.mp (hver.ver_le e he)]; exact hzero⟩
  · exact absurd (Nat.le_zero.mp hw ▸ hzero) hrun
  · exact absurd (Nat.le_zero.mp hw ▸ hzero) hrun
  · exact ⟨hctx w (Nat.ne_of_gt hw), rfl⟩
  · exact Nat.le_zero.mp hw ▸ hzero
  · by_cases hw : w = 0
    · subst hw
      exact ⟨fun _ => rfl, fun _ => rfl⟩
    · rw [Finished, hctx w hw]
      simp
  · rw [hpushed]
    exact ⟨Nat.le_refl _, Nat.le_refl _, by simp [init], rfl, by simp [init]⟩
  · exact absurd hpos (by simp [init, startWorker])
  · exact absurd (Nat.le_zero.mp hu) (by omega)
  · exact absurd (Nat.le_zero.mp hu ▸ hzero) hrun
  · exact absurd (Nat.le_zero.mp hu ▸ hzero) hrun
  · exact Nat.le_zero.mp hw ▸ hzero

/-- A step that touches only the pipeline and its counters. -/
theorem Inv.frame (h : Inv c T s steps) (hheap : s'.heap = s.heap) (hctxs : s'.ctxs = s.ctxs)
    (hissued : s'.numIssued = s.numIssued) (hcommitted : s'.numCommitted = s.numCommitted)
    (hworkers : s'.workers = s.workers) (hfetched : s'.numFetched = s.numFetched)
    (hcollector : s'.collector = s.collector) (hsub : s.numSubmitted ≤ s'.numSubmitted)
    (hmoved : ∀ u, ¬ Finished s.ctxs u → ∀ i < c.numPipes,
      (u ≤ (s'.pipes (i + 1)).moved ↔ u ≤ (s.pipes (i + 1)).moved))
    (hflow : Flow c s') : Inv c T s' steps := by
  refine ⟨?_, hflow, h.crew.congr hworkers hfetched hsub (fun u hf => ?_) (fun id _ => ?_) ?_,
    fun u hu hrun i hi => ?_, ?_, ?_, ?_⟩
  · rw [hheap, hctxs, hissued, hcommitted]
    exact h.trees
  · rwa [hctxs]
  · exact ⟨by rw [hctxs], rfl⟩
  · rw [hissued, hctxs]
    exact h.crew.unheld
  · rw [hissued] at hu
    rw [hctxs] at hrun
    rw [hmoved u hrun i hi]
    exact h.piped u hu hrun i hi
  · rw [hcollector, hcommitted]
    exact h.collected.committed
  · rw [hcollector, hcommitted]
    exact h.collected.le
  · rw [hcollector, hctxs]
    exact h.collected.done

/-! ### Notifications

A notification changes one pipe at the most, from asleep to waiting, and nothing that
the invariant counts.
-/

/-- The state of a pipe that is notified. -/
def Pipe.woken (p : Pipe) : Pipe := if p.at_ = .asleep then { p with at_ := .wait } else p

theorem notify_eq (s : State) (i : Nat) :
    s.notify i = s.setPipe (i + 1) (s.pipes (i + 1)).woken := by
  unfold State.notify Pipe.woken
  split
  · rfl
  · simp [State.setPipe]

theorem notify_same (s : State) (i : Nat) : (s.notify i).heap = s.heap ∧
    (s.notify i).ctxs = s.ctxs ∧ (s.notify i).numIssued = s.numIssued := by
  rw [notify_eq]
  exact ⟨rfl, rfl, rfl⟩

theorem woken_not_asleep (p : Pipe) : p.woken.at_ ≠ .asleep := by
  unfold Pipe.woken
  by_cases hat : p.at_ = .asleep
  · simp [hat]
  · rwa [if_neg hat]

theorem Pipe.woken_same (p : Pipe) : p.woken.moved = p.moved ∧ p.woken.pushed = p.pushed ∧
    (p.woken.at_ = .notify ↔ p.at_ = .notify) ∧ p.woken.pos = p.pos := by
  unfold Pipe.woken
  by_cases hat : p.at_ = .asleep
  · simp [hat, Pipe.moved, Pipe.pushed]
  · simp [hat]

theorem Link.woken {out : Nat} {ringing ringing' : Prop} {token : Int} {p : Pipe}
    (h : Link out ringing token p) : Link out ringing' token p.woken := by
  unfold Pipe.woken
  by_cases hat : p.at_ = .asleep
  · rw [if_pos hat]
    exact h.wake hat
  · rw [if_neg hat]
    exact ⟨h.pos, h.room, h.entered, h.balance, fun hasleep => absurd hasleep hat⟩

/-- A pipe is woken, by a notification or without one. -/
theorem Flow.wake (h : Flow c s) (id : Nat) : Flow c (s.setPipe id (s.pipes id).woken) := by
  by_cases hid : 1 ≤ id ∧ id ≤ c.numPipes
  · obtain ⟨i, rfl⟩ : ∃ i, id = i + 1 := ⟨id - 1, by omega⟩
    obtain ⟨-, hpushed, hring, -⟩ := (s.pipes (i + 1)).woken_same
    refine h.pipe hid.2 rfl (fun _ _ _ => rfl) (fun hlink => hlink.woken) (fun hlink => ?_) ?_ ?_
      rfl rfl rfl rfl
    · rw [hpushed, hring]
      exact hlink
    · rw [hpushed]
      rfl
    · rw [hpushed]
      exact Nat.le_refl _
  · -- There is no such pipe.
    exact h.congr (fun i hi => setPipe_of_ne s _ (by omega)) rfl rfl rfl rfl rfl

theorem Inv.wake (h : Inv c T s steps) (id : Nat) :
    Inv c T (s.setPipe id (s.pipes id).woken) steps := by
  refine h.frame rfl rfl rfl rfl rfl rfl rfl (Nat.le_refl _) (fun u _ l _ => ?_) (h.flow.wake id)
  by_cases hl : l + 1 = id
  · rw [hl, setPipe_self, (s.pipes id).woken_same.1]
  · rw [setPipe_of_ne s _ hl]

theorem Inv.notify (h : Inv c T s steps) (i : Nat) : Inv c T (s.notify i) steps := by
  rw [notify_eq]
  exact h.wake (i + 1)

end Scheduler
