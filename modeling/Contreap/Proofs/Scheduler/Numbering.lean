/-
Which block a snapshot waits for.

Blocks are counted from both sides.  `worker_thread_` adds the length of a round to the
start of its block each time it has stored one, and `get_snapshot` divides the version
by the size of a block.  But the first version is 1, and the blocks of `get_snapshot`
start at 0, so the last version of a block is taken for the first one of the next.
-/
import Contreap.Proofs.Scheduler.Snapshot

namespace Scheduler

open Transition

variable {c : Config} {s : State} {id n v : Nat}

/-- The variables of `worker_thread_` one block later. -/
def Worker.nextBlock (c : Config) (w : Worker) : Worker :=
  { w with
    blockCount := w.blockCount + 1
    blockStart := w.blockStart + c.numWorkers * c.blockSize
    blockEnd := Scheduler.blockEnd c (w.blockStart + c.numWorkers * c.blockSize) }

/-- The variables of `worker_thread_` after some rounds. -/
def rounds (c : Config) (id n : Nat) : Worker := (Worker.nextBlock c)^[n] (startWorker c id)

/-- A version is in the block of a worker. -/
def Worker.holds (w : Worker) (v : Nat) : Prop := w.blockStart ≤ v ∧ v ≤ w.blockEnd

theorem rounds_succ (c : Config) (id n : Nat) :
    rounds c id (n + 1) = (rounds c id n).nextBlock c := Function.iterate_succ_apply' ..

theorem rounds_eq (c : Config) (id n : Nat) : (rounds c id n).blockStart = blockStart c id n ∧
    (rounds c id n).blockEnd = due c id n := by
  induction n with
  | zero =>
      unfold due blockStart
      rw [Nat.zero_mul, Nat.add_zero]
      exact ⟨rfl, rfl⟩
  | succ n ih =>
      rw [rounds_succ]
      unfold due
      rw [blockStart_succ, ← ih.1]
      exact ⟨rfl, rfl⟩

/-- What connects `nextBlock` to the threads: a worker goes on to its next block in the step
in which it stores the count. -/
theorem workerStep_store (hat : (s.workers id).at_ = .store) :
    workerStep c s id = some { s.setWorker id
        { (s.workers id).nextBlock c with at_ := again c (s.workers id).taskId } with
      numEstimated := Function.update s.numEstimated (id - 1) ((s.workers id).blockCount + 1) } := by
  unfold workerStep
  simp only [hat, Worker.nextBlock]

/-- What connects `rounds` to the threads: at every point of a run, a worker is at the block
of the round that its count says. -/
theorem Passing.holds_iff (h : Passing c s id) :
    (s.workers id).holds v ↔ (rounds c id (s.workers id).blockCount).holds v := by
  obtain ⟨hstart, hstop⟩ := rounds_eq c id (s.workers id).blockCount
  unfold Worker.holds
  rw [h.start, h.stop, hstart, hstop]

end Scheduler
