/-
The scheduler cannot go on for ever.

That some thread can go on while updates remain does not yet say that the updates come to
an end.  They do: the threads cannot take steps for ever, other than testing a wait
condition again.

The rank of a state adds up what every thread has left to do.  For a pipe, the boarder,
the collector and the master that is read off their counters.  A worker takes steps on
its task until the task is done, and how many there are is a matter of the tree: every
step takes the task one link further down in the tree of its version, which is as high as
the operations before have made it.  So the rank also depends on how deep the tasks are,
which no state records: `Deep` says that a walk of so many links leads from the root of a
version to the node its task is at.
-/
import Mathlib.Algebra.Order.BigOperators.Group.Finset
import Contreap.Lib.Ranking
import Contreap.Proofs.Scheduler.Blocks
import Contreap.Proofs.Scheduler.Progress

namespace Scheduler

open BinaryTree PtrHeap Treap

variable {c : Config} {T : Nat → BinaryTree Datum} {t₀ : BinaryTree Datum} {s s' : State}
  {h h' : Store} {ctxs : Nat → Context} {steps : Nat → Nat} {n m u k id i : Nat} {p : Ptr}
  {t : BinaryTree Datum} {a b : Addr} {x y : Node} {ctx ctx' : Context} {w : Worker}

/-! ### How deep a task is

The depth is a number of links from the root, and the height of what the root stands for
bounds it.  A step takes the task one link down, and links that are there do not change.
-/

/-- Below a node that is linked stands what is lower. -/
theorem Plan.lower (hp : Plan h ctxs steps n (some a) t) (hx : h.get? a = some x)
    (hb : x.lch = some b ∨ x.rch = some b) :
    ∃ m t', Plan h ctxs steps m (some b) t' ∧ t'.height + 1 ≤ t.height := by
  have hlinked : x.lch ≠ none ∨ x.rch ≠ none := hb.imp (by simp [·]) (by simp [·])
  have hopen : ∀ {u : Nat} {y : Node}, ¬ OpenAt h ctxs u a y := by
    intro u y hu
    obtain rfl := Option.some.inj (hx.symm.trans hu.cell)
    exact hlinked.elim (fun hl => hl hu.lch) fun hr => hr hu.rch
  cases hp with
  | settled hs =>
      obtain ⟨d, l, r, rfl⟩ : ∃ d l r, t = node d l r := by
        obtain ⟨_, l, r, -, -, rfl, -⟩ := hs.shows.of_some
        exact ⟨_, l, r, rfl⟩
      obtain ⟨-, hl, hr⟩ := hs.left hx
      simp only [height]
      rcases hb with hb | hb
      · exact ⟨0, l, .settled (hb ▸ hl), by omega⟩
      · exact ⟨0, r, .settled (hb ▸ hr), by omega⟩
  | linked hy _ hl hr =>
      obtain rfl := Option.some.inj (hx.symm.trans hy)
      simp only [height]
      rcases hb with hb | hb
      · exact ⟨_, _, hb ▸ hl, by omega⟩
      · exact ⟨_, _, hb ▸ hr, by omega⟩
  | search hu => exact absurd hu hopen
  | setref hu => exact absurd hu hopen
  | concat hu => exact absurd hu hopen

/-- A walk ends inside the tree the pointer stands for. -/
theorem Plan.walk (hp : Plan h ctxs steps n p t) (hw : Walk layout h p k a) :
    ∃ m t', Plan h ctxs steps m (some a) t' ∧ t'.height + k ≤ t.height := by
  induction hw with
  | here hp' => exact ⟨n, t, hp' ▸ hp, by omega⟩
  | down _ hx hb ih =>
      obtain ⟨m, t₁, ht₁, hle⟩ := ih
      obtain ⟨m', t₂, ht₂, hlt⟩ := ht₁.lower hx hb
      exact ⟨m', t₂, ht₂, by omega⟩

/-- Every task that is not done is at a node so many links below the root of its version. -/
structure Deep (s : State) (depth : Nat → Nat) : Prop where
  walk : ∀ u ≤ s.numIssued, ¬ Finished s.ctxs u →
    ∃ a, (s.ctxs u).tCur = some a ∧ Walk layout s.heap (s.ctxs u).root (depth u) a
  unissued : ∀ u, s.numIssued < u → depth u = 0

/-- What a cell is that has just been written. -/
theorem eq_of_get?_modify {f : Node → Node} (hx : (h.modify a f).get? a = some x) :
    ∃ y, x = f y := by
  have hlt := Heap.lt_size_of_get? hx
  rw [Heap.size_modify] at hlt
  obtain ⟨y, hy⟩ := Heap.get?_of_lt hlt
  rw [Heap.get?_modify_self hy] at hx
  exact ⟨y, (Option.some.inj hx).symm⟩

/-- A step that goes on leads to a child of the node the task was at. -/
theorem executeOneStep_child {r : Store × Context} (hone : executeOneStep h m ctx = some r)
    (hst : r.2.st ≠ .done) (hcur : ctx.tCur = some a) (hx : r.1.get? a = some x) :
    x.lch = r.2.tCur ∨ x.rch = r.2.tCur := by
  have hleft : ∀ {s₁ : Store} {q : Ptr}, (setLch s₁ a q).get? a = some x → x.lch = q := by
    intro s₁ q hx
    obtain ⟨y, rfl⟩ := eq_of_get?_modify hx
    rfl
  have hright : ∀ {s₁ : Store} {q : Ptr}, (setRch s₁ a q).get? a = some x → x.rch = q := by
    intro s₁ q hx
    obtain ⟨y, rfl⟩ := eq_of_get?_modify hx
    rfl
  unfold executeOneStep at hone
  simp only [hcur, Option.bind_eq_bind, Option.bind_some] at hone
  split at hone
  · obtain ⟨b, -, hone⟩ := Option.bind_eq_some_iff.mp hone
    obtain ⟨y, -, hone⟩ := Option.bind_eq_some_iff.mp hone
    split at hone
    · obtain ⟨⟨s₁, ctx₁, q⟩, -, heq⟩ := Option.bind_eq_some_iff.mp hone
      obtain rfl := Option.some.inj heq
      exact Or.inl (hleft hx)
    · obtain ⟨⟨s₁, ctx₁, q⟩, -, heq⟩ := Option.bind_eq_some_iff.mp hone
      obtain rfl := Option.some.inj heq
      exact Or.inr (hright hx)
  · obtain ⟨b, -, hone⟩ := Option.bind_eq_some_iff.mp hone
    obtain ⟨y, -, heq⟩ := Option.bind_eq_some_iff.mp hone
    obtain rfl := Option.some.inj heq
    exact absurd rfl hst
  · split at hone
    · obtain ⟨b, -, hone⟩ := Option.bind_eq_some_iff.mp hone
      obtain ⟨y, -, hone⟩ := Option.bind_eq_some_iff.mp hone
      obtain ⟨⟨s₁, ctx₁, q⟩, -, heq⟩ := Option.bind_eq_some_iff.mp hone
      obtain rfl := Option.some.inj heq
      exact Or.inl (hleft hx)
    · obtain ⟨b, -, hone⟩ := Option.bind_eq_some_iff.mp hone
      obtain ⟨y, -, hone⟩ := Option.bind_eq_some_iff.mp hone
      obtain ⟨⟨s₁, ctx₁, q⟩, -, heq⟩ := Option.bind_eq_some_iff.mp hone
      obtain rfl := Option.some.inj heq
      exact Or.inr (hright hx)

/-! ### The depth through a step

A walk is a fact about links, and a link that is there is never written again.  So every
walk there was is one afterwards, and the walk to the task that moves goes on over the
link it has just written.
-/

/-- Links are written only where there were none. -/
def KeepsLinks (h h' : Store) : Prop :=
  ∀ b x, h.get? b = some x → (x.lch ≠ none ∨ x.rch ≠ none) →
    ∃ y, h'.get? b = some y ∧ y.lch = x.lch ∧ y.rch = x.rch

theorem Effect.keepsLinks {x : Store × Context} {y : Node} (hu : OpenAt h ctxs u a y)
    (heff : Effect h ctxs steps u m x.1 x.2) : KeepsLinks h x.1 := by
  intro b z hz hlinked
  refine ⟨z, heff.moves.cells b z (fun hcur => ?_) hz, rfl, rfl⟩
  obtain rfl : a = b := Option.some.inj (hu.cur.symm.trans hcur)
  obtain rfl := Option.some.inj (hu.cell.symm.trans hz)
  exact hlinked.elim (fun hl => hl hu.lch) fun hr => hr hu.rch

/-- Where contexts stay and links do, tasks are as deep as they were. -/
theorem Deep.keep {depth : Nat → Nat} (hd : Deep s depth) (hlinks : KeepsLinks s.heap s'.heap)
    (hissued : s'.numIssued = s.numIssued)
    (hctxs : ∀ u, ¬ Finished s'.ctxs u → ¬ Finished s.ctxs u ∧
      (s'.ctxs u).tCur = (s.ctxs u).tCur ∧ (s'.ctxs u).root = (s.ctxs u).root) :
    Deep s' depth := by
  refine ⟨fun u hu hrun => ?_, fun u hu => hd.unissued u (hissued ▸ hu)⟩
  obtain ⟨hrun', hcur, hroot⟩ := hctxs u hrun
  obtain ⟨a, ha, hw⟩ := hd.walk u (hissued ▸ hu) hrun'
  exact ⟨a, hcur.trans ha, hroot ▸ hw.congr hlinks⟩

/-- The task that takes a step goes one link down, unless it is done then. -/
theorem Deep.moved {depth : Nat → Nat} (hd : Deep s depth) (h : Inv c T s steps)
    (hu : u ≤ s.numIssued) (hrun : ¬ Finished s.ctxs u) {x : Store × Context}
    (heff : Effect s.heap s.ctxs steps u s.numCommitted x.1 x.2)
    (hdown : x.2.st ≠ .done → executeOneStep s.heap s.numCommitted (s.ctxs u) = some x)
    (hheap : s'.heap = x.1) (hctxs : s'.ctxs = Function.update s.ctxs u x.2)
    (hissued : s'.numIssued = s.numIssued) :
    Deep s' (Function.update depth u (depth u + 1)) := by
  obtain ⟨a, y, hopen⟩ := (h.trees.placed u hu hrun).open
  have hlinks := heff.keepsLinks hopen
  refine ⟨fun v hv hvrun => ?_, fun v hv => ?_⟩
  case refine_2 =>
    rw [hissued] at hv
    rw [Function.update_of_ne (by omega)]
    exact hd.unissued v hv
  rw [hheap, hctxs]
  rw [hctxs] at hvrun
  by_cases hvu : v = u
  · subst hvu
    rw [Finished, Function.update_self] at hvrun
    obtain ⟨b, hb, hw⟩ := hd.walk v hu hrun
    obtain rfl : a = b := Option.some.inj (hopen.cur.symm.trans hb)
    have hone := hdown hvrun
    obtain ⟨a', y', hopen'⟩ := Placed.open (heff.placed hvrun)
    have hcur' := hopen'.cur
    rw [Function.update_self] at hcur' ⊢
    rw [Function.update_self]
    obtain ⟨_, _, t, hopen₁, hplan⟩ := h.trees.placed v hu hrun
    obtain rfl : a = _ := Option.some.inj (hopen.cur.symm.trans hopen₁.cur)
    obtain ⟨x', -, -, hx', -⟩ := (heff.plans hplan).of_some
    refine ⟨a', hcur', ?_⟩
    rw [heff.root]
    refine .down (hw.congr hlinks) hx' ?_
    rw [← hcur']
    exact executeOneStep_child hone hvrun hopen.cur hx'
  · rw [hissued] at hv
    rw [Finished, Function.update_of_ne hvu] at hvrun
    obtain ⟨b, hb, hw⟩ := hd.walk v hv hvrun
    rw [Function.update_of_ne hvu, Function.update_of_ne hvu]
    exact ⟨b, hb, hw.congr hlinks⟩

/-! ### What every thread has left to do

For a worker, the turns of its loop come first and the place within the turn second.  A
turn is bounded by the longest there can be, so that a worker that fetches the next task
may forget what was left of the one before.
-/

/-- The steps of the call it is in. -/
def Master.left : Master → Nat
  | .idle => 0
  | .push => 2
  | .notify => 1

/-- To fall asleep or to be woken is no progress. -/
def PipeAt.left : PipeAt → Nat
  | .claim => 4
  | .wait | .asleep => 3
  | .exec => 2
  | .push => 1
  | .notify => 0

/-- Five steps for every task, at the most, and what is left of the present one. -/
def Pipe.left (c : Config) (p : Pipe) : Nat := 5 * (c.numTasks + 1 - p.pos) + p.at_.left

/-- Each turn takes one task at least, and publishes it. -/
def Boarder.left (c : Config) (b : Boarder) : Nat :=
  2 * (c.numTasks - b.localSubmitted) + if b.storing then 1 else 0

/-- Every task is counted once, and published at the latest after that. -/
def Collector.left (c : Config) (k : Collector) : Nat :=
  (c.numTasks - k.nextCommittable) + (c.numTasks - k.localCommitted)

/-- What is left of one turn of `worker_thread_`'s loop, when the task has no more than
`togo` steps to take and none ever has more than `most`. -/
def WorkerAt.left (c : Config) (most togo blockStart : Nat) : WorkerAt → Nat
  | .fetch | .stopped => 0
  | .store => 1
  | .estimate task => task + 2 - blockStart
  | .settle => c.blockSize + 2
  | .oneStep _ => c.blockSize + 1 + 3 * togo
  | .decide _ => c.blockSize + 2 + 3 * togo
  | .head _ => c.blockSize + 3 + 3 * togo
  | .waitSubmit => c.blockSize + 4 + 3 * most

/-- A bound on what is left of one turn. -/
def turn (c : Config) (most : Nat) : Nat := c.blockSize + 5 + 3 * most

/-- A turn for every task from its own on, and what is left of the present one. -/
def Worker.left (c : Config) (most togo : Nat) (w : Worker) : Nat :=
  (c.numTasks + 1 - w.taskId) * turn c most + w.at_.left c most togo w.blockStart

/-- A bound on the steps a task has still to take. -/
def togo (s : State) (most : Nat) (depth : Nat → Nat) (u : Nat) : Nat :=
  if (s.ctxs u).st = .done then 0 else most - depth u

/-- The operations that have not been issued, and the call it is in. -/
def masterLeft (c : Config) (s : State) : Nat := 3 * (c.numTasks - s.numIssued) + s.master.left

/-- What a worker has left to do, with its task as deep as it is. -/
def workerLeft (c : Config) (most : Nat) (depth : Nat → Nat) (s : State) (id : Nat) : Nat :=
  (s.workers id).left c most (togo s most depth (s.workers id).taskId)

/-- What all threads have left to do. -/
def rank (c : Config) (most : Nat) (depth : Nat → Nat) (s : State) : Nat :=
  masterLeft c s + ∑ i ∈ Finset.range c.numPipes, (s.pipes (i + 1)).left c + s.boarder.left c
    + s.collector.left c + ∑ i ∈ Finset.range c.numWorkers, workerLeft c most depth s (i + 1)

/-! ### Two states compared

In a step most threads keep what they had left to do.  `NoMore` compares the threads one
by one, so that the sums need not be taken apart where a step is looked at: one thread
that has less to do than before is enough.
-/

/-- Nobody has more left to do than before. -/
structure NoMore (c : Config) (most : Nat) (depth : Nat → Nat) (s : State) (depth' : Nat → Nat)
    (s' : State) : Prop where
  master : masterLeft c s' ≤ masterLeft c s
  pipes : ∀ i < c.numPipes, (s'.pipes (i + 1)).left c ≤ (s.pipes (i + 1)).left c
  boarder : s'.boarder.left c ≤ s.boarder.left c
  collector : s'.collector.left c ≤ s.collector.left c
  workers : ∀ i < c.numWorkers, workerLeft c most depth' s' (i + 1) ≤ workerLeft c most depth s (i + 1)

namespace NoMore

variable {most : Nat} {depth depth' : Nat → Nat} (hle : NoMore c most depth s depth' s')
include hle

theorem sums : ∑ i ∈ Finset.range c.numPipes, (s'.pipes (i + 1)).left c
      ≤ ∑ i ∈ Finset.range c.numPipes, (s.pipes (i + 1)).left c ∧
    ∑ i ∈ Finset.range c.numWorkers, workerLeft c most depth' s' (i + 1)
      ≤ ∑ i ∈ Finset.range c.numWorkers, workerLeft c most depth s (i + 1) :=
  ⟨Finset.sum_le_sum fun i hi => hle.pipes i (Finset.mem_range.mp hi),
    Finset.sum_le_sum fun i hi => hle.workers i (Finset.mem_range.mp hi)⟩

theorem rank_le : rank c most depth' s' ≤ rank c most depth s := by
  obtain ⟨hp, hw⟩ := hle.sums
  have := hle.master
  have := hle.boarder
  have := hle.collector
  unfold rank
  omega

theorem rank_lt_of_worker (hi : i < c.numWorkers)
    (hlt : workerLeft c most depth' s' (i + 1) < workerLeft c most depth s (i + 1)) :
    rank c most depth' s' < rank c most depth s := by
  obtain ⟨hp, -⟩ := hle.sums
  have hw := Finset.sum_lt_sum (fun j hj => hle.workers j (Finset.mem_range.mp hj))
    ⟨i, Finset.mem_range.mpr hi, hlt⟩
  have := hle.master
  have := hle.boarder
  have := hle.collector
  unfold rank
  omega

end NoMore

theorem workerAt_left_mono {most r r' start : Nat} (hr : r' ≤ r) (at_ : WorkerAt) :
    at_.left c most r' start ≤ at_.left c most r start := by
  cases at_ <;> simp only [WorkerAt.left] <;> omega

section
variable {most : Nat} {depth depth' : Nat → Nat}

theorem workerLeft_le (hw : s'.workers id = s.workers id)
    (htogo : togo s' most depth' (s.workers id).taskId ≤ togo s most depth (s.workers id).taskId) :
    workerLeft c most depth' s' id ≤ workerLeft c most depth s id := by
  unfold workerLeft Worker.left
  rw [hw]
  exact Nat.add_le_add_left (workerAt_left_mono htogo _) _

theorem Deep.same {depth : Nat → Nat} (hd : Deep s depth) (hheap : s'.heap = s.heap)
    (hctxs : s'.ctxs = s.ctxs) (hissued : s'.numIssued = s.numIssued) : Deep s' depth := by
  refine hd.keep (fun b x hx _ => ⟨x, hheap ▸ hx, rfl, rfl⟩) hissued fun u hrun => ?_
  rw [hctxs] at hrun ⊢
  exact ⟨hrun, rfl, rfl⟩

/-- What a step has to do with the rank: the tasks are somewhere again, nobody has more to
do, and if the step counts somebody has less. -/
def Lowers (c : Config) (most : Nat) (s : State) (depth : Nat → Nat) (s' : State) (counts : Prop) :
    Prop :=
  ∃ depth', Deep s' depth' ∧ rank c most depth' s' ≤ rank c most depth s ∧
    (counts → rank c most depth' s' < rank c most depth s)

/-! ### The boarder and the collector

Both count up to the number of tasks, and publish what they have counted.
-/

/-- A task that is issued is at its root, unless it is done at once. -/
theorem initContext_issue {op : Op} (hinit : initContext c s op = some s') :
    ∃ x : Store × Context, s' = initContext.issue s x ∧
      (x.2.st ≠ .done → x.2.tCur = x.2.root) := by
  have hstart : ∀ ctx, initContext.start s ctx = some s' →
      ∃ x : Store × Context, s' = initContext.issue s x ∧ (x.2.st ≠ .done → x.2.tCur = x.2.root) := by
    intro ctx hrun
    unfold initContext.start at hrun
    obtain ⟨x, -, heq⟩ := Option.bind_eq_some_iff.mp hrun
    exact ⟨_, (Option.some.inj heq).symm, fun _ => rfl⟩
  cases op with
  | insertElem elem => exact hstart _ hinit
  | deleteElem elem => exact hstart _ hinit
  | nop => exact ⟨_, (Option.some.inj hinit).symm, fun hst => absurd rfl hst⟩

/-- A new task is at its root, no links down. -/
theorem Deep.issue (hd : Deep s depth) {x : Store × Context}
    (hlinks : KeepsLinks s.heap x.1) (hroot : x.2.st ≠ .done → x.2.tCur = x.2.root)
    (hplaced : x.2.st ≠ .done → x.2.tCur ≠ none) :
    Deep (initContext.issue s x) depth := by
  have hctxs : (initContext.issue s x).ctxs = Function.update s.ctxs (s.numIssued + 1) x.2 := rfl
  have hissued : (initContext.issue s x).numIssued = s.numIssued + 1 := rfl
  refine ⟨fun u hu hrun => ?_, fun u hu => hd.unissued u (by omega)⟩
  rw [hctxs] at hrun ⊢
  by_cases hnew : u = s.numIssued + 1
  · subst hnew
    rw [Finished, Function.update_self] at hrun
    rw [Function.update_self, hd.unissued _ (Nat.lt_succ_self _)]
    obtain ⟨a, ha⟩ := Option.ne_none_iff_exists'.mp (hplaced hrun)
    exact ⟨a, ha, .here ((hroot hrun).symm.trans ha)⟩
  · rw [Finished, Function.update_of_ne hnew] at hrun
    rw [Function.update_of_ne hnew]
    obtain ⟨a, ha, hw⟩ := hd.walk u (by omega) hrun
    exact ⟨a, ha, hw.congr hlinks⟩

/-- Of the threads only this pipe moves; it may wake another one. -/
structure OnlyPipe (c : Config) (s : State) (i : Nat) (s' : State) : Prop where
  others : ∀ j, j ≠ i → (s'.pipes (j + 1)).left c = (s.pipes (j + 1)).left c
  master : s'.master = s.master
  issued : s'.numIssued = s.numIssued
  boarder : s'.boarder = s.boarder
  collector : s'.collector = s.collector
  workers : s'.workers = s.workers

theorem OnlyPipe.congr {s₁ : State} (ho : OnlyPipe c s i s') (hpipes : s₁.pipes = s'.pipes)
    (hmaster : s₁.master = s'.master) (hissued : s₁.numIssued = s'.numIssued)
    (hboarder : s₁.boarder = s'.boarder) (hcollector : s₁.collector = s'.collector)
    (hworkers : s₁.workers = s'.workers) : OnlyPipe c s i s₁ :=
  ⟨hpipes ▸ ho.others, hmaster.trans ho.master, hissued.trans ho.issued,
    hboarder.trans ho.boarder, hcollector.trans ho.collector, hworkers.trans ho.workers⟩

/-- The rule for a worker: the others have as much to do as before, it has less. -/
theorem worker_turn (hi : i < c.numWorkers) (hw : s'.workers = Function.update s.workers (i + 1) w)
    (hsame : s'.pipes = s.pipes ∧ s'.master = s.master ∧ s'.numIssued = s.numIssued ∧
      s'.boarder = s.boarder ∧ s'.collector = s.collector)
    (hd' : Deep s' depth') (htogo : ∀ u, togo s' most depth' u ≤ togo s most depth u)
    (hlt : w.left c most (togo s' most depth' w.taskId) < workerLeft c most depth s (i + 1)) :
    Lowers c most s depth s' True := by
  obtain ⟨hpipes, hmaster, hissued, hboarder, hcollector⟩ := hsame
  have hself : s'.workers (i + 1) = w := by rw [hw, Function.update_self]
  have hlt' : workerLeft c most depth' s' (i + 1) < workerLeft c most depth s (i + 1) := by
    rw [workerLeft, hself]
    exact hlt
  have hno : NoMore c most depth s depth' s' := by
    refine ⟨?_, fun j _ => by rw [hpipes], by rw [hboarder], by rw [hcollector], fun j _ => ?_⟩
    · rw [masterLeft, hmaster, hissued]
      exact le_rfl
    · by_cases hj : j = i
      · rw [hj]
        exact hlt'.le
      · refine workerLeft_le ?_ (htogo _)
        rw [hw, Function.update_of_ne (by omega)]
  exact ⟨depth', hd', hno.rank_le, fun _ => hno.rank_lt_of_worker hi hlt'⟩

end

end Scheduler
