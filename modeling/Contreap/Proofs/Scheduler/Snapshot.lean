/-
When a snapshot is complete.

A worker augments a version as soon as the task it has at hand is past the version's
block.  It does not look at whether the tasks of the block are done, and what it stores
at a node whose children are not linked yet is too little and stays.  And `get_snapshot`
waits for the block `ver / block_size`, which for the last version of a block is the
next one.

Where neither happens, a snapshot is what it should be.  `AuditedIn` is the invariant:
an aggregate that has been computed is at the root of a tree of finished versions that
is summed throughout.  No later step of a task touches such a tree, and augmenting a
tree all of whose versions are finished adds only such trees.
-/
import Contreap.Proofs.Scheduler.Blocks
import Contreap.Proofs.Scheduler.Refinement

namespace Scheduler

open BinaryTree Cartesian PtrHeap Treap Transition

variable {c : Config} {T : Nat → BinaryTree Datum} {t₀ : BinaryTree Datum} {s s' : State}
  {steps steps' : Nat → Nat} {a : Action} {id v u n : Nat} {F F' : Nat → Prop} {h h' : Store}
  {ctxs ctxs' : Nat → Context} {p : Ptr} {t t' : BinaryTree Datum}

/-! ### Summed trees of finished versions -/

/-- A summed tree all of whose nodes belong to the versions `F`. -/
def SummedAt (F : Nat → Prop) (h : Store) (p : Ptr) : Prop :=
  ∃ u, Shows audited h p u ∧ Summed u ∧ ∀ e ∈ u.inorder, F e.1.ver

/-- A node whose aggregate has been computed is the root of such a tree. -/
def AuditedIn (F : Nat → Prop) (h : Store) : Prop :=
  ∀ a n, h.get? a = some n → n.aug ≠ augUninitialized → SummedAt F h (some a)

theorem AuditedIn.toAudited (ha : AuditedIn F h) : Audited h := fun a n hn hne =>
  let ⟨u, hu, hsum, _⟩ := ha a n hn hne
  ⟨u, hu, hsum⟩

/-- A tree of `F` is a tree of any `F'` that holds of its versions, where its cells are the same. -/
theorem SummedAt.keep (hp : SummedAt F h p) (hF : ∀ w, F w → F' w)
    (hsame : ∀ a n, h.get? a = some n → F n.ver → h'.get? a = some n) : SummedAt F' h' p := by
  obtain ⟨u, hu, hsum, hfin⟩ := hp
  refine ⟨u, hu.congr fun a n _ hn hmem => ⟨n, ?_, rfl, rfl, rfl⟩, hsum, fun e he => hF _ (hfin e he)⟩
  exact hsame a n hn (hfin _ hmem)

theorem AuditedIn.keep (ha : AuditedIn F h) (hF : ∀ w, F w → F' w)
    (hsame : ∀ a n, h.get? a = some n → F n.ver → h'.get? a = some n)
    (haug : ∀ a n', h'.get? a = some n' → n'.aug ≠ augUninitialized →
      ∃ n, h.get? a = some n ∧ n.aug = n'.aug) : AuditedIn F' h' := by
  intro a n' hn' hne
  obtain ⟨n, hn, heq⟩ := haug a n' hn' hne
  exact (ha a n hn (by rwa [heq])).keep hF hsame

theorem SummedAt.audits (hp : SummedAt F h p) (hs : Audits h h') : SummedAt F h' p := by
  obtain ⟨u, hu, hsum, hfin⟩ := hp
  exact ⟨u, hs.shows hu hsum, hsum, hfin⟩

/-- Every node of a settled tree is the root of one. -/
theorem Settled.within (hp : Settled h ctxs p t) :
    Rep layout h {a | ∃ t', Settled h ctxs (some a) t'} p t := by
  obtain ⟨hshow, hfin⟩ := hp
  induction hshow with
  | nil => exact .nil
  | @node a x l r ha hx hl hr ihl ihr =>
      obtain ⟨-, hfl, hfr⟩ := forall_mem_inorder_node.mp hfin
      have hself : ∃ t', Settled h ctxs (some a) t' :=
        ⟨_, .node (L := layout) ha hx hl hr, hfin⟩
      exact .node (L := layout) hself hx (ihl hfl) (ihr hfr)

/-- **Augmenting a tree of finished versions** leaves it summed, and every aggregate
there is in order. -/
theorem AuditedIn.augmented (ha : AuditedIn (Finished ctxs) h) (hp : Settled h ctxs p t) {x : UInt64}
    (hrun : augment (recursionBound h) h p = some (h', x)) :
    Audits h h' ∧ AuditedIn (Finished ctxs) h' ∧ SummedAt (Finished ctxs) h' p := by
  have hheight : t.height < recursionBound h := Nat.lt_succ_of_le hp.shows.height_le
  obtain ⟨h₁, hrun₁, hs, haud, u, hu, hmap, hsum⟩ := augment_spec ha.toAudited hp.shows hheight
  obtain ⟨rfl, -⟩ := Prod.mk.inj (Option.some.inj (hrun₁.symm.trans hrun))
  obtain ⟨-, hframe⟩ := augment_frame hp.within hrun
  have hfinished : ∀ {q : Ptr} {t' : BinaryTree Datum} {u : BinaryTree (Datum × UInt64)},
      Settled h ctxs q t' → Shows audited h₁ q u → ∀ e ∈ u.inorder, Finished ctxs e.1.ver := by
    intro q t' u hq hu e he
    have heq : map Prod.fst u = t' :=
      Rep.unique (L := layout) (hu.map Prod.fst) (Rep.onlyAug hq.shows hs.toOnlyAug)
    refine hq.finished e.1 ?_
    rw [← heq, inorder_map]
    exact List.mem_map_of_mem he
  refine ⟨hs, fun a n hn hne => ?_, u, hu, hsum, hfinished hp hu⟩
  by_cases hmem : ∃ t', Settled h ctxs (some a) t'
  · obtain ⟨t', ht'⟩ := hmem
    obtain ⟨u', hu', hsum'⟩ := haud a n hn hne
    exact ⟨u', hu', hsum', hfinished ht' hu'⟩
  · rw [hframe a hmem] at hn
    exact (ha a n hn hne).audits hs

/-- What a settled pointer stands for is the tree it shows. -/
theorem Plan.eq_of_settled (hp : Plan h ctxs steps n p t) :
    ∀ {t'}, Settled h ctxs p t' → t = t' := by
  have hopen : ∀ {u : Nat} {a : Addr} {x : Node} {t' : BinaryTree Datum}, OpenAt h ctxs u a x →
      Settled h ctxs (some a) t' → False := by
    intro u a x t' hu hs
    obtain ⟨y, l, r, -, hy, rfl, -, -⟩ := hs.shows.of_some
    obtain rfl := Option.some.inj (hu.cell.symm.trans hy)
    have hfin := (forall_mem_inorder_node.mp hs.finished).1
    exact hu.running (hu.ver ▸ hfin)
  induction hp with
  | settled hs => exact fun hs' => hs.shows.unique hs'.shows
  | @linked n a x l r hx _ _ _ ihl ihr =>
      intro t' hs
      obtain ⟨y, l', r', -, hy, rfl, -, -⟩ := hs.shows.of_some
      obtain rfl := Option.some.inj (hx.symm.trans hy)
      obtain ⟨-, hl, hr⟩ := hs.left hx
      rw [ihl hl, ihr hr]
      rfl
  | search hu => exact fun hs => (hopen hu hs).elim
  | setref hu => exact fun hs => (hopen hu hs).elim
  | concat hu => exact fun hs => (hopen hu hs).elim

/-! ### One step

The condition under which a snapshot is good is about the steps that augment.  All
others keep what is summed, because in a summed tree of finished versions there is no
node that a task is at.
-/

/-- A version that can be summed: it is issued, and every node its root reaches belongs to
a task that is done. -/
def Complete (s : State) (v : Nat) : Prop :=
  v ≤ s.numIssued ∧ ∃ t, Settled s.heap s.ctxs (s.ctxs v).root t

/-- A step that augments a version finds it complete. -/
def EstimatesComplete (s : State) (a : Action) : Prop :=
  ∀ id task, a = .worker id → (s.workers id).at_ = .estimate task → Complete s task

theorem estimate_step {task : Nat} (hat : (s.workers id).at_ = .estimate task)
    (hstep : workerStep c s id = some s') :
    ∃ x, augment (recursionBound s.heap) s.heap (s.ctxs task).root = some (s'.heap, x) ∧
      s'.ctxs = s.ctxs ∧ s'.numIssued = s.numIssued := by
  simp only [workerStep, hat, Option.bind_eq_bind] at hstep
  obtain ⟨⟨heap, x⟩, hrun, hs'⟩ := Option.bind_eq_some_iff.mp hstep
  cases hs'
  exact ⟨x, hrun, rfl, rfl⟩

/-- **What is summed stays summed**, and what has an aggregate is, when no step augments a
version before it is complete. -/
theorem Change.sums (h : Inv c T s steps) (hchange : Change a s steps s' steps')
    (hgood : EstimatesComplete s a) (haud : AuditedIn (Finished s.ctxs) s.heap) :
    AuditedIn (Finished s'.ctxs) s'.heap ∧
      ∀ p, SummedAt (Finished s.ctxs) s.heap p → SummedAt (Finished s'.ctxs) s'.heap p := by
  have hfinished := (hchange.later h).finished
  cases hchange with
  | same hheap hctxs _ =>
      rw [hheap, hctxs]
      exact ⟨haud, fun _ hp => hp⟩
  | @moved u x _ heff hheap hctxs _ =>
      have hcells : ∀ a n, s.heap.get? a = some n → Finished s.ctxs n.ver →
          s'.heap.get? a = some n := by
        intro a n hn hfin
        rw [hheap]
        exact heff.moves.cell_of_finished hn hfin
      refine ⟨haud.keep hfinished hcells fun a n' hn' hne => ?_,
        fun p hp => hp.keep hfinished hcells⟩
      rw [hheap] at hn'
      exact (heff.aug hn').resolve_left hne
  | staged hheap _ _ =>
      refine ⟨haud.keep hfinished (fun a n hn _ => hheap ▸ hn) fun a n' hn' _ => ?_,
        fun p hp => hp.keep hfinished fun a n hn _ => hheap ▸ hn⟩
      exact ⟨n', hheap ▸ hn', rfl⟩
  | issued hgrow _ _ =>
      refine ⟨haud.keep hfinished (fun a n hn _ => hgrow.preserves.get? hn) fun a n' hn' hne => ?_,
        fun p hp => hp.keep hfinished fun a n hn _ => hgrow.preserves.get? hn⟩
      by_cases hlt : a < s.heap.size
      · exact ⟨n', (hgrow.preserves.same a hlt) ▸ hn', rfl⟩
      · exact absurd (hgrow.fresh a n' (Nat.not_lt.mp hlt) hn') hne
  | @augmented id task x hact hat hrun hctxs _ =>
      obtain ⟨-, t, ht⟩ := hgood id task hact hat
      obtain ⟨hs, haud', -⟩ := haud.augmented ht hrun
      rw [hctxs]
      exact ⟨haud', fun p hp => hp.audits hs⟩

/-! ### What the workers have estimated

A worker goes through its block backwards, from the last version to the first, and then
counts it.  In between, the versions it has come past are augmented and the others are
not.
-/

/-- The versions a worker has augmented: those of the blocks it has counted, and of the
present one those it has come past, from the end on. -/
def Worker.estimated (c : Config) (id : Nat) (w : Worker) (v : Nat) : Prop :=
  (∃ j < w.blockCount, Scheduler.blockStart c id j ≤ v ∧ v ≤ due c id j) ∨
    match w.at_ with
    | .estimate task => task < v ∧ v ≤ w.blockEnd
    | .store => w.blockStart ≤ v ∧ v ≤ w.blockEnd
    | _ => False

theorem Worker.estimated_of_not_passing {w : Worker} (hat : w.at_.passing = false)
    (hv : w.estimated c id v) :
    ∃ j < w.blockCount, Scheduler.blockStart c id j ≤ v ∧ v ≤ due c id j := by
  rcases hv with hv | hv
  · exact hv
  · cases hw : w.at_ with
    | estimate task =>
        rw [hw] at hat
        cases hat
    | store =>
        rw [hw] at hat
        cases hat
    | _ =>
        rw [hw] at hv
        exact hv.elim

/-- Only the version a worker is at is new. -/
theorem Loop.estimated (hl : Loop c s id s') (hp : Passing c s id)
    (hv : (s'.workers id).estimated c id v) :
    (s.workers id).estimated c id v ∨ (s.workers id).at_ = .estimate v := by
  have hself : ∀ w, Function.update s.workers id w id = w := fun w => Function.update_self ..
  cases hl with
  | fetch _ hpending hworkers =>
      rw [hworkers, hself] at hv
      have hold := Worker.estimated_of_not_passing (WorkerAt.passing_of_pending hpending) hv
      exact Or.inl (Or.inl hold)
  | work _ hpending hworkers =>
      rw [hworkers, hself] at hv
      have hold := Worker.estimated_of_not_passing (WorkerAt.passing_of_pending hpending) hv
      exact Or.inl (Or.inl hold)
  | skip _ _ hworkers =>
      rw [hworkers, hself] at hv
      have hold := Worker.estimated_of_not_passing (again_not_passing c _) hv
      exact Or.inl (Or.inl hold)
  | pass _ _ hworkers =>
      rw [hworkers, hself] at hv
      rcases hv with hv | hv
      · exact Or.inl (Or.inl hv)
      -- The block that is begun has no version estimated yet.
      · dsimp only at hv
        split at hv
        · next heq =>
            split at heq
            · cases heq
              exact absurd hv.1 (Nat.not_lt.mpr hv.2)
            · cases heq
        · next heq =>
            split at heq
            · cases heq
            · next hempty => exact absurd (hv.1.trans hv.2) hempty
        · exact hv.elim
  | @estimate task hat hworkers =>
      have hwithin := hp.within task hat
      rw [hworkers, hself] at hv
      rcases hv with hv | hv
      · exact Or.inl (Or.inl hv)
      -- The versions behind the one that is estimated now, and that one itself.
      · have hcases : v = task ∨ task < v ∧ v ≤ (s.workers id).blockEnd := by
          dsimp only at hv
          split at hv
          · next heq =>
              split at heq
              · cases heq
                omega
              · cases heq
          · next heq =>
              split at heq
              · cases heq
              · omega
          · exact hv.elim
        rcases hcases with rfl | hlater
        · exact Or.inr hat
        · refine Or.inl (Or.inr ?_)
          rw [hat]
          exact hlater
  | store hat hworkers =>
      rw [hworkers, hself] at hv
      obtain ⟨j, hj, hv⟩ := Worker.estimated_of_not_passing (again_not_passing c _) hv
      rcases Nat.lt_succ_iff_lt_or_eq.mp hj with hlt | rfl
      · exact Or.inl (Or.inl ⟨j, hlt, hv⟩)
      · refine Or.inl (Or.inr ?_)
        rw [hat, hp.start, hp.stop]
        exact hv

/-! ### The invariant -/

/-- Every aggregate that is there is right, and every version a worker has augmented is
summed throughout. -/
structure Sums (c : Config) (s : State) : Prop where
  nodes : AuditedIn (Finished s.ctxs) s.heap
  initial : SummedAt (Finished s.ctxs) s.heap (s.ctxs 0).root
  versions : ∀ id, 1 ≤ id → ∀ v, (s.workers id).estimated c id v →
    v ≤ s.numIssued ∧ SummedAt (Finished s.ctxs) s.heap (s.ctxs v).root

/-- A treap as `build_parallel` leaves it. -/
structure Initial (c : Config) (u₀ : BinaryTree (Datum × UInt64)) : Prop where
  nodes : Audited c.heap₀
  shows : Shows audited c.heap₀ c.t₀ u₀
  summed : Summed u₀
  wellFormed : WellFormed c.hash (map Prod.fst u₀)
  versions : ∀ x n, c.heap₀.get? x = some n → n.ver = 0

section
variable {u₀ : BinaryTree (Datum × UInt64)}

theorem Initial.ver_eq (h : Initial c u₀) {p : Ptr} {u : BinaryTree (Datum × UInt64)}
    (hu : Shows audited c.heap₀ p u) : ∀ e ∈ u.inorder, e.1.ver = 0 := by
  induction hu with
  | nil => nofun
  | node _ hn _ _ ihl ihr =>
      rw [forall_mem_inorder_node]
      exact ⟨h.versions _ _ hn, ihl, ihr⟩

theorem Initial.verBound (h : Initial c u₀) : VerBound 0 (map Prod.fst u₀) := by
  refine verBound_of_forall fun e he => ?_
  rw [inorder_map] at he
  obtain ⟨x, hx, rfl⟩ := List.mem_map.mp he
  exact h.ver_eq h.shows x hx

theorem Initial.sums (h : Initial c u₀) : Sums c (init c) := by
  have hfinished : Finished (init c).ctxs 0 := rfl
  have hzero : ∀ {p u}, Shows audited c.heap₀ p u →
      ∀ e ∈ u.inorder, Finished (init c).ctxs e.1.ver := by
    intro p u hu e he
    rw [h.ver_eq hu e he]
    exact hfinished
  refine ⟨fun a n hn hne => ?_, ⟨u₀, h.shows, h.summed, hzero h.shows⟩, fun id _ v hv => ?_⟩
  · obtain ⟨u, hu, hsum⟩ := h.nodes a n hn hne
    exact ⟨u, hu, hsum, hzero hu⟩
  · obtain ⟨j, hj, -⟩ := Worker.estimated_of_not_passing rfl hv
    exact absurd hj (Nat.not_lt_zero j)

end

/-- Two things are put together: what a step does to summed trees, and which version is
new among those a worker has augmented. -/
theorem sums_step (hinv : Inv c (versionTree c t₀) s steps) (h₀ : VerBound 0 t₀)
    (hpass : ∀ id, 1 ≤ id → Passing c s id) (hgood : EstimatesComplete s a)
    (hstep : step c s a = some s') (h : Sums c s) : Sums c s' := by
  obtain ⟨steps', -, hchange⟩ := inv_step hinv h₀ hstep
  obtain ⟨hnodes, hkeep⟩ := hchange.sums hinv hgood h.nodes
  have hlater := hchange.later hinv
  have hversion : ∀ v, v ≤ s.numIssued ∧ SummedAt (Finished s.ctxs) s.heap (s.ctxs v).root →
      v ≤ s'.numIssued ∧ SummedAt (Finished s'.ctxs) s'.heap (s'.ctxs v).root := by
    rintro v ⟨hv, hsum⟩
    rw [hlater.root v hv]
    exact ⟨hv.trans hlater.issued, hkeep _ hsum⟩
  refine ⟨hnodes, (hversion 0 ⟨Nat.zero_le _, h.initial⟩).2, fun id hid v hv => ?_⟩
  rcases step_loop hstep with hs | ⟨id', hid', hle, rfl, hl⟩
  · rw [hs.workers] at hv
    exact hversion v (h.versions id hid v hv)
  · by_cases heq : id = id'
    · subst heq
      rcases hl.estimated (hpass id hid) hv with hold | hat
      · exact hversion v (h.versions id hid v hold)
      · obtain ⟨hissued, t, ht⟩ := hgood id v rfl hat
        have hrun : workerStep c s id = some s' := by
          rwa [step, if_pos ⟨hid, hle⟩] at hstep
        obtain ⟨x, haug, hctxs, hsame⟩ := estimate_step hat hrun
        obtain ⟨-, -, hsum⟩ := h.nodes.augmented ht haug
        rw [hctxs, hsame]
        exact ⟨hissued, hsum⟩
    · have hsame : s'.workers id = s.workers id := hl.other heq
      rw [hsame] at hv
      exact hversion v (h.versions id hid v hv)

theorem sums_reachable {u₀ : BinaryTree (Datum × UInt64)} (h₀ : Initial c u₀)
    (hs : (system c).Reach EstimatesComplete (init c) s) : Sums c s := by
  have hknown : ∀ t, (system c).Reach EstimatesComplete (init c) t →
      (∃ steps, Inv c (versionTree c (map Prod.fst u₀)) t steps) ∧
        ∀ id, 1 ≤ id → Passing c t id := fun t ht =>
    ⟨inv_reachable (h₀.shows.map Prod.fst) h₀.verBound ht.steps, passing_reachable ht.steps⟩
  refine hs.invariant_of (I := Sums c) ?_ hknown h₀.sums
  rintro s a s' ⟨⟨steps, hinv⟩, hpass⟩ h hgood hstep
  exact sums_step hinv h₀.verBound hpass hgood hstep h

/-! ### Snapshots

`get_snapshot` looks at the count of one worker.  Unless the version is the last of its
block, this is the worker of the block it is in, which has then been augmented.
-/

/-- The worker of the block that holds a version has counted the block. -/
def BlockCounted (c : Config) (s : State) (v : Nat) : Prop :=
  (v - 1) / c.blockSize / c.numWorkers < s.numEstimated ((v - 1) / c.blockSize % c.numWorkers)

/-- Unless it is the last of its block, a version waits for the block that holds it. -/
theorem blockCounted_of_ready (hv : ¬ c.blockSize ∣ v) (hready : snapshotReady c s v = true) :
    BlockCounted c s v := by
  cases v with
  | zero => exact absurd (Nat.dvd_zero c.blockSize) hv
  | succ v =>
      rw [snapshotReady, Nat.succ_div_of_not_dvd hv, decide_eq_true_eq] at hready
      exact hready

/-- A version in a block that has been counted has been augmented. -/
theorem BlockCounted.estimated (hp : ∀ id, 1 ≤ id → Passing c s id) (hblock : 1 ≤ c.blockSize)
    (hv : 1 ≤ v) (hle : v ≤ c.numTasks) (hcount : BlockCounted c s v) :
    ∃ id, 1 ≤ id ∧ (s.workers id).estimated c id v := by
  obtain ⟨b, hb⟩ : ∃ b, b = (v - 1) / c.blockSize := ⟨_, rfl⟩
  have hid : 1 ≤ b % c.numWorkers + 1 := Nat.le_add_left 1 _
  have hstored := (hp _ hid).stored
  rw [Nat.add_sub_cancel] at hstored
  rw [BlockCounted, ← hb, hstored] at hcount
  have hlow : b * c.blockSize ≤ v - 1 := hb ▸ Nat.div_mul_le_self _ _
  have hhigh : v - 1 < (b + 1) * c.blockSize := by
    rw [hb]
    exact Nat.lt_mul_of_div_lt (Nat.lt_succ_self _) hblock
  refine ⟨_, hid, Or.inl ⟨_, hcount, ?_, ?_⟩⟩
  · rw [blockStart_div_mod]
    omega
  · rw [due, blockStart_div_mod, blockEnd]
    rw [Nat.succ_mul] at hhigh
    omega

/--
**A snapshot is complete and sums up the version it was asked for**, in every run that
augments versions only once they are complete, for every version that is not the last of
its block or whose block has been counted.
-/
theorem snapshot_complete {u₀ : BinaryTree (Datum × UInt64)} (hinj : Function.Injective c.hash)
    (h₀ : Initial c u₀) (hblock : 1 ≤ c.blockSize) (hlen : c.ops.length ≤ c.numTasks)
    (hs : (system c).Reach EstimatesComplete (init c) s) (hv : v ≤ s.numIssued)
    (hfits : ∀ i ≤ v, (stored (contents (map Prod.fst u₀)) (c.ops.take i)).card < 2 ^ 64)
    (hget : getSnapshot c s v = some p)
    (hasked : v = 0 ∨ ¬ c.blockSize ∣ v ∨ BlockCounted c s v) :
    ∃ u, Shows audited s.heap p u ∧ (∀ e ∈ u.inorder, (s.ctxs e.1.ver).st = .done) ∧ Summed u ∧
      ∀ l r, ∃ x, rangeEstimateOpen s.heap p l r = some x ∧
        x.toNat = countRange l r (stored (contents (map Prod.fst u₀)) (c.ops.take v)) := by
  have hsums := sums_reachable h₀ hs
  have hpass := passing_reachable hs.steps
  obtain ⟨steps, hinv⟩ := inv_reachable (h₀.shows.map Prod.fst) h₀.verBound hs.steps
  rw [getSnapshot, if_neg (Nat.not_lt.mpr hv)] at hget
  have hready : snapshotReady c s v = true ∧ (s.ctxs v).root = p := by
    split at hget
    · next hr => exact ⟨hr, Option.some.inj hget⟩
    · cases hget
  obtain ⟨hready, rfl⟩ := hready
  have hsum : SummedAt (Finished s.ctxs) s.heap (s.ctxs v).root := by
    rcases Nat.eq_zero_or_pos v with rfl | hpos
    · exact hsums.initial
    · have hcount : BlockCounted c s v := by
        rcases hasked with hzero | hdvd | hcount
        · omega
        · exact blockCounted_of_ready hdvd hready
        · exact hcount
      obtain ⟨id, hid, hest⟩ :=
        hcount.estimated hpass hblock hpos ((hv.trans hinv.flow.bounded).trans hlen)
      exact (hsums.versions id hid v hest).2
  obtain ⟨u, hu, hsummed, hfin⟩ := hsum
  have hsettled : Settled s.heap s.ctxs (s.ctxs v).root (map Prod.fst u) := by
    refine ⟨hu.map Prod.fst, fun e he => ?_⟩
    rw [inorder_map] at he
    obtain ⟨x, hx, rfl⟩ := List.mem_map.mp he
    exact hfin x hx
  have htree := (hinv.trees.roots v hv).eq_of_settled hsettled
  obtain ⟨hwf, hcont⟩ := versionTree_stored hinj h₀.wellFormed v hfits
  rw [htree] at hwf hcont
  refine ⟨u, hu, hfin, hsummed, fun l r => ⟨sumRange l r (map Prod.fst u), ?_, ?_⟩⟩
  · exact rangeEstimate_spec l r hu hsummed hwf.treap.search trivial (Nat.lt_succ_of_le hu.height_le)
  · rw [← hcont]
    exact toNat_sumRange l r (hcont ▸ hfits v (Nat.le_refl v))

/-! ### Complete versions

Completeness is a matter of the heap.  That all tasks up to a version are done is a test
on the contexts, and is enough.
-/

/-- A version is complete once its task and all before it are done. -/
theorem complete_of_done {u₀ : BinaryTree (Datum × UInt64)} (h₀ : Initial c u₀)
    (hs : (system c).Reachable s) (hv : v ≤ s.numIssued) (hdone : ∀ u ≤ v, (s.ctxs u).st = .done) :
    Complete s v := by
  obtain ⟨steps, hinv⟩ := inv_reachable (h₀.shows.map Prod.fst) h₀.verBound hs
  exact ⟨hv, _, hinv.shows_version h₀.verBound hv hdone⟩

/-- A test that lets a version be augmented when its task and all before it are done. -/
def allDone (s : State) : Action → Bool
  | .worker id =>
      match (s.workers id).at_ with
      | .estimate task => task ≤ s.numIssued ∧ ∀ u ≤ task, (s.ctxs u).st = .done
      | _ => true
  | _ => true

theorem estimatesComplete_of_allDone {u₀ : BinaryTree (Datum × UInt64)} (h₀ : Initial c u₀)
    (hs : (system c).Reachable s) (hok : allDone s a = true) : EstimatesComplete s a := by
  rintro id task rfl hat
  simp only [allDone, hat, decide_eq_true_eq] at hok
  exact complete_of_done h₀ hs hok.1 hok.2

/-- Keys `9` and `7`, an insertion below both and a query, in a block of two versions. -/
def stacked (numWorkers : Nat) : Config where
  numPipes := 1
  numWorkers := numWorkers
  blockSize := 2
  numTasks := 2
  hash := fun elem => elem
  ops := [.insertElem 3, .nop]
  heap₀ := ⟨#[⟨0, 7, 7, 1, 1, none, none⟩, ⟨0, 9, 9, 1, 2, some 0, none⟩]⟩
  t₀ := some 1

theorem stacked_initial (numWorkers : Nat) : Initial (stacked numWorkers)
    (node (⟨0, 9, 9, 1⟩, 2) (node (⟨0, 7, 7, 1⟩, 1) nil nil) nil) := by
  have hcell : ∀ {x n}, (stacked numWorkers).heap₀.get? x = some n →
      (x = 0 ∧ n = ⟨0, 7, 7, 1, 1, none, none⟩) ∨ (x = 1 ∧ n = ⟨0, 9, 9, 1, 2, some 0, none⟩) := by
    intro x n hn
    match x with
    | 0 => exact Or.inl ⟨rfl, (Option.some.inj hn).symm⟩
    | 1 => exact Or.inr ⟨rfl, (Option.some.inj hn).symm⟩
    | x + 2 => cases hn
  have hleaf : Shows audited (stacked numWorkers).heap₀ (some 0) (node (⟨0, 7, 7, 1⟩, 1) nil nil) :=
    .node (L := audited) (x := ⟨0, 7, 7, 1, 1, none, none⟩) (Set.mem_univ _) rfl .nil .nil
  have htop : Shows audited (stacked numWorkers).heap₀ (some 1)
      (node (⟨0, 9, 9, 1⟩, 2) (node (⟨0, 7, 7, 1⟩, 1) nil nil) nil) :=
    .node (L := audited) (x := ⟨0, 9, 9, 1, 2, some 0, none⟩) (Set.mem_univ _) rfl hleaf .nil
  have hsum : Summed (node ((⟨0, 7, 7, 1⟩ : Datum), 1) nil nil) := ⟨rfl, trivial, trivial⟩
  have hsums : Summed (node ((⟨0, 9, 9, 1⟩ : Datum), 2) (node (⟨0, 7, 7, 1⟩, 1) nil nil) nil) :=
    ⟨rfl, hsum, trivial⟩
  refine ⟨fun x n hn _ => ?_, htop, hsums, ?_, fun x n hn => ?_⟩
  · rcases hcell hn with ⟨rfl, -⟩ | ⟨rfl, -⟩
    · exact ⟨_, hleaf, hsum⟩
    · exact ⟨_, htop, hsums⟩
  · simp [map, wellFormed_node, wellFormed_nil, stacked]
  · rcases hcell hn with ⟨-, rfl⟩ | ⟨-, rfl⟩
    · rfl
    · rfl

/-- Both tasks are issued, go through the pipe and are submitted. -/
def bothSubmitted : List Action :=
  List.replicate 4 .master ++ List.replicate 6 (.pipe 1) ++ List.replicate 2 .boarder

/-- A single worker brings the insertion to its end before it augments. -/
theorem snapshot_complete_stacked :
    ∃ s root x, (system (stacked 1)).Reachable s ∧ getSnapshot (stacked 1) s 1 = some (some root) ∧
      rangeEstimateOpen s.heap (some root) 3 8 = some x ∧ x.toNat = 2 := by
  obtain ⟨s, hrun⟩ : ∃ s, (system (stacked 1)).runIf allDone
      (bothSubmitted ++ List.replicate 13 (.worker 1)) (init (stacked 1)) = some s := ⟨_, rfl⟩
  obtain ⟨root, hstate⟩ : ∃ root, getSnapshot (stacked 1) s 1 = some (some root) ∧
      s.numIssued = 2 := by
    cases hrun
    exact ⟨_, rfl, rfl⟩
  obtain ⟨hget, hissued⟩ := hstate
  have hreach : (system (stacked 1)).Reach EstimatesComplete (init (stacked 1)) s :=
    System.reach_of_runIf
      (fun _ _ hs hok => estimatesComplete_of_allDone (stacked_initial 1) hs hok) .refl hrun
  obtain ⟨u, -, -, -, hest⟩ := snapshot_complete (v := 1) (fun _ _ heq => heq) (stacked_initial 1)
    (by decide) (by decide) hreach (by omega) (by decide) hget (Or.inr (Or.inl (by decide)))
  obtain ⟨x, hx, hcount⟩ := hest 3 8
  exact ⟨s, root, x, hreach.steps, hget, hx, hcount.trans (by decide)⟩

/-- A second worker holds the insertion, and the first one, which has the query, augments
the block.  The snapshot then leaves out what is not linked yet, for good. -/
theorem snapshot_complete_fails :
    ∃ s root, (system (stacked 2)).Reachable s ∧ 1 ≤ s.numIssued ∧
      getSnapshot (stacked 2) s 1 = some (some root) ∧
      rangeEstimateOpen s.heap (some root) 0 9 = some 2 ∧
      countRange 0 9 (stored {9, 7} ((stacked 2).ops.take 1)) = 3 := by
  obtain ⟨s, hrun⟩ : ∃ s, (system (stacked 2)).run
      (bothSubmitted ++ [.worker 2] ++ List.replicate 7 (.worker 1)) (init (stacked 2)) = some s :=
    ⟨_, rfl⟩
  have hreach : (system (stacked 2)).Reachable s := System.reach_of_run hrun
  refine ⟨s, 2, hreach, ?_⟩
  cases hrun
  decide

end Scheduler
