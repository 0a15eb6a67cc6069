/-
`DB::Contreap` with its clients.

The master is in a call of the program, and the threads of the scheduler, a pusher and
the clients go on meanwhile.  What a client needs is that the root `get_snapshot` gives
it shows the tree of its version, summed, and that no thread touches this tree any more
(`Change.retains`).  Both hold in every run that augments versions only once they are
complete, for versions that are not the last of a block; and with one worker, which is
what two threads or less leave, they hold in every run.
-/
import Contreap.Proofs.Scheduler.Estimates
import Contreap.Proofs.Scheduler.Termination
import Contreap.Proofs.Servers.Sequential

/-! ### Trees that clients are in

A client reads while tasks take steps and versions are augmented.  A tree that is summed
throughout has no node at which a task could be, and augmenting does not go below its
root.
-/

namespace Scheduler

open BinaryTree Cartesian PtrHeap Transition
open Treap hiding Call

variable {c : Config} {T : Nat → BinaryTree Datum} {s s' : State} {steps steps' : Nat → Nat}
  {a : Action} {u₀ : BinaryTree (Datum × UInt64)} {v : Nat} {p : Ptr}

/-- **A step of the scheduler leaves the summed trees of finished versions alone**, when it
does not augment a version before it is complete. -/
theorem Change.retains (h : Inv c T s steps) (hchange : Change a s steps s' steps')
    (hgood : EstimatesComplete s a) (haud : AuditedIn (Finished s.ctxs) s.heap) :
    Retains (Finished s.ctxs) s.heap (Finished s'.ctxs) s'.heap := by
  refine ⟨(hchange.later h).finished, ?_⟩
  rintro p u ⟨hu, hsum, hfin⟩
  cases hchange with
  | same hheap _ _ =>
      rw [hheap]
      exact hu
  | @moved u' x _ heff hheap _ _ =>
      refine hu.congr fun a n _ hn hmem => ⟨n, ?_, rfl, rfl, rfl⟩
      rw [hheap]
      exact heff.moves.cell_of_finished hn (hfin _ hmem)
  | staged hheap _ _ =>
      rw [hheap]
      exact hu
  | issued hgrow _ _ => exact hu.preserved hgrow.preserves
  | @augmented id task x hact hat hrun _ _ =>
      obtain ⟨-, t, ht⟩ := hgood id task hact hat
      obtain ⟨hs, -, -⟩ := haud.augmented ht hrun
      exact hs.shows hu hsum

theorem step_retains (h₀ : Initial c u₀) (hs : (system c).Reach EstimatesComplete (init c) s)
    (hgood : EstimatesComplete s a) (hstep : step c s a = some s') :
    Retains (Finished s.ctxs) s.heap (Finished s'.ctxs) s'.heap := by
  obtain ⟨steps, hinv⟩ := inv_reachable (h₀.shows.map Prod.fst) h₀.verBound hs.steps
  obtain ⟨steps', -, hchange⟩ := inv_step hinv h₀.verBound hstep
  exact hchange.retains hinv hgood (sums_reachable h₀ hs).nodes

/-- With one worker a version waits for its own block, too. -/
theorem blockCounted_alone (hone : c.numWorkers = 1) (hready : snapshotReady c s v = true) :
    BlockCounted c s v := by
  rw [snapshotReady, decide_eq_true_eq] at hready
  unfold BlockCounted
  rw [hone, Nat.mod_one, Nat.div_one] at hready ⊢
  exact (Nat.div_le_div_right (Nat.sub_le v 1)).trans_lt hready

/-- What `get_snapshot` returns is the tree of the version, for good. -/
theorem snapshot_shows (hinj : Function.Injective c.hash) (h₀ : Initial c u₀)
    (hblock : 1 ≤ c.blockSize) (hlen : c.ops.length ≤ c.numTasks)
    (hs : (system c).Reach EstimatesComplete (init c) s) (hpos : 1 ≤ v) (hv : v ≤ s.numIssued)
    (hfits : ∀ i ≤ v, (stored (contents (map Prod.fst u₀)) (c.ops.take i)).card < 2 ^ 64)
    (hok : c.numWorkers = 1 ∨ ¬ c.blockSize ∣ v) (hget : getSnapshot c s v = some p) :
    DB.ShowsElems (Finished s.ctxs) s.heap c.hash
      (stored (contents (map Prod.fst u₀)) (c.ops.take v)) p := by
  have hsums := sums_reachable h₀ hs
  have hpass := passing_reachable hs.steps
  obtain ⟨steps, hinv⟩ := inv_reachable (h₀.shows.map Prod.fst) h₀.verBound hs.steps
  rw [getSnapshot, if_neg (Nat.not_lt.mpr hv)] at hget
  split at hget
  case isFalse => cases hget
  next hready =>
  obtain rfl := Option.some.inj hget
  have hcount : BlockCounted c s v :=
    hok.elim (fun hone => blockCounted_alone hone hready) fun hdvd => blockCounted_of_ready hdvd hready
  have hle : v ≤ c.numTasks := (hv.trans hinv.flow.bounded).trans hlen
  obtain ⟨id, hid, hest⟩ := hcount.estimated hpass hblock hpos hle
  obtain ⟨u, hu, hsummed, hfin⟩ := (hsums.versions id hid v hest).2
  have hsettled : Settled s.heap s.ctxs (s.ctxs v).root (map Prod.fst u) := by
    refine ⟨hu.map Prod.fst, fun e he => ?_⟩
    rw [inorder_map] at he
    obtain ⟨x, hx, rfl⟩ := List.mem_map.mp he
    exact hfin x hx
  obtain ⟨hwf, hcont⟩ := versionTree_stored hinj h₀.wellFormed v hfits
  rw [(hinv.trees.roots v hv).eq_of_settled hsettled] at hwf hcont
  exact ⟨u, ⟨hu, hsummed, hfin⟩, hwf, hcont⟩

/-! ### Who issues

The master is the only thread to issue a task, which is why versions and calls are counted
alike.
-/

/-- A worker issues nothing. -/
theorem workerStep_numIssued {id : Nat} (hstep : workerStep c s id = some s') :
    s'.numIssued = s.numIssued := by
  simp only [workerStep, Option.bind_eq_bind] at hstep
  split at hstep
  · cases hstep
    rfl
  · split at hstep
    · cases hstep
      rfl
    · split at hstep <;> cases hstep
      rfl
  · split at hstep <;> cases hstep <;> rfl
  · obtain ⟨v, -, hstep⟩ := Option.bind_eq_some_iff.mp hstep
    split at hstep
    · obtain ⟨x, -, hx⟩ := Option.bind_eq_some_iff.mp hstep
      cases hx
      rfl
    · cases hstep
      rfl
  · obtain ⟨v, -, hstep⟩ := Option.bind_eq_some_iff.mp hstep
    split at hstep
    · cases hstep
    · obtain ⟨x, -, hx⟩ := Option.bind_eq_some_iff.mp hstep
      cases hx
      rfl
  · split at hstep <;> cases hstep <;> rfl
  · obtain ⟨x, -, hx⟩ := Option.bind_eq_some_iff.mp hstep
    cases hx
    rfl
  · cases hstep
    rfl
  · cases hstep

/-- Only a call that the master starts issues a task. -/
theorem step_numIssued (hstep : step c s a = some s') (hnot : ¬ (a = .master ∧ s.master = .idle)) :
    s'.numIssued = s.numIssued := by
  unfold step at hstep
  cases a with
  | master =>
      simp only [masterStep] at hstep
      split at hstep
      · next hidle => exact absurd ⟨rfl, hidle⟩ hnot
      · cases hstep
        rfl
      · cases hstep
        exact (notify_same s 0).2.2
  | pipe id =>
      simp only [pipeStep] at hstep
      split at hstep
      case isFalse => cases hstep
      split at hstep
      case isFalse => cases hstep
      split at hstep
      · cases hstep
        rfl
      · cases hstep
        rfl
      · cases hstep
      · split at hstep
        · cases hstep
          rfl
        · obtain ⟨x, -, hx⟩ := Option.bind_eq_some_iff.mp hstep
          cases hx
          rfl
      · cases hstep
        rfl
      · cases hstep
        exact (notify_same s id).2.2
  | unblock id =>
      simp only at hstep
      split at hstep
      · cases hstep
        rfl
      · cases hstep
  | boarder =>
      simp only [boarderStep] at hstep
      split at hstep
      · cases hstep
        rfl
      · split at hstep
        · cases hstep
          rfl
        · cases hstep
  | worker id =>
      simp only at hstep
      split at hstep
      · exact workerStep_numIssued hstep
      · cases hstep
  | collector =>
      simp only [collectorStep] at hstep
      split at hstep
      · cases hstep
        rfl
      · split at hstep
        · cases hstep
          rfl
        · cases hstep

end Scheduler

namespace Contreap

open BinaryTree Cartesian PtrHeap Scheduler Transition
open Treap hiding Call
open Sequential (Call effect reference Fits)
open DB (queries queryAt answers expected count)

variable {c : Config} {hash : UInt64 → UInt64} {elems : List UInt64} {calls : List Call}
  {u₀ : BinaryTree (Datum × UInt64)} {s s' : Shared} {a : Action} {m n numThreads blockSize : Nat}

/-! ### The scheduler `Init` makes

A call is an operation of the scheduler, and what the operations leave stored is what the
calls do.
-/

theorem stored_toOp (M : Multiset UInt64) (calls : List Call) :
    stored M (calls.map toOp) = calls.foldl effect M := by
  unfold stored
  rw [List.foldl_map]
  congr 1
  funext M c
  cases c with
  | query l r => rfl
  | insert k => rfl
  | delete k => rfl

theorem stored_take (hops : c.ops = calls.map toOp) (hcont : contents (map Prod.fst u₀) = elems)
    (i : Nat) :
    stored (contents (map Prod.fst u₀)) (c.ops.take i) = reference elems (calls.take i) := by
  rw [hops, ← List.map_take, stored_toOp, hcont]
  rfl

/-- `build_parallel` leaves a treap of version `0`, summed throughout. -/
theorem buildParallel_initial (hinj : Function.Injective hash) (hroom : elems.length < 2 ^ 64) :
    ∃ heap₀ t₀, buildParallel hash ⟨#[]⟩ elems = some (heap₀, t₀) ∧
      ∀ c : Config, c.hash = hash → c.heap₀ = heap₀ → c.t₀ = t₀ →
        ∃ u₀, Initial c u₀ ∧ contents (map Prod.fst u₀) = elems := by
  obtain ⟨heap, p, t, hrun, hbuilt⟩ :=
    build_spec hinj (s := ⟨#[]⟩) (Nat.lt_succ_self elems.length) hroom
  obtain ⟨heap₀, v, haug, hs, haud, u, hu, hsum, hwf, hcont⟩ :=
    Sequential.augment_version (Sequential.audited_empty.grows hbuilt.grows)
      (hbuilt.shows.map Prod.snd) hbuilt.wellFormed
  have hinit : Initially heap := by
    refine build_initially (fun a n hn => ?_) hrun
    simp [Heap.get?] at hn
  refine ⟨heap₀, p, ?_, fun c hc hheap ht => ⟨u, ?_, hcont.trans hbuilt.contents_eq⟩⟩
  · simp only [buildParallel, augmentParallel, hrun, haug, Option.bind_eq_bind, Option.bind_some]
  · subst hc hheap ht
    refine ⟨haud, hu, hsum, hwf, fun a n hn => ?_⟩
    obtain ⟨x, hx⟩ : ∃ x, heap.get? a = some x := by
      have hlt := Heap.lt_size_of_get? hn
      rw [hs.size] at hlt
      exact ⟨_, Array.getElem?_eq_getElem hlt⟩
    obtain ⟨w, hw⟩ := hs.same a x hx
    obtain rfl := Option.some.inj (hw.symm.trans hn)
    exact hinit a x hx

theorem decideNumWorkers_eq_one (hthreads : numThreads ≤ 2) : decideNumWorkers numThreads = 1 := by
  match numThreads with
  | 0 | 1 | 2 => rfl

/-- What connects `config` to the theorems about any scheduler: whatever the number of
threads, there is a worker. -/
theorem decideNumWorkers_pos (numThreads : Nat) : 1 ≤ decideNumWorkers numThreads := by
  unfold decideNumWorkers
  dsimp only
  split
  · next hpos => exact hpos
  · exact Nat.le_refl 1

/-! ### Calls and their pushes

A query is one task for the scheduler, and is pushed when the call has returned.  Its
version is the number of calls so far.
-/

/-- How many calls have returned, or have nothing more to push. -/
def Shared.returned (s : Shared) : Nat :=
  match s.pending with
  | none => s.scheduler.numIssued
  | some _ => s.scheduler.numIssued - 1

/-- The queries that have been pushed. -/
def Shared.asked (calls : List Call) (s : Shared) : List DB.Pushed := queries (calls.take s.returned)

/-- The scheduler has come here by a run that augments complete versions only, and a query
that is still to be pushed is the call issued last. -/
structure Goes (c : Config) (calls : List Call) (s : Shared) : Prop where
  reach : (Scheduler.system c).Reach EstimatesComplete (Scheduler.init c) s.scheduler
  pending : ∀ l r, s.pending = some (l, r) →
    1 ≤ s.scheduler.numIssued ∧ calls[s.scheduler.numIssued - 1]? = some (.query l r)

theorem queryAt_eq (call : Call) (ver : Nat) :
    queryAt (call, ver) = (rangeOf call).map fun x => ⟨ver, x.1, x.2⟩ := by
  cases call with
  | query l r => rfl
  | insert k => rfl
  | delete k => rfl

theorem rangeOf_eq {call : Call} {l r : UInt64} (h : rangeOf call = some (l, r)) :
    call = .query l r := by
  cases call with
  | query l' r' =>
      cases h
      rfl
  | insert k => cases h
  | delete k => cases h

/-- The master issues one task for a call. -/
theorem master_issues {t t' : Scheduler.State} (hidle : t.master = .idle)
    (hstep : Scheduler.step c t .master = some t') : t'.numIssued = t.numIssued + 1 := by
  simp only [Scheduler.step, masterStep, hidle] at hstep
  obtain ⟨op, -, hinit⟩ := Option.bind_eq_some_iff.mp hstep
  obtain ⟨x, rfl, -⟩ := initContext_issue hinit
  rfl

/-- **One step of the scheduler or its master**: no pushes. -/
theorem step_goes (h : Goes c calls s) (hgood : EstimatesComplete s.scheduler a)
    (hstep : step c calls s a = some s') :
    Goes c calls s' ∧ s'.asked calls = s.asked calls := by
  unfold step at hstep
  split at hstep
  · next hidle =>
      obtain ⟨rfl, hidle⟩ := hidle
      split at hstep
      case isFalse => cases hstep
      next hnone =>
      obtain ⟨call, hcall, hstep⟩ := Option.bind_eq_some_iff.mp hstep
      obtain ⟨t, ht, hs'⟩ := Option.bind_eq_some_iff.mp hstep
      cases hs'
      have hissued := master_issues hidle ht
      have hreturned : s.returned = s.scheduler.numIssued := by
        unfold Shared.returned
        rw [hnone]
      refine ⟨⟨h.reach.tail .master hgood ht, fun l r hlr => ?_⟩, ?_⟩
      · obtain rfl := rangeOf_eq hlr
        rw [hissued]
        exact ⟨Nat.le_add_left 1 _, hcall⟩
      · unfold Shared.asked
        rw [hreturned]
        cases hrange : rangeOf call with
        | none =>
            show queries (calls.take t.numIssued) = _
            rw [hissued, DB.queries_take hcall, queryAt_eq, hrange]
            exact List.append_nil _
        | some x =>
            show queries (calls.take (t.numIssued - 1)) = _
            rw [hissued, Nat.add_sub_cancel]
  · next hnot =>
      obtain ⟨t, ht, rfl⟩ := Option.map_eq_some_iff.mp hstep
      have hissued := step_numIssued ht hnot
      refine ⟨⟨h.reach.tail a hgood ht, fun l r hlr => ?_⟩, ?_⟩
      · rw [hissued]
        exact h.pending l r hlr
      · unfold Shared.asked Shared.returned
        rw [hissued]

/-- A push is the end of a query. -/
theorem push_goes {p : DB.Pushed} (h : Goes c calls s)
    (hpush : (server c calls).push s = some (p, s')) :
    Goes c calls s' ∧ s'.asked calls = s.asked calls ++ [p] := by
  simp only [server] at hpush
  split at hpush
  case h_2 => cases hpush
  next l r hpending =>
  split at hpush
  case isFalse => cases hpush
  cases hpush
  obtain ⟨hpos, hcall⟩ := h.pending l r hpending
  refine ⟨⟨h.reach, fun _ _ hnone => absurd hnone (by simp)⟩, ?_⟩
  have hqueries := DB.queries_take hcall
  rw [Nat.sub_add_cancel hpos] at hqueries
  unfold Shared.asked Shared.returned
  rw [hpending]
  exact hqueries

/-- A step of the server is one of the scheduler. -/
theorem scheduler_step (hstep : step c calls s a = some s') :
    Scheduler.step c s.scheduler a = some s'.scheduler := by
  unfold step at hstep
  split at hstep
  · next hidle =>
      obtain ⟨rfl, -⟩ := hidle
      split at hstep
      · obtain ⟨call, -, hstep⟩ := Option.bind_eq_some_iff.mp hstep
        obtain ⟨t, ht, hs'⟩ := Option.bind_eq_some_iff.mp hstep
        cases hs'
        exact ht
      · cases hstep
  · obtain ⟨t, ht, rfl⟩ := Option.map_eq_some_iff.mp hstep
    exact ht

theorem scheduler_push {p : DB.Pushed} (hpush : (server c calls).push s = some (p, s')) :
    s'.scheduler = s.scheduler := by
  simp only [server] at hpush
  split at hpush
  · split at hpush
    · cases hpush
      rfl
    · cases hpush
  · cases hpush

/-! ### The server

The clients are at roots that `get_snapshot` has returned.  Such a root is summed, and its
tree is no longer written to, so that a client is right about it in whatever order the
threads go on.
-/

section
variable (hinj : Function.Injective c.hash) (h₀ : Initial c u₀) (hblock : 1 ≤ c.blockSize)
  (hops : c.ops = calls.map toOp) (hlen : calls.length ≤ c.numTasks) (hfits : Fits elems calls)
  (hcont : contents (map Prod.fst u₀) = elems)
include hinj h₀ hblock hops hlen hfits hcont

/-- The clients are at roots that `get_snapshot` has returned. -/
theorem rooted :
    DB.Rooted c.hash elems calls (server c calls) (fun s a => EstimatesComplete s.scheduler a)
      (Goes c calls) (Shared.asked calls) (fun s => Finished s.scheduler.ctxs)
      (fun s => s.scheduler.heap) (fun s => getSnapshot c s.scheduler)
      (fun ver => c.numWorkers = 1 ∨ ¬ c.blockSize ∣ ver) where
  ask := rfl
  work := rfl
  ret := rfl
  fits := hfits.take
  init := ⟨⟨.refl, fun _ _ hnone => absurd hnone (by simp [server])⟩, rfl⟩
  step s a s' h hgood hstep := by
    obtain ⟨h', hasked⟩ := step_goes h hgood hstep
    exact ⟨h', hasked, step_retains h₀ h.reach hgood (scheduler_step hstep)⟩
  push s p s' h hpush := by
    obtain ⟨h', hasked⟩ := push_goes h hpush
    refine ⟨h', hasked, ?_⟩
    rw [scheduler_push hpush]
    exact .refl _ _
  shows s p t h hp hok ht := by
    obtain ⟨hpos, hle, -⟩ := DB.ver_of_mem_queries hp
    have hissued : s.returned ≤ s.scheduler.numIssued := by
      unfold Shared.returned
      split
      · exact Nat.le_refl _
      · exact Nat.sub_le _ 1
    have hfits' : ∀ i ≤ p.ver, (stored (contents (map Prod.fst u₀)) (c.ops.take i)).card < 2 ^ 64 := by
      intro i _
      rw [stored_take hops hcont]
      exact hfits.take i
    rw [← stored_take hops hcont]
    exact snapshot_shows hinj h₀ hblock (by rw [hops, List.length_map]; exact hlen) h.reach hpos
      (hle.trans hissued) hfits' hok ht

end

theorem pushes : DB.Pushes (server c calls) (Goes c calls) (Shared.asked calls) (queries calls) where
  before s _ := DB.queries_take_prefix calls s.returned
  closing s _ hclose := by
    obtain ⟨hnone, -, hall, -⟩ : s.pending = none ∧ s.scheduler.master = .idle ∧
        s.scheduler.numIssued = calls.length ∧ joined c s.scheduler = true := of_decide_eq_true hclose
    unfold Shared.asked Shared.returned
    rw [hnone]
    dsimp only
    rw [hall, List.take_length]

/-! ### The answers to a program

What has been shown of one client is put into the rule for all of them, and the two
conditions under which snapshots are complete give the two theorems.
-/

theorem scheduler_reachable {t : DB.State Shared DB.Client}
    (ht : (DB.system n (server c calls)).Reachable t) :
    (Scheduler.system c).Reachable t.db.scheduler := by
  refine DB.reachable_db (I := fun s => (Scheduler.system c).Reachable s.scheduler) .refl ?_ ?_ ht
  · intro s a s' h hstep
    exact h.tail a trivial (scheduler_step hstep)
  · intro s p s' h hpush
    rwa [scheduler_push hpush]

/-- With one worker every version is complete when it is augmented. -/
theorem good_alone (h₀ : Initial c u₀) (hone : c.numWorkers = 1) {t t' : DB.State Shared DB.Client}
    (ht : (DB.system n (server c calls)).Reachable t)
    (hsteps : (DB.system n (server c calls)).Steps t t') :
    (DB.system n (server c calls)).Reach
      (DB.GoodStep fun s a => EstimatesComplete s.scheduler a) t t' := by
  refine hsteps.mono_of fun w act w' hw _ hstep => ?_
  rintro b rfl
  have hreach := unhindered_alone h₀ hone (scheduler_reachable (ht.trans hw))
  have hstep : DB.step n (server c calls) w (.db b) = some w' := hstep
  simp only [DB.step] at hstep
  split at hstep
  · cases hstep
  · obtain ⟨db, hdb, -⟩ := Option.map_eq_some_iff.mp hstep
    exact estimatesComplete_step h₀ hreach (scheduler_step hdb)

/--
**Whatever `Contreap` has stored for a query is right**, for any number of threads and
clients and in any order of steps, as long as versions are augmented only once they are
complete and the query's version is not the last of a block.
-/
theorem answers_complete (hash : UInt64 → UInt64) (hinj : Function.Injective hash)
    (numThreads blockSize m : Nat) (hblock : 1 ≤ blockSize) (elems : List UInt64)
    (calls : List Call) (hlen : calls.length ≤ m) (hfits : Fits elems calls) (n : Nat) :
    ∃ heap₀ t₀, buildParallel hash ⟨#[]⟩ elems = some (heap₀, t₀) ∧
      ∀ s, (DB.system n (server (config hash numThreads blockSize m heap₀ t₀ calls) calls)).Reach
          (DB.GoodStep fun s a => EstimatesComplete s.scheduler a)
          (DB.init (server (config hash numThreads blockSize m heap₀ t₀ calls) calls)) s →
        ∀ id, ∀ res ∈ s.queryProcessor.results id,
          ∃ p, DB.Issued (queries calls) res.ver p ∧
            (¬ blockSize ∣ p.ver → res.ret.toNat = count elems calls p) := by
  have hroom : elems.length < 2 ^ 64 := by
    simpa [reference] using hfits 0 (Nat.zero_le _)
  obtain ⟨heap₀, t₀, hbuild, hinit⟩ := buildParallel_initial hinj hroom
  refine ⟨heap₀, t₀, hbuild, fun s hs id res hres => ?_⟩
  obtain ⟨u₀, h₀, hcont⟩ := hinit (config hash numThreads blockSize m heap₀ t₀ calls) rfl rfl rfl
  have hS := (rooted hinj h₀ hblock rfl hlen hfits hcont).serves
  obtain ⟨p, hp, hright⟩ := DB.results_right hS pushes hs hres
  exact ⟨p, hp, fun hdvd => hright (Or.inr hdvd)⟩

/-- A step that is tested as one of the scheduler by itself. -/
def allDoneStep (s : DB.State Shared DB.Client) : DB.Action Action → Bool
  | .db a => allDone s.db.scheduler a
  | _ => true

/-- Keys `9` and `7`, a query and an insertion, in one block. -/
def sample (numThreads : Nat) : DB.Server Shared Action DB.Client :=
  server (config id numThreads 2 2 (stacked 2).heap₀ (stacked 2).t₀ [.query 0 9, .insert 3])
    [.query 0 9, .insert 3]

/-- Both calls are made, and their tasks come to the end of the pipe. -/
def upToEnd : List (DB.Action Action) :=
  [.start, .begin, .begin, .db .master, .db .master, .push, .db .master, .db .master] ++
    List.replicate 6 (.db (.pipe 1)) ++ List.replicate 2 (.db .boarder)

/-- A query before an insertion, with two workers. -/
theorem answers_complete_two :
    ∃ s res, (DB.system 1 (sample 3)).Reachable s ∧ res ∈ s.queryProcessor.results 0 ∧
      res.ret.toNat = 2 := by
  obtain ⟨heap₀, t₀, hbuild, hright⟩ := answers_complete id Function.injective_id 3 2 2 (by decide)
    [7, 9] [.query 0 9, .insert 3] (by decide) (by unfold Fits reference; decide) 1
  obtain ⟨rfl, rfl⟩ : heap₀ = (stacked 2).heap₀ ∧ t₀ = (stacked 2).t₀ :=
    Prod.mk.inj (Option.some.inj (hbuild.symm.trans rfl))
  obtain ⟨heap₁, t₁, hbuild₁, hinit⟩ := buildParallel_initial Function.injective_id
    (show [(7 : UInt64), 9].length < 2 ^ 64 by decide)
  obtain ⟨rfl, rfl⟩ := Prod.mk.inj (Option.some.inj (hbuild.symm.trans hbuild₁))
  obtain ⟨u₀, h₀, -⟩ := hinit
    (config id 3 2 2 (stacked 2).heap₀ (stacked 2).t₀ [.query 0 9, .insert 3]) rfl rfl rfl
  have hrun : ((DB.system 1 (sample 3)).runIf allDoneStep
      (upToEnd ++ List.replicate 13 (.db (.worker 1)) ++ List.replicate 12 (.client 0 0))
      (DB.init (sample 3))).map (fun s => s.queryProcessor.results 0) = some [⟨1, 2⟩] := by
    decide +kernel
  obtain ⟨s, hrun, hres⟩ := Option.map_eq_some_iff.mp hrun
  have hgood : ∀ t a, (DB.system 1 (sample 3)).Reachable t → allDoneStep t a = true →
      DB.GoodStep (fun s a => EstimatesComplete s.scheduler a) t a := by
    rintro t a ht hok b rfl
    exact estimatesComplete_of_allDone h₀ (scheduler_reachable ht) hok
  have hreach := System.reach_of_runIf hgood .refl hrun
  have hmem : (⟨1, 2⟩ : QueryProcessor.ResultContext) ∈ s.queryProcessor.results 0 := by
    rw [hres]
    exact List.mem_singleton.mpr rfl
  obtain ⟨p, ⟨-, hp⟩, hcount⟩ := hright s hreach 0 _ hmem
  obtain rfl : (⟨1, 0, 9⟩ : DB.Pushed) = p := Option.some.inj hp
  exact ⟨s, _, hreach.steps, hmem, (hcount (by decide)).trans (by decide)⟩

/--
**With at most two threads whatever `Contreap` has stored for a query is right**, for any
number of clients and in any order of steps: it is how many elements in the range the calls
before the query leave.  Once `Close` has returned, exactly the answers to all queries are
stored if and only if the queue was being drained when `Stop` cleared the flag.  A point
query for a key that is not stored is never answered: its client follows the null pointer.
-/
theorem answers_alone (hash : UInt64 → UInt64) (hinj : Function.Injective hash)
    (numThreads blockSize m : Nat) (hthreads : numThreads ≤ 2) (hblock : 1 ≤ blockSize)
    (elems : List UInt64) (calls : List Call) (hlen : calls.length ≤ m) (hfits : Fits elems calls)
    (n : Nat) :
    ∃ heap₀ t₀, buildParallel hash ⟨#[]⟩ elems = some (heap₀, t₀) ∧
      (∀ s, (DB.system n (server (config hash numThreads blockSize m heap₀ t₀ calls) calls)).Reachable
          s → ∀ id, ∀ res ∈ s.queryProcessor.results id,
        1 ≤ res.ver ∧ (answers elems calls)[res.ver - 1]? = some res.ret.toNat) ∧
      ∀ s₁ s₂ s₃,
        (DB.system n (server (config hash numThreads blockSize m heap₀ t₀ calls) calls)).Reachable s₁ →
        (DB.system n (server (config hash numThreads blockSize m heap₀ t₀ calls) calls)).step s₁ .stop
          = some s₂ →
        (DB.system n (server (config hash numThreads blockSize m heap₀ t₀ calls) calls)).Steps s₂ s₃ →
        s₃.queryProcessor.pusher = .stopped →
        ((DB.stored n s₃.queryProcessor).Perm (expected elems calls) ↔
          QueryProcessor.Draining n s₁.queryProcessor) := by
  have hroom : elems.length < 2 ^ 64 := by
    simpa [reference] using hfits 0 (Nat.zero_le _)
  obtain ⟨heap₀, t₀, hbuild, hinit⟩ := buildParallel_initial hinj hroom
  refine ⟨heap₀, t₀, hbuild, ?_⟩
  obtain ⟨c, hc⟩ : ∃ c, c = config hash numThreads blockSize m heap₀ t₀ calls := ⟨_, rfl⟩
  have hone : c.numWorkers = 1 := hc ▸ decideNumWorkers_eq_one hthreads
  rw [← hc]
  obtain ⟨u₀, h₀, hcont⟩ := hinit c (hc ▸ rfl) (hc ▸ rfl) (hc ▸ rfl)
  have hS := (rooted (hc ▸ hinj) h₀ (hc ▸ hblock) (hc ▸ rfl) (hc ▸ hlen) hfits hcont).serves
  have hright : ∀ idx p, ∀ x : UInt64, DB.Issued (queries calls) idx p →
      (c.numWorkers = 1 ∨ ¬ c.blockSize ∣ p.ver → x.toNat = count elems calls p) →
      (answers elems calls)[idx - 1]? = some x.toNat :=
    fun _ _ _ hp hx => DB.answer_at hp (hx (Or.inl hone))
  refine ⟨fun s hs id res hres => ?_, fun s₁ s₂ s₃ hs hstop hafter hdone => ?_⟩
  · exact DB.results_answers hS pushes hright (good_alone h₀ hone .refl hs) hres
  · have hs₂ := hs.tail .stop trivial hstop
    exact DB.stored_iff_draining hS pushes hright (List.length_map _).symm
      (good_alone h₀ hone .refl hs) hstop (good_alone h₀ hone hs₂ hafter) hdone

/-- One worker, up to the end of `Close`. -/
theorem answers_alone_closed :
    ∃ s, (DB.system 1 (sample 2)).Reachable s ∧ s.queryProcessor.pusher = .stopped ∧
      (DB.stored 1 s.queryProcessor).Perm [(1, 2)] := by
  obtain ⟨heap₀, t₀, hbuild, -, hclose⟩ := answers_alone id Function.injective_id 2 2 2 (by decide)
    (by decide) [7, 9] [.query 0 9, .insert 3] (by decide) (by unfold Fits reference; decide) 1
  obtain ⟨rfl, rfl⟩ : heap₀ = (stacked 2).heap₀ ∧ t₀ = (stacked 2).t₀ :=
    Prod.mk.inj (Option.some.inj (hbuild.symm.trans rfl))
  have hrun : DB.closesInside 1 (sample 2)
      (upToEnd ++ List.replicate 16 (.db (.worker 1)) ++ List.replicate 3 (.db .collector) ++
        [.client 0 0])
      (List.replicate 13 (.client 0 0) ++ [.join, .join]) = some true := by decide +kernel
  obtain ⟨s₁, s₂, s₃, hs₁, hstop, hafter, hdone, hdrain⟩ :=
    DB.exists_of_closesInside Nat.one_pos hrun
  have hs₃ := (hs₁.tail .stop trivial hstop).trans hafter
  exact ⟨s₃, hs₃, hdone, (hclose s₁ s₂ s₃ hs₁ hstop hafter hdone).mpr hdrain⟩

end Contreap
