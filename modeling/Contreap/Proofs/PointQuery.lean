/-
Point queries against range queries of one key.

`find` returns a node, or the null pointer when the key is not there, and the callers of
the treap read the counter of what it returns.  So a point query is answered for the
keys that are stored, with the sum over the range of that one key, and for no other.

In the concurrent treap a snapshot may be read before its version is complete, and the
client reads node by node while the scheduler's threads go on.  What the pointer it has
come to stands for does not change under it (`Seeks`), so that a search can go wrong in one
way only: it takes a field of a node that the task there has still to write (`Early`).
Then it is lost (`Lost`), for the field is a null link or a counter that is not the
final one.  `pam` returns the counter from the search itself, and `0` where there is none.
-/
import Contreap.Proofs.Sequential
import Contreap.Model.Servers
import Contreap.Proofs.Scheduler.Reading
import Contreap.Proofs.Scheduler.Snapshot
import Contreap.Proofs.Batch.Versions

open BinaryTree Cartesian PtrHeap

/-! ### The range of one key -/

namespace Treap

variable {hash : UInt64 → UInt64} {t : BinaryTree Datum} {d : Datum} {k : UInt64} {s : Store} {p : Ptr}

theorem countRange_self (k : UInt64) (M : Multiset UInt64) : countRange k k M = M.count k := by
  unfold countRange Multiset.count
  refine Multiset.countP_congr rfl fun x _ => ?_
  exact propext ⟨fun h => le_antisymm h.1 h.2, fun h => ⟨h.le, h.ge⟩⟩

/-- The sum over the range of a stored key is its counter. -/
theorem WellFormed.sumRange_self (ht : WellFormed hash t) (hroom : (contents t).card < 2 ^ 64)
    (hd : find? Datum.key k t = some d) : sumRange k k t = d.val := by
  rw [← UInt64.toNat_inj, toNat_sumRange k k hroom, countRange_self, ← key_of_find? hd]
  exact ht.count_eq d (mem_of_find? hd)

theorem WellFormed.find?_eq_none_iff (ht : WellFormed hash t) :
    find? Datum.key k t = none ↔ k ∉ contents t := by
  rw [ht.mem_contents_iff, ht.treap.mem_keys_iff, Option.not_isSome_iff_eq_none]

end Treap

/-! ### `Sequential` -/

namespace Sequential

open Treap

variable {hash : UInt64 → UInt64} {elems : List UInt64} {cs : List Call} {m i : Nat} {db : DB}

/-- **A version answers for the keys it stores**, and for no other key. -/
theorem point_iff (h : Tracks hash m elems cs db) (hi : i ≤ cs.length)
    (hroom : (reference elems (cs.take i)).card < 2 ^ 64) (l : UInt64) :
    (∃ x, processorFunction db i l l = some x ∧ estimate db i l l = some x) ↔
      l ∈ reference elems (cs.take i) := by
  obtain ⟨p, hp, u, hu, hsum, hwf, hcont⟩ := h.roots i hi
  have hshow : Shows layout db.store p (map Prod.fst u) := hu.map Prod.fst
  have hissued : ¬ db.numVersions < i := by
    rw [h.versions]
    omega
  have hest : estimate db i l l = some (sumRange l l (map Prod.fst u)) := by
    simp only [estimate, hp, Option.bind_eq_bind, Option.bind_some]
    exact rangeEstimate_spec l l hu hsum hwf.treap.search trivial (Nat.lt_succ_of_le hu.height_le)
  have hfind := find_spec l hshow (Nat.lt_succ_of_le hshow.height_le)
  rw [← hcont] at hroom ⊢
  simp only [processorFunction, if_neg hissued, hp, Option.bind_eq_bind, Option.bind_some, hest,
    if_true]
  rcases hfind with ⟨hnone, hrun⟩ | ⟨d, a, n, hd, hrun, hn, rfl⟩
  · have hnot := hwf.find?_eq_none_iff.mp hnone
    refine iff_of_false ?_ hnot
    rintro ⟨x, hx, -⟩
    rw [recursionBound, hrun] at hx
    cases hx
  · refine iff_of_true ⟨_, ?_, congrArg some (hwf.sumRange_self hroom hd)⟩ ?_
    · rw [recursionBound, hrun, Option.bind_some, Option.bind_some, hn, Option.bind_some]
      rfl
    · by_contra hnot
      rw [hwf.find?_eq_none_iff.mpr hnot] at hd
      cases hd

end Sequential

/-! ### `Contreap`

A client reads one node after the other, and the threads go on in between.  As long as no
read is too early the search is in the tree of the version (`Seeks`); the first one that
is too early ends it at the null pointer, or with a counter that is not the node's.
-/

namespace Contreap

open Treap Scheduler Transition

variable {c : Config} {t₀ : BinaryTree Datum} {s₀ s s' : Asked} {steps : Nat → Nat} {v n : Nat}
  {l : UInt64} {goal : Option Datum} {turn : Turn} {k k' : DB.Client} {act : Action}
  {u₀ : BinaryTree (Datum × UInt64)}

/-- The client's search takes a field that a running task has still to write. -/
def Early (c : Config) (s : Asked) : Turn → Prop
  | .thread _ => False
  | .client m =>
      match s.client with
      | .read (.find (some a) key) => Unwritten c s.scheduler m key a
      | _ => False

/-- It can be tested along a run. -/
instance : Decidable (Early c s turn) :=
  match turn with
  | .thread _ => inferInstanceAs (Decidable False)
  | .client m =>
      match s with
      | ⟨t, .read (.find (some a) key)⟩ => inferInstanceAs (Decidable (Unwritten c t m key a))
      | ⟨_, .read (.find none _)⟩ | ⟨_, .read (.estimate ..)⟩ | ⟨_, .read (.done _)⟩
      | ⟨_, .read .fault⟩ | ⟨_, .idle⟩ | ⟨_, .wait _⟩ => inferInstanceAs (Decidable False)

/-- A client on its way to what `goal` says, with `n` reads at the most to come. -/
inductive Seeks (s : Scheduler.State) (steps : Nat → Nat) (v : Nat) (l : UInt64)
    (t : BinaryTree Datum) (goal : Option Datum) : Nat → DB.Client → Prop
  | wait {n : Nat} (hn : t.height + 2 ≤ n) : Seeks s steps v l t goal n (.wait ⟨v, l, l⟩)
  | find {n m : Nat} {p : Ptr} {t' : BinaryTree Datum} (hp : Plan s.heap s.ctxs steps m p t')
      (hgoal : find? Datum.key l t' = goal) (hn : t'.height + 1 ≤ n) :
      Seeks s steps v l t goal n (.read (.find p l))
  | found {n : Nat} {d : Datum} (hgoal : goal = some d) :
      Seeks s steps v l t goal n (.read (.done d.val))
  | missing {n : Nat} (hgoal : goal = none) : Seeks s steps v l t goal n (.read .fault)

/-- A client whose search a read that was too early has led away. -/
inductive Lost (l : UInt64) (goal : Option Datum) : Nat → DB.Client → Prop
  | null {n : Nat} (hn : 1 ≤ n) : Lost l goal n (.read (.find none l))
  | fault {n : Nat} : Lost l goal n (.read .fault)
  | wrong {n : Nat} {d : Datum} {x : UInt64} (hgoal : goal = some d) (hne : x ≠ d.val) :
      Lost l goal n (.read (.done x))

/-- The scheduler is in order, and the client on its way. -/
def OnCourse (c : Config) (t₀ : BinaryTree Datum) (v : Nat) (l : UInt64) (n : Nat) (s : Asked) :
    Prop :=
  ∃ steps, Inv c (versionTree c t₀) s.scheduler steps ∧ v ≤ s.scheduler.numIssued ∧
    Seeks s.scheduler steps v l (versionTree c t₀ v) (find? Datum.key l (versionTree c t₀ v)) n
      s.client

/-- **A thread's step leaves the client on its way.** -/
theorem OnCourse.thread (h₀ : VerBound 0 t₀) (h : OnCourse c t₀ v l n s)
    {t : Scheduler.State} (hstep : Scheduler.step c s.scheduler act = some t) :
    OnCourse c t₀ v l n { s with scheduler := t } := by
  obtain ⟨steps, hinv, hv, hseeks⟩ := h
  obtain ⟨steps', hinv', hchange⟩ := inv_step hinv h₀ hstep
  refine ⟨steps', hinv', hv.trans (hchange.later hinv).issued, ?_⟩
  revert hseeks
  generalize s.client = k
  intro hseeks
  cases hseeks with
  | wait hn => exact .wait hn
  | find hp hgoal hn => exact .find (hchange.plans hinv hp) hgoal hn
  | found hgoal => exact .found hgoal
  | missing hgoal => exact .missing hgoal

/-- What a search goes on with at a node: it takes a child or the counter, unless that has
still to be written. -/
theorem seeks_next {t : Scheduler.State} {un : Prop} {y : Node} {t' u : BinaryTree Datum}
    (h : Offers t steps un l y t') (hgoal : find? Datum.key l t' = goal) (hn : t'.height + 1 ≤ n)
    (hk : k = .read (if l = y.key then .done y.val
      else .find (if l < y.key then y.lch else y.rch) l)) :
    (¬ un ∧ ∃ n', n' + 1 ≤ n ∧ Seeks t steps v l u goal n' k) ∨
      un ∧ ∃ n', n' + 1 ≤ n ∧ Lost l goal n' k := by
  obtain ⟨d, tl, tr, rfl, hkey, hself, hleft, hright⟩ := h
  simp only [height] at hn
  rw [hkey] at hk
  rcases lt_trichotomy l d.key with hlt | rfl | hlt
  · rw [find?_of_lt hlt] at hgoal
    rw [if_neg hlt.ne, if_pos hlt] at hk
    subst hk
    by_cases hun : un
    · rw [(hleft hlt).2 hun]
      exact Or.inr ⟨hun, 1, by omega, .null (Nat.le_refl 1)⟩
    · obtain ⟨m, hchild⟩ := (hleft hlt).1 hun
      exact Or.inl ⟨hun, tl.height + 1, by omega, .find hchild hgoal (Nat.le_refl _)⟩
  · rw [find?_root] at hgoal
    rw [if_pos rfl] at hk
    subst hk
    by_cases hun : un
    · exact Or.inr ⟨hun, 0, by omega, .wrong hgoal.symm ((hself rfl).mp hun)⟩
    · have hval : y.val = d.val := not_not.mp fun hne => hun ((hself rfl).mpr hne)
      rw [hval]
      exact Or.inl ⟨hun, 0, by omega, .found hgoal.symm⟩
  · rw [find?_of_gt hlt] at hgoal
    rw [if_neg hlt.ne', if_neg hlt.not_gt] at hk
    subst hk
    by_cases hun : un
    · rw [(hright hlt).2 hun]
      exact Or.inr ⟨hun, 1, by omega, .null (Nat.le_refl 1)⟩
    · obtain ⟨m, hchild⟩ := (hright hlt).1 hun
      exact Or.inl ⟨hun, tr.height + 1, by omega, .find hchild hgoal (Nat.le_refl _)⟩

/-- **A read takes the client on, or astray if it is too early.** -/
theorem OnCourse.client {m : Moment} (h : OnCourse c t₀ v l n s)
    (hstep : askedStep c s (.client m) = some s') :
    (¬ Early c s (.client m) ∧ ∃ n', n' + 1 ≤ n ∧ OnCourse c t₀ v l n' s') ∨
      Early c s (.client m) ∧
        ∃ n', n' + 1 ≤ n ∧ Lost l (find? Datum.key l (versionTree c t₀ v)) n' s'.client := by
  obtain ⟨steps, hinv, hv, hseeks⟩ := h
  obtain ⟨heap, hseen, hwork⟩ := Option.bind_eq_some_iff.mp hstep
  obtain ⟨k', hk', hs'⟩ := Option.bind_eq_some_iff.mp hwork
  obtain rfl := Option.some.inj hs'
  obtain ⟨s, k⟩ := s
  generalize hgoal₀ : find? Datum.key l (versionTree c t₀ v) = goal at hseeks ⊢
  cases hseeks with
  | wait hn =>
      -- The wait is over, and the client is at the root of the version.
      obtain ⟨p, hget, rfl⟩ := Option.map_eq_some_iff.mp hk'
      have hroot : (s.ctxs v).root = p := by
        rw [getSnapshot, if_neg (Nat.not_lt.mpr hv)] at hget
        split at hget
        · exact Option.some.inj hget
        · cases hget
      have hplan := hinv.trees.roots v hv
      rw [hroot] at hplan
      refine Or.inl ⟨not_false, _, hn, steps, hinv, hv, ?_⟩
      rw [hgoal₀, Reader.query, if_pos rfl]
      exact .find hplan hgoal₀ (Nat.le_refl _)
  | @find m' p t' hp hgoal hn =>
      obtain ⟨k, hread, rfl⟩ := Option.map_eq_some_iff.mp hk'
      cases p with
      | none =>
          obtain rfl := Option.some.inj hread
          -- It has come to the null pointer in the tree of the version: the key is not there.
          obtain rfl := hp.of_none
          refine Or.inl ⟨not_false, 0, by omega, steps, hinv, hv, ?_⟩
          rw [hgoal₀]
          exact .missing hgoal.symm
      | some a =>
          obtain ⟨y, hy, hoffers⟩ := hinv.read hp hseen l
          simp only [Reader.step, hy, Option.bind_eq_bind, Option.bind_some,
            Option.some.injEq] at hread
          subst hread
          obtain ⟨hun, n', hn', hnext⟩ | ⟨hun, n', hn', hlost⟩ :=
            seeks_next (v := v) (u := versionTree c t₀ v) hoffers hgoal hn rfl
          · refine Or.inl ⟨hun, n', hn', steps, hinv, hv, ?_⟩
            rw [hgoal₀]
            exact hnext
          · exact Or.inr ⟨hun, n', hn', hlost⟩
  | found hgoal => cases hk'
  | missing hgoal => cases hk'

/-- A search that has gone astray never comes to what it was to find. -/
theorem Lost.client {m : Moment} (h : Lost l goal n s.client)
    (hstep : askedStep c s (.client m) = some s') : ∃ n', n' + 1 ≤ n ∧ Lost l goal n' s'.client := by
  obtain ⟨heap, -, hwork⟩ := Option.bind_eq_some_iff.mp hstep
  obtain ⟨k', hk', hs'⟩ := Option.bind_eq_some_iff.mp hwork
  obtain rfl := Option.some.inj hs'
  obtain ⟨s, k⟩ := s
  cases h with
  | null hn =>
      have hfault : some (DB.Client.read .fault) = some k' := hk'
      cases hfault
      exact ⟨0, hn, .fault⟩
  | fault => cases hk'
  | wrong hgoal hne => cases hk'

/-- **What a run of the client comes to.**  It takes no more reads than the tree is high, and
two; and it is on its way until a read is too early, and astray from then on. -/
theorem asked_course (h₀ : VerBound 0 t₀) {t : Scheduler.State}
    (hinv : Inv c (versionTree c t₀) t steps) (hv : v ≤ t.numIssued) (l : UInt64)
    {turns : List Turn} (hrun : (asked c t ⟨v, l, l⟩).run turns ⟨t, .wait ⟨v, l, l⟩⟩ = some s) :
    ∃ n, n + (turns.map Turn.reads).sum ≤ (versionTree c t₀ v).height + 2 ∧
      ((asked c t ⟨v, l, l⟩).Meets (fun s a => ¬ Early c s a) turns ⟨t, .wait ⟨v, l, l⟩⟩ ∧
          OnCourse c t₀ v l n s ∨
        ¬ (asked c t ⟨v, l, l⟩).Meets (fun s a => ¬ Early c s a) turns ⟨t, .wait ⟨v, l, l⟩⟩ ∧
          Lost l (find? Datum.key l (versionTree c t₀ v)) n s.client) := by
  refine System.run_course Turn.reads (OnCourse c t₀ v l)
    (fun n s => Lost l (find? Datum.key l (versionTree c t₀ v)) n s.client)
    (fun {n s turn s'} h hgood hstep => ?_) (fun {n s turn s'} h hbad hstep => ?_)
    (fun {n s turn s'} h hstep => ?_) hrun ⟨steps, hinv, hv, .wait (Nat.le_refl _)⟩
  · cases turn with
    | thread a =>
        obtain ⟨t', ht', rfl⟩ := Option.map_eq_some_iff.mp hstep
        exact ⟨n, Nat.le_refl n, h.thread h₀ ht'⟩
    | client m =>
        rcases h.client hstep with ⟨-, n', hn', h'⟩ | ⟨hearly, -⟩
        · exact ⟨n', hn', h'⟩
        · exact absurd hearly hgood
  · cases turn with
    | thread a => exact absurd not_false hbad
    | client m =>
        rcases h.client hstep with ⟨htime, -⟩ | ⟨-, n', hn', h'⟩
        · exact absurd htime hbad
        · exact ⟨n', hn', h'⟩
  · cases turn with
    | thread a =>
        obtain ⟨t', -, rfl⟩ := Option.map_eq_some_iff.mp hstep
        exact ⟨n, Nat.le_refl n, h⟩
    | client m => exact h.client hstep

/-- A client that has not ended can go on, or waits for the snapshot. -/
theorem OnCourse.goes_on (h : OnCourse c t₀ v l n s) :
    s.client.ended = true ∨ (askedStep c s (.client .between)).isSome ∨
      s.client = .wait ⟨v, l, l⟩ ∧ getSnapshot c s.scheduler v = none := by
  obtain ⟨steps, hinv, -, hseeks⟩ := h
  obtain ⟨s, k⟩ := s
  cases hseeks with
  | wait hn =>
      cases hget : getSnapshot c s v with
      | none => exact Or.inr (Or.inr ⟨rfl, rfl⟩)
      | some p =>
          refine Or.inr (Or.inl ?_)
          simp [askedStep, seen, DB.Client.work, hget]
  | @find m' p t' hp hgoal hn =>
      refine Or.inr (Or.inl ?_)
      cases p with
      | none => simp [askedStep, seen, DB.Client.work, Reader.step]
      | some a =>
          obtain ⟨x, tl, tr, hx, -⟩ := hp.of_some
          simp [askedStep, seen, DB.Client.work, Reader.step, hx]
  | found hgoal => exact Or.inl rfl
  | missing hgoal => exact Or.inl rfl

theorem Lost.goes_on (h : Lost l goal n s.client) :
    s.client.ended = true ∨ (askedStep c s (.client .between)).isSome := by
  obtain ⟨s, k⟩ := s
  cases h with
  | null hn =>
      refine Or.inr ?_
      simp [askedStep, seen, DB.Client.work, Reader.step]
  | fault => exact Or.inl rfl
  | wrong hgoal hne => exact Or.inl rfl

section
variable (hinj : Function.Injective c.hash) (h₀ : Initial c u₀) {t : Scheduler.State}
  (ht : (Scheduler.system c).Reachable t) (hv : v ≤ t.numIssued)
  (hfits : ∀ i ≤ v, (stored (contents (map Prod.fst u₀)) (c.ops.take i)).card < 2 ^ 64)
include hinj h₀ ht hv hfits

/-- **A client has the answer of a stored key**, as far as it reads nothing too early, and of
no other key. -/
theorem point_iff (l : UInt64) {turns : List Turn} {s : Asked}
    (hrun : (asked c t ⟨v, l, l⟩).run turns ⟨t, .wait ⟨v, l, l⟩⟩ = some s) :
    (turns.map Turn.reads).sum ≤ (map Prod.fst u₀).numNodes + v + 2 ∧
      (s.client.ended = true ∨ (askedStep c s (.client .between)).isSome ∨
        s.client = .wait ⟨v, l, l⟩ ∧ getSnapshot c s.scheduler v = none) ∧
      (s.client.ended = true → (s.client.ret = some (UInt64.ofNat
          ((stored (contents (map Prod.fst u₀)) (c.ops.take v)).count l)) ↔
        l ∈ stored (contents (map Prod.fst u₀)) (c.ops.take v) ∧
          (asked c t ⟨v, l, l⟩).Meets (fun s a => ¬ Early c s a) turns ⟨t, .wait ⟨v, l, l⟩⟩)) := by
  obtain ⟨steps, hinv⟩ := inv_reachable (h₀.shows.map Prod.fst) h₀.verBound ht
  obtain ⟨hwf, hcont⟩ := versionTree_stored hinj h₀.wellFormed v hfits
  obtain ⟨n, hreads, hcourse⟩ := asked_course h₀.verBound hinv hv l hrun
  have hheight : (versionTree c (map Prod.fst u₀) v).height ≤ (map Prod.fst u₀).numNodes + v :=
    (height_le_numNodes _).trans (numNodes_versionTree_le c (map Prod.fst u₀) v)
  have hmem := hwf.find?_eq_none_iff (k := l)
  rw [hcont] at hmem
  -- The counter of a stored key says how often it is there.
  have hval : ∀ {d : Datum}, find? Datum.key l (versionTree c (map Prod.fst u₀) v) = some d →
      d.val = UInt64.ofNat ((stored (contents (map Prod.fst u₀)) (c.ops.take v)).count l) := by
    intro d hd
    rw [← hcont, ← key_of_find? hd, hwf.count_eq d (mem_of_find? hd), UInt64.ofNat_toNat]
  have hstored : ∀ {d : Datum}, find? Datum.key l (versionTree c (map Prod.fst u₀) v) = some d →
      l ∈ stored (contents (map Prod.fst u₀)) (c.ops.take v) := by
    intro d hd
    by_contra hnot
    rw [hmem.mpr hnot] at hd
    cases hd
  refine ⟨by omega, ?_, fun hended => ?_⟩
  · rcases hcourse with ⟨-, h⟩ | ⟨-, h⟩
    · exact h.goes_on
    · exact h.goes_on.imp_right Or.inl
  · obtain ⟨s, k⟩ := s
    rcases hcourse with ⟨htime, _, _, _, h⟩ | ⟨hearly, h⟩
    · rw [and_iff_left htime]
      cases h with
      | wait hn => cases hended
      | find hp hgoal hn => cases hended
      | found hgoal => exact iff_of_true (congrArg some (hval hgoal)) (hstored hgoal)
      | missing hgoal => exact iff_of_false (fun hret => by cases hret) (hmem.mp hgoal)
    · refine iff_of_false (fun hret => ?_) fun hboth => hearly hboth.2
      cases h with
      | null hn => cases hended
      | fault => cases hret
      | wrong hgoal hne => exact hne ((Option.some.inj hret).trans (hval hgoal).symm)

/-- The sum over the range of one key, at the root of a version that is complete. -/
theorem point_estimate (l : UInt64) {s : Scheduler.State} (hs : (Scheduler.system c).Steps t s)
    (hdone : ∀ w ≤ v, (s.ctxs w).st = .done) {u : BinaryTree (Datum × UInt64)}
    (hu : Shows audited s.heap (t.ctxs v).root u) (hsum : Summed u) :
    rangeEstimateOpen s.heap (t.ctxs v).root l l = some (UInt64.ofNat
      ((stored (contents (map Prod.fst u₀)) (c.ops.take v)).count l)) := by
  obtain ⟨steps, hinv⟩ := inv_reachable (h₀.shows.map Prod.fst) h₀.verBound ht
  obtain ⟨⟨steps', hinv'⟩, hlater⟩ := inv_later h₀.verBound hinv hs
  obtain ⟨hwf, hcont⟩ := versionTree_stored hinj h₀.wellFormed v hfits
  have hshow := (hinv'.shows_version h₀.verBound (hv.trans hlater.issued) hdone).shows
  rw [hlater.root v hv] at hshow
  have htree : map Prod.fst u = versionTree c (map Prod.fst u₀) v :=
    Rep.unique (L := layout) (hu.map Prod.fst) hshow
  have hroom := hfits v (Nat.le_refl v)
  rw [← hcont] at hroom
  have hest : rangeEstimateOpen s.heap (t.ctxs v).root l l
      = some (sumRange l l (map Prod.fst u)) :=
    rangeEstimate_spec l l hu hsum (htree ▸ hwf.treap.search) trivial
      (Nat.lt_succ_of_le hu.height_le)
  rw [hest, htree, ← hcont, ← countRange_self, ← toNat_sumRange l l hroom, UInt64.ofNat_toNat]

end

end Contreap

/-! ### `Batch`

`pam::find` returns a counter and no node, and `0` where there is no node, so there is
nothing to go wrong.
-/

namespace Pam

variable {hash : UInt64 → UInt64} {t : Tree} {s : Store} {p : Ptr}

/-- The sum over the range of one key is what is found of it. -/
theorem sumWhere_self (ht : IsTreap Datum.key Datum.pry hash t) (v : Nat) (k : UInt64) :
    sumWhere (InRange k k) v t = findTree v k t := by
  have hrange : ∀ x, InRange k k x ↔ x = k := fun x =>
    ⟨fun h => le_antisymm h.2 h.1, fun h => ⟨h.ge, h.le⟩⟩
  rw [sumWhere_eq_sum ht (insert k (keys Datum.key t).toFinset) fun x hx =>
    Finset.mem_insert_of_mem (List.mem_toFinset.mpr hx)]
  refine Finset.sum_eq_single k (fun x hx hne => ?_) fun hnot => ?_
  · exact absurd ((hrange x).mp (Finset.mem_filter.mp hx).2) hne
  · exact absurd (Finset.mem_filter.mpr ⟨Finset.mem_insert_self _ _, (hrange k).mpr rfl⟩) hnot

theorem point_eq (hp : Shows layout s p t) (ht : WellFormed hash t) (v : Nat) (l : UInt64) :
    ∃ x, Interface.find s p v l = some x ∧ Interface.rangeEstimate s p v l l = some x :=
  ⟨_, interface_find hp v l,
    (interface_rangeEstimate hp ht v l l).trans (congrArg some (sumWhere_self ht.treap v l))⟩

end Pam

/-! ### The three databases -/

namespace DB

open Treap

/--
**Point queries agree with range queries** of one key for the keys that are stored.

In `Sequential` the answer of a version is there, and is the sum over the range, if and
only if the key is stored at the version.

In `Contreap` a client asks for a version that has been issued, and goes through the tree
read by read while all threads go on.  It comes to an end after a bounded number of reads;
and the answer it has then is the one that the sum over the range has once the version is
complete and augmented, if and only if the key is stored at the version and no read of
the run takes a field that a running task has still to write.

In `Batch` the two agree for every root of the list and every version.
-/
theorem point_queries (hash : UInt64 → UInt64) (hinj : Function.Injective hash)
    (elems : List UInt64) :
    (∀ m cs, cs.length ≤ m → Sequential.Fits elems cs →
      ∃ db₀ db, Sequential.init hash m elems = some db₀ ∧ Sequential.calls hash db₀ cs = some db ∧
        ∀ i ≤ cs.length, ∀ l, (∃ x, Sequential.processorFunction db i l l = some x ∧
          Sequential.estimate db i l l = some x) ↔ l ∈ Sequential.reference elems (cs.take i)) ∧
    (∀ (c : Scheduler.Config) u₀ t v, c.hash = hash → Scheduler.Initial c u₀ →
      (Scheduler.system c).Reachable t → v ≤ t.numIssued →
      (∀ i ≤ v, (Scheduler.stored (contents (map Prod.fst u₀)) (c.ops.take i)).card < 2 ^ 64) →
      ∀ l,
        (∀ turns s, (Contreap.asked c t ⟨v, l, l⟩).run turns (Contreap.asked c t ⟨v, l, l⟩).init
            = some s →
          (turns.map Contreap.Turn.reads).sum ≤ (map Prod.fst u₀).numNodes + v + 2 ∧
          (s.client.ended = true ∨ (Contreap.askedStep c s (.client .between)).isSome ∨
            s.client = .wait ⟨v, l, l⟩ ∧ Scheduler.getSnapshot c s.scheduler v = none) ∧
          (s.client.ended = true → (s.client.ret = some (UInt64.ofNat
              ((Scheduler.stored (contents (map Prod.fst u₀)) (c.ops.take v)).count l)) ↔
            l ∈ Scheduler.stored (contents (map Prod.fst u₀)) (c.ops.take v) ∧
              (Contreap.asked c t ⟨v, l, l⟩).Meets (fun s a => ¬ Contreap.Early c s a) turns
                (Contreap.asked c t ⟨v, l, l⟩).init))) ∧
        ∀ s, (Scheduler.system c).Steps t s → (∀ w ≤ v, (s.ctxs w).st = .done) →
          ∀ u, Shows audited s.heap (t.ctxs v).root u → Summed u →
            rangeEstimateOpen s.heap (t.ctxs v).root l l = some (UInt64.ofNat
              ((Scheduler.stored (contents (map Prod.fst u₀)) (c.ops.take v)).count l))) ∧
    ∀ batchSize mem mem₀ t₀, (Pam.interface hash).build mem elems = some (mem₀, t₀) →
      ∀ s, (Batch.system (Pam.interface hash) batchSize mem₀ t₀).Reachable s →
      ∀ a e, s.db.store.get? a = some e → ∀ v l, ∃ x,
        (Pam.interface hash).find s.db.mem e.t v l = some x ∧
        (Pam.interface hash).rangeEstimate s.db.mem e.t v l l = some x := by
  refine ⟨fun m cs hlen hfits => ?_, fun c u₀ t v hhash h₀ ht hv hfits l => ⟨fun turns s hrun => ?_,
    fun s hs hdone u hu hsum => ?_⟩, fun batchSize mem mem₀ t₀ hbuild s hs a e he v l => ?_⟩
  · have hroom : elems.length < 2 ^ 64 := by
      simpa [Sequential.reference] using hfits 0 (Nat.zero_le _)
    obtain ⟨db₀, hinit, h₀⟩ := Sequential.init_tracks hinj m elems hroom
    obtain ⟨db, hrun, h⟩ := Sequential.calls_tracks hinj cs h₀ (by simpa using hlen) hfits
    rw [List.nil_append] at h
    exact ⟨db₀, db, hinit, hrun, fun i hi l => Sequential.point_iff h hi (hfits i hi) l⟩
  · subst hhash
    exact Contreap.point_iff hinj h₀ ht hv hfits l hrun
  · subst hhash
    exact Contreap.point_estimate hinj h₀ ht hv hfits l hs hdone hu hsum
  · obtain ⟨t, ht, hver, -⟩ := (Batch.versions_reachable hinj hbuild hs).entries a e he
    exact Pam.point_eq ht hver.wellFormed v l

/-- Stored keys, one by one, in a version; and a client that comes to a node just after the
task there has linked it. -/
theorem point_queries_stored :
    (∃ db₀ db x y, Sequential.init id 2 [3, 3] = some db₀ ∧
      Sequential.calls id db₀ [.insert 9, .delete 3] = some db ∧
      Sequential.processorFunction db 2 9 9 = some x ∧ Sequential.estimate db 2 9 9 = some x ∧
      Sequential.processorFunction db 2 3 3 = some y ∧ Sequential.estimate db 2 3 3 = some y) ∧
    ∃ t s, (Scheduler.system (Scheduler.stacked 2)).Reachable t ∧ (t.ctxs 1).st = .running ∧
      (Contreap.asked (Scheduler.stacked 2) t ⟨1, 3, 3⟩).run
        (List.replicate 2 (.client .between) ++ List.replicate 3 (.thread (.worker 2)) ++
          List.replicate 2 (.client .between))
        (Contreap.asked (Scheduler.stacked 2) t ⟨1, 3, 3⟩).init = some s ∧
      s.client.ret = some 1 := by
  obtain ⟨hseq, hcon, -⟩ := point_queries id Function.injective_id [3, 3]
  constructor
  · obtain ⟨db₀, db, hinit, hrun, hpoint⟩ := hseq 2 [.insert 9, .delete 3] (by decide)
      (by unfold Sequential.Fits Sequential.reference; decide)
    obtain ⟨x, hx, hx'⟩ := (hpoint 2 (by decide) 9).mpr (by unfold Sequential.reference; decide)
    obtain ⟨y, hy, hy'⟩ := (hpoint 2 (by decide) 3).mpr (by unfold Sequential.reference; decide)
    exact ⟨db₀, db, x, y, hinit, hrun, hx, hx', hy, hy'⟩
  · obtain ⟨t, hrun, s, hclient, hended, hissued, hstate⟩ :
        ∃ t ∈ (Scheduler.system (Scheduler.stacked 2)).run
          (Scheduler.bothSubmitted ++ [.worker 2] ++ List.replicate 7 (.worker 1))
          (Scheduler.init (Scheduler.stacked 2)),
        ∃ s ∈ (Contreap.asked (Scheduler.stacked 2) t ⟨1, 3, 3⟩).runIf
          (fun s a => ¬ Contreap.Early (Scheduler.stacked 2) s a)
          (List.replicate 2 (.client .between) ++ List.replicate 3 (.thread (.worker 2)) ++
            List.replicate 2 (.client .between))
          (Contreap.asked (Scheduler.stacked 2) t ⟨1, 3, 3⟩).init,
        s.client.ended = true ∧ t.numIssued = 2 ∧ (t.ctxs 1).st = .running := by decide +kernel
    have hreach : (Scheduler.system (Scheduler.stacked 2)).Reachable t :=
      Transition.System.reach_of_run hrun
    obtain ⟨hturns, hmeets⟩ :=
      Transition.System.meets_of_runIf (fun _ _ htime => of_decide_eq_true htime) hclient
    obtain ⟨hpoint, -⟩ := hcon (Scheduler.stacked 2) _ t 1 rfl (Scheduler.stacked_initial 2) hreach
      (by omega) (by decide) 3
    obtain ⟨-, -, hiff⟩ := hpoint _ s hturns
    exact ⟨t, s, hreach, hstate, hturns, (hiff hended).mpr ⟨by decide, hmeets⟩⟩

/-- A key that is not stored, in both databases: the sum is `0`, and the point query reads
through the null pointer.  So it does for a stored key when the client comes to a node
whose task has not linked it. -/
theorem point_queries_fail :
    (∃ db₀ db, Sequential.init id 1 [5] = some db₀ ∧
      Sequential.calls id db₀ [.query 7 7] = some db ∧
      Sequential.processorFunction db 1 7 7 = none ∧ Sequential.estimate db 1 7 7 = some 0) ∧
    (∃ t s, (Scheduler.system (Scheduler.stacked 1)).Reachable t ∧ 1 ≤ t.numIssued ∧
      (Contreap.asked (Scheduler.stacked 1) t ⟨1, 8, 8⟩).run (List.replicate 4 (.client .between))
        (Contreap.asked (Scheduler.stacked 1) t ⟨1, 8, 8⟩).init = some s ∧
      s.client = .read .fault ∧ rangeEstimateOpen t.heap (t.ctxs 1).root 8 8 = some 0) ∧
    ∃ t s, (Scheduler.system (Scheduler.stacked 2)).Reachable t ∧ 1 ≤ t.numIssued ∧
      (Contreap.asked (Scheduler.stacked 2) t ⟨1, 3, 3⟩).run (List.replicate 4 (.client .between))
        (Contreap.asked (Scheduler.stacked 2) t ⟨1, 3, 3⟩).init = some s ∧
      s.client = .read .fault ∧ 3 ∈ Scheduler.stored {9, 7} ((Scheduler.stacked 2).ops.take 1) := by
  refine ⟨⟨_, _, rfl, rfl, rfl, rfl⟩, ?_, ?_⟩
  · obtain ⟨t, hrun⟩ : ∃ t, (Scheduler.system (Scheduler.stacked 1)).run
        (Scheduler.bothSubmitted ++ List.replicate 13 (.worker 1))
        (Scheduler.init (Scheduler.stacked 1)) = some t := ⟨_, rfl⟩
    have hreach : (Scheduler.system (Scheduler.stacked 1)).Reachable t :=
      Transition.System.reach_of_run hrun
    cases hrun
    exact ⟨_, _, hreach, by decide, rfl, rfl, rfl⟩
  · obtain ⟨t, hrun⟩ : ∃ t, (Scheduler.system (Scheduler.stacked 2)).run
        (Scheduler.bothSubmitted ++ [.worker 2] ++ List.replicate 7 (.worker 1))
        (Scheduler.init (Scheduler.stacked 2)) = some t := ⟨_, rfl⟩
    have hreach : (Scheduler.system (Scheduler.stacked 2)).Reachable t :=
      Transition.System.reach_of_run hrun
    cases hrun
    exact ⟨_, _, hreach, by decide, rfl, rfl, by decide⟩

end DB
