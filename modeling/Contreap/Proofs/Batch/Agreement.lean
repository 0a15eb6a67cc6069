/-
When `DB::Batch` and `DB::Sequential` answer a query alike.

`Sequential` takes one element of a key away where a batch takes the key away, and a
batch that has a key only after the version of a query has replaced the node that
counted it before (`Hidden`).  So what `Batch` counts of a key is never more than what
`Sequential` counts, and equal to it under a condition on the calls (`Clean`).  The
sums over a range, far from overflowing, are equal if and only if they are equal key
by key.
-/
import Contreap.Proofs.Batch.Versions
import Contreap.Proofs.Sequential
import Mathlib.Algebra.Order.BigOperators.Group.Finset
import Mathlib.Algebra.BigOperators.Ring.Finset

namespace Batch

open Cartesian PtrHeap Transition
open Pam (Store Tree Call layout findTree sumWhere InRange valueOf entryAfter firstEntry batchCalls
  readBatch)
open Sequential (reference Fits)
open scoped UInt64.CommRing

variable {hash : UInt64 → UInt64} {elems es : List UInt64} {us : List Call} {W cs : List Sequential.Call}
  {n ver v w : Nat} {k : UInt64} {o : Option Pam.ValVer} {type : Operation}
  {db : DB Store Ptr} {m : Modifier Ptr} {a : Addr} {e : RootList Ptr}

/-! ### What a key counts

A key can be followed on its own through the updates.  A deletion leaves nothing of it,
where the reference loses one.
-/

/-- One update: an insertion counts one more, and a deletion leaves nothing. -/
def heldStep (k : UInt64) (n : Nat) : Call → Nat
  | (.insert, x) => if x = k then n + 1 else n
  | (.delete, x) => if x = k then 0 else n

/-- How often a key is counted after some updates, when a deletion removes it. -/
def held (elems : List UInt64) (us : List Call) (k : UInt64) : Nat :=
  us.foldl (heldStep k) (elems.count k)

theorem held_append (us us' : List Call) :
    held elems (us ++ us') k = us'.foldl (heldStep k) (held elems us k) := List.foldl_append

/-- The entry that the updates leave has what they hold as its counter. -/
theorem valueOf_entryAfter (us : List Call) {n : Nat} (ho : valueOf o = (n : UInt64)) :
    valueOf (entryAfter k ver o us) = (us.foldl (heldStep k) n : Nat) := by
  induction us generalizing n ver o with
  | nil => exact ho
  | cons c us ih =>
      refine ih ?_
      obtain ⟨type, x⟩ := c
      by_cases hx : x = k
      · cases type with
        | insert =>
            rw [Pam.stepEntry, heldStep, if_pos hx, if_pos hx, Nat.cast_succ, ← ho]
            rfl
        | delete =>
            rw [Pam.stepEntry, heldStep, if_pos hx, if_pos hx]
            rfl
      · cases type with
        | insert => rwa [Pam.stepEntry, heldStep, if_neg hx, if_neg hx]
        | delete => rwa [Pam.stepEntry, heldStep, if_neg hx, if_neg hx]

theorem counter_eq_held (elems : List UInt64) (us : List Call) (k : UInt64) :
    counter elems us k = (held elems us k : UInt64) := by
  refine valueOf_entryAfter us ?_
  rw [firstEntry]
  by_cases hk : k ∈ elems
  · rw [if_pos hk]
    rfl
  · rw [if_neg hk, List.count_eq_zero.mpr hk]
    rfl

theorem foldl_inserts (es : List UInt64) (n : Nat) :
    (batchCalls .insert es).foldl (heldStep k) n = n + es.count k := by
  induction es generalizing n with
  | nil => rfl
  | cons x es ih =>
      refine (ih (heldStep k n (.insert, x))).trans ?_
      rw [heldStep]
      by_cases hx : x = k
      · rw [if_pos hx, hx, List.count_cons_self]
        omega
      · rw [if_neg hx, List.count_cons_of_ne hx]

theorem foldl_deletes (es : List UInt64) (n : Nat) :
    (batchCalls .delete es).foldl (heldStep k) n = if k ∈ es then 0 else n := by
  induction es generalizing n with
  | nil => rfl
  | cons x es ih =>
      refine (ih (heldStep k n (.delete, x))).trans ?_
      rw [heldStep]
      exact Pam.ite_mem_cons k x es 0 n

/-! ### What a batch hides

The node that a batch makes for a key replaces the older one, and says nothing of the
versions before its first entry.
-/

/-- The calls of a batch, from `n` to `w`, change a key only after the version `v`. -/
def Hidden (us : List Call) (n v w : Nat) (k : UInt64) : Prop :=
  k ∈ ((us.take w).drop v).map Prod.snd ∧ k ∉ ((us.take v).drop n).map Prod.snd

/-- It can be tested on the calls. -/
instance (us : List Call) (n v w : Nat) : DecidablePred (Hidden us n v w) :=
  fun _ => instDecidableAnd

theorem map_batchCalls (type : Operation) (es : List UInt64) :
    (batchCalls type es).map Prod.snd = es := by
  rw [batchCalls, List.map_map]
  exact List.map_id es

/-- A version inside a batch divides its calls. -/
theorem take_inside (hes : us.take w = us.take n ++ batchCalls type es) (hn : n ≤ v) (hv : v ≤ w)
    (hw : w ≤ us.length) :
    us.take v = us.take n ++ batchCalls type (es.take (v - n)) ∧
      (us.take w).drop v = batchCalls type (es.drop (v - n)) ∧
      (us.take v).drop n = batchCalls type (es.take (v - n)) := by
  have hlen : (us.take n).length = n := by
    rw [List.length_take, Nat.min_eq_left (hn.trans (hv.trans hw))]
  have htake : us.take v = us.take n ++ batchCalls type (es.take (v - n)) := by
    have hfront : us.take v = (us.take w).take v := by rw [List.take_take, Nat.min_eq_left hv]
    rw [hfront, hes, List.take_append, hlen, List.take_of_length_le (hlen.le.trans hn), batchCalls,
      batchCalls, List.map_take]
  refine ⟨htake, ?_, ?_⟩
  · rw [hes, List.drop_append, hlen, List.drop_of_length_le (hlen.le.trans hn), List.nil_append,
      batchCalls, batchCalls, List.map_drop]
  · rw [htake, List.drop_left' hlen]

theorem hidden_iff (hes : us.take w = us.take n ++ batchCalls type es) (hn : n ≤ v) (hv : v ≤ w)
    (hw : w ≤ us.length) :
    Hidden us n v w k ↔ k ∈ es ∧ k ∉ es.take (v - n) := by
  obtain ⟨-, hdrop, htake⟩ := take_inside hes hn hv hw
  rw [Hidden, hdrop, htake, map_batchCalls, map_batchCalls]
  refine and_congr_left fun hnot => ?_
  conv_rhs => rw [← List.take_append_drop (v - n) es]
  rw [List.mem_append, or_iff_right hnot]

/-- **What a batch counts of a key** at a version: what the updates leave, one after the
other, but nothing of a key that it hides. -/
theorem readBatch_eq_held (hes : us.take w = us.take n ++ batchCalls type es) (hn : n ≤ v)
    (hv : v ≤ w) (hw : w ≤ us.length) :
    readBatch type (n + 1) v es (counter elems (us.take n) k) k
      = ((if Hidden us n v w k then 0 else held elems (us.take v) k : Nat) : UInt64) := by
  have hhidden := hidden_iff (k := k) hes hn hv hw
  have hfirst : v + 1 - (n + 1) = v - n := Nat.add_sub_add_right v 1 n
  rw [counter_eq_held, (take_inside hes hn hv hw).1, held_append]
  cases type with
  | insert =>
      have hmissed : Pam.Missed (n + 1) v es k ↔ Hidden us n v w k := by
        rw [Pam.Missed, hfirst, hhidden]
      rw [readBatch, foldl_inserts, hfirst]
      by_cases hk : Hidden us n v w k
      · rw [if_pos hk, if_pos (hmissed.mpr hk), Nat.cast_zero]
      · rw [if_neg hk, if_neg (mt hmissed.mp hk), Nat.cast_add]
  | delete =>
      rw [readBatch, foldl_deletes]
      by_cases hk : Hidden us n v w k
      · rw [if_pos hk, if_pos (hhidden.mp hk).1, Nat.cast_zero]
      · rw [if_neg hk]
        by_cases hbefore : k ∈ es.take (v - n)
        · rw [if_pos hbefore, if_pos (List.mem_of_mem_take hbefore), Nat.cast_zero]
        · rw [if_neg hbefore, if_neg fun hmem => hk (hhidden.mpr ⟨hmem, hbefore⟩)]

/-! ### Against the reference

Only the last deletion of a key matters: after it both count the insertions that follow.
If it found one of the key at most, nothing is left of the key on either side.
-/

/-- The update that a call is, if it is one. -/
def toUpdate : Sequential.Call → Option Call
  | .query _ _ => none
  | .insert x => some (.insert, x)
  | .delete x => some (.delete, x)

/-- The updates of a program, in order. -/
def updatesOf (W : List Sequential.Call) : List Call := W.filterMap toUpdate

theorem updatesOf_append (cs cs' : List Sequential.Call) :
    updatesOf (cs ++ cs') = updatesOf cs ++ updatesOf cs' := List.filterMap_append

/-- The last deletion of a key, if there is one, finds at most one of it. -/
def Clean (elems : List UInt64) (cs : List Sequential.Call) (k : UInt64) : Prop :=
  ∀ before after, cs = before ++ .delete k :: after → .delete k ∉ after →
    (reference elems before).count k ≤ 1

theorem clean_nil (elems : List UInt64) (k : UInt64) : Clean elems [] k := by
  intro before after hnil
  cases before <;> cases hnil

theorem clean_delete : Clean elems (cs ++ [.delete k]) k ↔ (reference elems cs).count k ≤ 1 := by
  constructor
  · intro h
    exact h cs [] rfl List.not_mem_nil
  · intro h before after heq hafter
    rcases List.eq_nil_or_concat' after with rfl | ⟨after', c, rfl⟩
    · rwa [← (List.append_inj_left' heq rfl)]
    · have hsplit : cs ++ [.delete k] = (before ++ .delete k :: after') ++ [c] := by simpa using heq
      cases List.append_inj_right' hsplit rfl
      exact absurd (List.mem_append_right after' (List.mem_singleton_self _)) hafter

/-- Any other call leaves the last deletion of the key where it is. -/
theorem clean_other {c : Sequential.Call} (hc : c ≠ .delete k) :
    Clean elems (cs ++ [c]) k ↔ Clean elems cs k := by
  constructor
  · intro h before after heq hafter
    refine h before (after ++ [c]) (by rw [heq]; simp) fun hmem => ?_
    rcases List.mem_append.mp hmem with hmem | hmem
    · exact hafter hmem
    · exact hc (List.mem_singleton.mp hmem).symm
  · intro h before after heq hafter
    rcases List.eq_nil_or_concat' after with rfl | ⟨after', c', rfl⟩
    · exact absurd (List.singleton_injective (List.append_inj_right' heq rfl)) hc
    · refine h before after' ?_ fun hmem => hafter (List.mem_append_left _ hmem)
      have hsplit : cs ++ [c] = (before ++ .delete k :: after') ++ [c'] := by simpa using heq
      exact List.append_inj_left' hsplit rfl

/-- One call, for both. -/
theorem held_concat (cs : List Sequential.Call) (c : Sequential.Call) :
    held elems (updatesOf (cs ++ [c])) k
      = match toUpdate c with
        | none => held elems (updatesOf cs) k
        | some u => heldStep k (held elems (updatesOf cs) k) u := by
  rw [updatesOf_append, held_append]
  cases c <;> rfl

/-- **`Batch` holds no more of a key than `Sequential` does**, and as much if and only if
no deletion takes more than one. -/
theorem held_le_and_iff (elems : List UInt64) (cs : List Sequential.Call) (k : UInt64) :
    held elems (updatesOf cs) k ≤ (reference elems cs).count k ∧
      (held elems (updatesOf cs) k = (reference elems cs).count k ↔ Clean elems cs k) := by
  induction cs using List.reverseRecOn with
  | nil =>
      have hcount : (reference elems []).count k = held elems (updatesOf []) k :=
        Multiset.coe_count k elems
      exact ⟨hcount.ge, iff_of_true hcount.symm (clean_nil elems k)⟩
  | append_singleton cs c ih =>
      obtain ⟨hle, hiff⟩ := ih
      rw [held_concat, Sequential.reference_append]
      cases c with
      | query l r =>
          rw [clean_other (by simp)]
          exact ⟨hle, hiff⟩
      | insert x =>
          rw [clean_other (by simp), ← hiff]
          simp only [toUpdate, heldStep, Sequential.effect]
          by_cases hx : x = k
          · rw [if_pos hx, hx, Multiset.count_cons_self]
            exact ⟨Nat.succ_le_succ hle, Nat.succ_inj⟩
          · rw [if_neg hx, Multiset.count_cons_of_ne fun h => hx h.symm]
            exact ⟨hle, Iff.rfl⟩
      | delete x =>
          simp only [toUpdate, heldStep, Sequential.effect]
          by_cases hx : x = k
          · rw [if_pos hx, hx, Multiset.count_erase_self, clean_delete]
            refine ⟨Nat.zero_le _, ?_⟩
            omega
          · rw [if_neg hx, Multiset.count_erase_of_ne fun h => hx h.symm,
              clean_other (by simpa using hx), ← hiff]
            exact ⟨hle, Iff.rfl⟩

/-! ### Sums over a range

No term of the sum is greater than in the reference.  So the sums are equal only if all
terms are, provided that nothing overflows.
-/

/-- Of a sum that does not overflow each term can be told. -/
theorem sum_agrees_iff {f g : UInt64 → Nat} {K : Finset UInt64} {y : UInt64}
    (hle : ∀ k ∈ K, f k ≤ g k) (hroom : ∑ k ∈ K, g k < 2 ^ 64) (hy : y.toNat = ∑ k ∈ K, g k) :
    ∑ k ∈ K, (f k : UInt64) = y ↔ ∀ k ∈ K, f k = g k := by
  have hsum : (∑ k ∈ K, (f k : UInt64)).toNat = ∑ k ∈ K, f k := by
    rw [← Nat.cast_sum]
    exact UInt64.toNat_ofNat_of_lt' ((Finset.sum_le_sum hle).trans_lt hroom)
  rw [← UInt64.toNat_inj, hsum, hy]
  exact Finset.sum_eq_sum_iff_of_le hle

/-- The elements in a range, key by key. -/
theorem countRange_eq_sum (l r : UInt64) (M : Multiset UInt64) {K : Finset UInt64}
    (hK : ∀ k ∈ M, k ∈ K) :
    Treap.countRange l r M = ∑ k ∈ K with InRange l r k, M.count k := by
  rw [Treap.countRange, Multiset.countP_eq_card_filter]
  have hmem : ∀ k ∈ M.filter fun k => l ≤ k ∧ k ≤ r, k ∈ K.filter (InRange l r) := by
    intro k hk
    obtain ⟨hkM, hin⟩ := Multiset.mem_filter.mp hk
    exact Finset.mem_filter.mpr ⟨hK k hkM, hin⟩
  rw [← Multiset.sum_count_eq_card hmem]
  refine Finset.sum_congr rfl fun k hk => ?_
  exact Multiset.count_filter_of_pos (Finset.mem_filter.mp hk).2

/-- What a root counts of a key, against the reference at the version of a query. -/
def shown (elems : List UInt64) (us : List Call) (n v w : Nat) (k : UInt64) : Nat :=
  if Hidden us n v w k then 0 else held elems (us.take v) k

/-- For a key the answer is the one of the reference. -/
def Faithful (elems : List UInt64) (cs : List Sequential.Call) (us : List Call) (n v w : Nat)
    (k : UInt64) : Prop :=
  if Hidden us n v w k then (reference elems cs).count k = 0 else Clean elems cs k

theorem shown_le (hcs : us.take v = updatesOf cs) :
    shown elems us n v w k ≤ (reference elems cs).count k := by
  unfold shown
  split
  · exact Nat.zero_le _
  · rw [hcs]
    exact (held_le_and_iff elems cs k).1

theorem shown_eq_iff (hcs : us.take v = updatesOf cs) :
    shown elems us n v w k = (reference elems cs).count k ↔ Faithful elems cs us n v w k := by
  unfold shown Faithful
  split
  · exact eq_comm
  · rw [hcs]
    exact (held_le_and_iff elems cs k).2

theorem Listed.findTree_eq {calls : List Call} {mem : Store} {p : Ptr}
    (h : Listed hash elems calls mem n w p) (hn : n ≤ v) (hv : v ≤ w) :
    ∃ t, Shows layout mem p t ∧ Pam.WellFormed hash t ∧
      ∀ k, findTree v k t = (shown elems calls n v w k : UInt64) := by
  obtain ⟨t, ht, hver, -, type, es, hes, hread⟩ := h
  exact ⟨t, ht, hver.wellFormed, fun k => (hread v k hn).trans (readBatch_eq_held hes hn hv hver.le)⟩

/-- **The answer of a root** is that of the reference if and only if it is for every key in
the range. -/
theorem Listed.evaluate_iff {calls : List Call} {mem : Store} {p : Ptr}
    (h : Listed hash elems calls mem n w p) (hn : n ≤ v) (hv : v ≤ w)
    (hcs : calls.take v = updatesOf cs) (hroom : (reference elems cs).card < 2 ^ 64) {l r y : UInt64}
    (hy : y.toNat = Treap.countRange l r (reference elems cs)) :
    ∃ x, (Pam.interface hash).rangeEstimate mem p v l r = some x ∧
      (x = y ↔ ∀ k, l ≤ k → k ≤ r → Faithful elems cs calls n v w k) := by
  obtain ⟨t, ht, hwf, hfind⟩ := h.findTree_eq hn hv
  refine ⟨_, Pam.interface_rangeEstimate ht hwf v l r, ?_⟩
  -- All keys that are in the tree or in the reference.
  let K : Finset UInt64 := (keys Pam.Datum.key t).toFinset ∪ (reference elems cs).toFinset
  have hcount : Treap.countRange l r (reference elems cs)
      = ∑ k ∈ K with InRange l r k, (reference elems cs).count k :=
    countRange_eq_sum l r _ fun k hk =>
      Finset.mem_union_right _ (Multiset.mem_toFinset.mpr hk)
  have hfits : Treap.countRange l r (reference elems cs) < 2 ^ 64 :=
    (Multiset.countP_le_card _ _).trans_lt hroom
  rw [Pam.sumWhere_eq_sum hwf.treap K fun k hk => Finset.mem_union_left _ (List.mem_toFinset.mpr hk),
    Finset.sum_congr rfl fun k _ => hfind k,
    sum_agrees_iff (fun k _ => shown_le hcs) (hcount ▸ hfits) (hy.trans hcount)]
  constructor
  · intro heq k hl hr
    by_cases hk : k ∈ K
    · exact (shown_eq_iff hcs).mp (heq k (Finset.mem_filter.mpr ⟨hk, hl, hr⟩))
    · have hnot : (reference elems cs).count k = 0 := Multiset.count_eq_zero.mpr fun hmem =>
        hk (Finset.mem_union_right _ (Multiset.mem_toFinset.mpr hmem))
      have hle : shown elems calls n v w k ≤ (reference elems cs).count k := shown_le hcs
      exact (shown_eq_iff hcs).mp ((Nat.le_zero.mp (hle.trans hnot.le)).trans hnot.symm)
  · intro hfaithful k hk
    obtain ⟨-, hl, hr⟩ := Finset.mem_filter.mp hk
    exact (shown_eq_iff hcs).mpr (hfaithful k hl hr)

/-! ### Workloads

A query in a workload is asked at a version, the number of updates before it, and the
same query of `Sequential` at its own position.
-/

/-- Where a version is held once it is committed. -/
theorem serves_exists (h : Chained db m) {i : Nat} (he : db.store.get? i = some e) (hv : v ≤ e.ver) :
    ∃ a, Serves db v a := by
  induction i generalizing e with
  | zero => exact ⟨0, e, he, hv, Or.inl h.root0.symm⟩
  | succ i ih =>
      obtain ⟨prev, hprev⟩ := Heap.get?_of_lt ((Nat.lt_succ_self i).trans (Heap.lt_size_of_get? he))
      by_cases hle : v ≤ prev.ver
      · exact ih hprev hle
      · have hlink := h.prev (i + 1) e he
        rw [if_neg (Nat.succ_ne_zero i)] at hlink
        exact ⟨i + 1, e, he, hv, Or.inr ⟨i, prev, hlink, hprev, Nat.lt_of_not_le hle⟩⟩

/-- The entry that serves a version comes after an older one. -/
theorem base_le_of_serves (h : Chained db m) (hserves : Serves db v a) : baseOf db a ≤ v := by
  obtain ⟨e, he, -, hpast⟩ := hserves
  unfold baseOf
  split
  · exact Nat.zero_le v
  · next hne =>
      rcases hpast with rfl | ⟨p, prev, hp, hprev, hlt⟩
      · exact absurd h.root0 hne
      · have hlink := h.prev a e he
        rw [if_neg hne, hp] at hlink
        obtain rfl := Option.some.inj hlink
        rw [hprev]
        exact hlt.le

/-- The version a query is pushed with, after so many calls of a workload. -/
def pushed (W : List Sequential.Call) (i : Nat) : Nat := (updatesOf (W.take i)).length

theorem take_pushed {i j : Nat} (hij : i ≤ j) :
    (updatesOf (W.take j)).take (pushed W i) = updatesOf (W.take i) := by
  have hsplit : W.take j = W.take i ++ (W.take j).drop i := by
    conv_lhs => rw [← List.take_append_drop i (W.take j)]
    rw [List.take_take, Nat.min_eq_left hij]
  rw [hsplit, updatesOf_append]
  exact List.take_left' rfl

theorem pushed_le {i j : Nat} (hij : i ≤ j) : pushed W i ≤ (updatesOf (W.take j)).length := by
  have hlen : ((updatesOf (W.take j)).take (pushed W i)).length = pushed W i :=
    congrArg List.length (take_pushed hij)
  rw [List.length_take] at hlen
  exact min_eq_left_iff.mp hlen

/-- A query leaves the reference as it is. -/
theorem reference_query {i : Nat} {l r : UInt64} (hi : W[i]? = some (.query l r)) :
    reference elems (W.take (i + 1)) = reference elems (W.take i) := by
  rw [List.take_add_one, hi, Option.toList_some, Sequential.reference_append]
  rfl

/--
**When the backends agree.**  A workload is run on `Sequential`, and on `Batch` in any
interleaving of the modifier with the clients.  In every state in which the first `j`
calls have been made, the root that serves a query among them gives it an answer, and
the clients that come to answer it are at this root; once the database is closed there
is one.  The answer is that of `Sequential` if and only if, for every key in the range:
when the batch of the version has calls for the key and only after the version, the key
is not stored at that version; and otherwise the last deletion of the key before the
query found at most one of it.
-/
theorem agrees_iff (hash : UInt64 → UInt64) (hinj : Function.Injective hash) (m : Nat)
    (elems : List UInt64) (W : List Sequential.Call) (hlen : W.length ≤ m) (hfits : Fits elems W)
    (mem : Store) (batchSize : Nat) :
    ∃ db₀ db mem₀ t₀, Sequential.init hash m elems = some db₀ ∧
      Sequential.calls hash db₀ W = some db ∧
      (Pam.interface hash).build mem elems = some (mem₀, t₀) ∧
      ∀ s, (system (Pam.interface hash) batchSize mem₀ t₀).Reachable s →
      ∀ j, s.calls = updatesOf (W.take j) →
      ∀ i ≤ j, ∀ l r, W[i]? = some (.query l r) → l < r →
        (s.modifier = .closed → ∃ a, Serves s.db (pushed W i) a) ∧
        ∀ a e, s.db.store.get? a = some e → Serves s.db (pushed W i) a →
          (∀ id, (s.clients id).at_ = .evaluate ⟨pushed W i, l, r⟩ → (s.clients id).curRoot = a) ∧
          ∃ x y, evaluate (Pam.interface hash) s.db.mem e ⟨pushed W i, l, r⟩ = some x ∧
            Sequential.processorFunction db (i + 1) l r = some y ∧
            (x = y ↔ ∀ k, l ≤ k → k ≤ r →
              Faithful elems (W.take i) s.calls (baseOf s.db a) (pushed W i) e.ver k) := by
  have hroom : elems.length < 2 ^ 64 := by
    simpa [reference] using hfits 0 (Nat.zero_le _)
  obtain ⟨db₀, hinit, h₀⟩ := Sequential.init_tracks hinj m elems hroom
  obtain ⟨db, hrun, htracks⟩ := Sequential.calls_tracks hinj W h₀ (by simpa using hlen) hfits
  obtain ⟨mem₀, t₀, hbuild, -⟩ := Pam.build_gives hinj mem elems
  refine ⟨db₀, db, mem₀, t₀, hinit, hrun, hbuild, fun s hs j hj i hij l r hi hlr => ?_⟩
  have hver := versions_reachable hinj hbuild hs
  have hW : i < W.length := (List.getElem?_eq_some_iff.mp hi).1
  have hpushed : s.calls.take (pushed W i) = updatesOf (W.take i) := by
    rw [hj]
    exact take_pushed hij
  constructor
  · intro hclosed
    rw [hclosed] at hver
    obtain ⟨-, e, -, he, hlast, -⟩ := hver.closed
    refine serves_exists hver.chained he ?_
    rw [hlast, hj]
    exact pushed_le hij
  · intro a e he hserves
    obtain ⟨e', he', hle, -⟩ := id hserves
    obtain rfl := Option.some.inj (he.symm.trans he')
    refine ⟨fun id hat => ?_, ?_⟩
    · have hknows := ((routed_reachable hs).cursors id).knows
      rw [hat] at hknows
      exact serves_unique hver.chained hknows hserves
    · rw [List.nil_append] at htracks
      obtain ⟨y, hy, hcount⟩ :=
        htracks.estimate (Nat.succ_le_of_lt hW) (hfits _ (Nat.succ_le_of_lt hW)) l r
      rw [reference_query hi] at hcount
      obtain ⟨x, hx, hiff⟩ := (hver.entries a e he).evaluate_iff (base_le_of_serves hver.chained hserves)
        hle hpushed (hfits i hW.le) hcount
      refine ⟨x, y, ?_, ?_, hiff⟩
      · rw [evaluate, if_neg hlr.ne]
        exact hx
      · have hissued : ¬ db.numVersions < i + 1 := by
          rw [htracks.versions]
          omega
        rw [Sequential.processorFunction, if_neg hissued, if_neg hlr.ne]
        exact hy

/-- A query in the middle of a batch, with a deletion that flushes it. -/
theorem agrees_iff_flushed :
    ∃ db₀ db mem₀ t₀, Sequential.init id 3 [5, 7] = some db₀ ∧
      Sequential.calls id db₀ [.insert 5, .query 0 9, .delete 7] = some db ∧
      (Pam.interface id).build ⟨#[]⟩ [5, 7] = some (mem₀, t₀) ∧
      ∀ s, (system (Pam.interface id) 2 mem₀ t₀).Reachable s →
      ∀ j, s.calls = updatesOf (List.take j [.insert 5, .query 0 9, .delete 7]) →
      ∀ i ≤ j, ∀ l r, [Sequential.Call.insert 5, .query 0 9, .delete 7][i]? = some (.query l r) →
        l < r →
        (s.modifier = .closed →
          ∃ a, Serves s.db (pushed [.insert 5, .query 0 9, .delete 7] i) a) ∧
        ∀ a e, s.db.store.get? a = some e →
          Serves s.db (pushed [.insert 5, .query 0 9, .delete 7] i) a →
          (∀ id, (s.clients id).at_ = .evaluate ⟨pushed [.insert 5, .query 0 9, .delete 7] i, l, r⟩ →
            (s.clients id).curRoot = a) ∧
          ∃ x y, evaluate (Pam.interface id) s.db.mem e
              ⟨pushed [.insert 5, .query 0 9, .delete 7] i, l, r⟩ = some x ∧
            Sequential.processorFunction db (i + 1) l r = some y ∧
            (x = y ↔ ∀ k, l ≤ k → k ≤ r →
              Faithful [5, 7] (List.take i [.insert 5, .query 0 9, .delete 7]) s.calls (baseOf s.db a)
                (pushed [.insert 5, .query 0 9, .delete 7] i) e.ver k) :=
  agrees_iff id Function.injective_id 3 [5, 7] [.insert 5, .query 0 9, .delete 7] (by decide)
    (by unfold Fits reference; decide) ⟨#[]⟩ 2

/-- Two of a key are stored and one of them is deleted: the backends do not agree. -/
theorem agrees_fails :
    ∃ mem₀ t₀ s e db₀ db, (Pam.interface id).build ⟨#[]⟩ [5, 5] = some (mem₀, t₀) ∧
      (system (Pam.interface id) 1 mem₀ t₀).Reachable s ∧
      s.calls = updatesOf (List.take 2 [.delete 5, .query 0 9]) ∧
      s.db.store.get? 2 = some e ∧ Serves s.db (pushed [.delete 5, .query 0 9] 1) 2 ∧
      evaluate (Pam.interface id) s.db.mem e ⟨pushed [.delete 5, .query 0 9] 1, 0, 9⟩ = some 0 ∧
      Sequential.init id 2 [5, 5] = some db₀ ∧
      Sequential.calls id db₀ [.delete 5, .query 0 9] = some db ∧
      Sequential.processorFunction db 2 0 9 = some 1 := by
  obtain ⟨mem₀, t₀, hbuild⟩ : ∃ mem₀ t₀, (Pam.interface id).build ⟨#[]⟩ [5, 5] = some (mem₀, t₀) :=
    ⟨_, _, rfl⟩
  obtain ⟨s, hrun⟩ : ∃ s, (system (Pam.interface id) 1 mem₀ t₀).run
      (.call .delete 5 :: List.replicate 9 .modifier) (start 1 mem₀ t₀) = some s := by
    cases hbuild
    exact ⟨_, rfl⟩
  have hreach : (system (Pam.interface id) 1 mem₀ t₀).Reachable s := System.reach_of_run hrun
  cases hbuild
  cases hrun
  refine ⟨_, _, _, _, _, _, rfl, hreach, rfl, rfl, ?_, rfl, rfl, rfl, rfl⟩
  exact ⟨_, rfl, by decide, Or.inr ⟨_, _, rfl, rfl, by decide⟩⟩

end Batch
