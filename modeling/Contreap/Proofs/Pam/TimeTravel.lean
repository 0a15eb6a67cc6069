/-
Reading a version in the middle of a batch.

A tree that a batch leaves is read at versions from the one before the batch on, also at
versions in the middle of it.  Both kinds of batch are exact on the keys they do not
touch, and on the others only where nothing has been lost.  The node that an insertion
puts in place of an old one has no entry before the first occurrence of its key in the
batch, so what was counted before is not found until then (`inserted_reads`).  A deletion
takes the whole node away, whatever was left of the counter (`deleted_reads`).
-/
import Contreap.Proofs.Pam.Canonical

namespace Pam

open BinaryTree Cartesian PtrHeap
open scoped UInt64.CommRing

variable {hash : UInt64 → UInt64} {t : Tree} {ver v w : Nat} {elems : List UInt64}

/-! ### Sums over the keys of two trees -/

section
variable {P R : UInt64 → Prop} [DecidablePred P] [DecidablePred R]

/-- What is left out of a sum. -/
theorem sum_add_left_out (K : Finset UInt64) (f : UInt64 → UInt64) :
    ∑ k ∈ K with P k, (if R k then 0 else f k) + ∑ k ∈ K with (P k ∧ R k), f k
      = ∑ k ∈ K with P k, f k := by
  rw [← Finset.filter_filter, Finset.sum_filter R, ← Finset.sum_add_distrib]
  refine Finset.sum_congr rfl fun k _ => ?_
  by_cases hk : R k
  · rw [if_pos hk, if_pos hk, zero_add]
  · rw [if_neg hk, if_neg hk, add_zero]

end

theorem count_take_of_missed {k : UInt64} (hk : Missed ver v elems k) :
    (elems.take (v + 1 - ver)).count k = 0 := List.count_eq_zero.mpr hk.2

theorem countUpTo_eq_count (ver v : Nat) (k : UInt64) (elems : List UInt64) :
    countUpTo ver v (fun x => x = k) elems = (elems.take (v + 1 - ver)).count k := by
  rw [countUpTo_eq_take, List.count_eq_countP]
  exact List.countP_congr fun x _ => by simp

/-! ### Insertions

The new counters are the old ones and the occurrences, except for the keys that the
batch has only later.  So the sum is right if what is missing adds up to zero, modulo `2
^ 64`.
-/

/-- What is missing from a range after an insertion is what was counted of the keys that
do not occur yet. -/
theorem sumWhere_insertedTree (hinj : Function.Injective hash) (ht : WellFormed hash t)
    (hw : VersionsUpTo w t) (hv : w ≤ v) (ver : Nat) (elems : List UInt64) (P : UInt64 → Prop)
    [DecidablePred P] :
    sumWhere P v (augTree (insertedTree hash t ver elems))
        + sumWhere (fun k => P k ∧ Missed ver v elems k) w t
      = sumWhere P w t + (countUpTo ver v P elems : UInt64) := by
  let K := (keys Datum.key t ++ elems ++
    keys Datum.key (augTree (insertedTree hash t ver elems))).toFinset
  have hK : ∀ {L : List UInt64} {k : UInt64}, (k ∈ L → k ∈ keys Datum.key t ++ elems ++
      keys Datum.key (augTree (insertedTree hash t ver elems))) → k ∈ L → k ∈ K :=
    fun h hk => List.mem_toFinset.mpr (h hk)
  have htreap := isTreap_augTree (isTreap_insertedTree hinj ht.treap ver elems)
  have hnew : ∀ k, findTree v k (augTree (insertedTree hash t ver elems))
      = (if Missed ver v elems k then 0 else findTree w k t)
        + ((elems.take (v + 1 - ver)).count k : UInt64) := by
    intro k
    rw [findTree_augTree, findTree_insertedTree hinj ht.treap hw hv]
    by_cases hk : Missed ver v elems k
    · rw [if_pos hk, if_pos hk, count_take_of_missed hk, Nat.cast_zero, add_zero]
    · rw [if_neg hk, if_neg hk]
  rw [sumWhere_eq_sum htreap K fun k => hK (by simp +contextual),
    sumWhere_eq_sum ht.treap K fun k => hK (by simp +contextual),
    sumWhere_eq_sum ht.treap K fun k => hK (by simp +contextual),
    Finset.sum_congr rfl fun k _ => hnew k, Finset.sum_add_distrib,
    sum_count P K fun k hk => hK (fun h => by simp [List.mem_of_mem_take h]) hk, countUpTo_eq_take,
    add_right_comm, sum_add_left_out]

/--
**An insertion can be read at every version, but for what it hides.**  At a version in
or before the batch, `find` adds the occurrences up to that version to the old counter
if and only if the key has one of them, is not in the batch at all, or had no counter;
and `range_estimate` does so if and only if the old counters of the keys in the range
that occur in the batch only later add up to zero.
-/
theorem inserted_reads (hash : UInt64 → UInt64) (hinj : Function.Injective hash) (s : Store)
    (p : Ptr) (t : Tree) (hp : Shows layout s p t) (ht : WellFormed hash t) (w : Nat)
    (hw : VersionsUpTo w t) (elems : List UInt64) (v : Nat) (hv : w ≤ v) :
    ∃ s' q, Interface.inserted hash s p (w + 1) elems = some (s', q) ∧
      (∀ k, ∃ now old, Interface.find s' q v k = some now ∧ Interface.find s p w k = some old ∧
        (now = old + (countUpTo (w + 1) v (fun x => x = k) elems : UInt64) ↔
          (Missed (w + 1) v elems k → old = 0))) ∧
      ∀ l r, ∃ now old, Interface.rangeEstimate s' q v l r = some now ∧
        Interface.rangeEstimate s p w l r = some old ∧
        (now = old + (countUpTo (w + 1) v (InRange l r) elems : UInt64) ↔
          sumWhere (fun k => InRange l r k ∧ Missed (w + 1) v elems k) w t = 0) := by
  obtain ⟨s', q, hrun, -, hq, ht'⟩ := inserted_gives hinj hp ht (w + 1) elems
  refine ⟨s', q, hrun, fun k => ?_, fun l r => ?_⟩
  · refine ⟨_, _, interface_find hq v k, interface_find hp w k, ?_⟩
    rw [findTree_augTree, findTree_insertedTree hinj ht.treap hw hv, countUpTo_eq_count]
    by_cases hk : Missed (w + 1) v elems k
    · rw [if_pos hk, count_take_of_missed hk, Nat.cast_zero, add_zero]
      exact ⟨fun h _ => h.symm, fun h => (h hk).symm⟩
    · rw [if_neg hk]
      exact iff_of_true rfl fun h => absurd h hk
  · refine ⟨_, _, interface_rangeEstimate hq ht' v l r, interface_rangeEstimate hp ht w l r, ?_⟩
    rw [← sumWhere_insertedTree hinj ht hw hv]
    exact left_eq_add

theorem inserted_reads_single :
    ∃ s' q, Interface.inserted id ⟨#[⟨⟨some 0, 5, 5, .single ⟨2, 0⟩, 2⟩, none, none⟩]⟩ (some 0)
        (0 + 1) [7, 5] = some (s', q) ∧
      (∀ k, ∃ now old, Interface.find s' q 1 k = some now ∧
        Interface.find ⟨#[⟨⟨some 0, 5, 5, .single ⟨2, 0⟩, 2⟩, none, none⟩]⟩ (some 0) 0 k = some old ∧
        (now = old + (countUpTo (0 + 1) 1 (fun x => x = k) [7, 5] : UInt64) ↔
          (Missed (0 + 1) 1 [7, 5] k → old = 0))) ∧
      ∀ l r, ∃ now old, Interface.rangeEstimate s' q 1 l r = some now ∧
        Interface.rangeEstimate ⟨#[⟨⟨some 0, 5, 5, .single ⟨2, 0⟩, 2⟩, none, none⟩]⟩ (some 0) 0 l r
          = some old ∧
        (now = old + (countUpTo (0 + 1) 1 (InRange l r) [7, 5] : UInt64) ↔
          sumWhere (fun k => InRange l r k ∧ Missed (0 + 1) 1 [7, 5] k) 0
            (node ⟨some 0, 5, 5, .single ⟨2, 0⟩, 2⟩ nil nil) = 0) :=
  inserted_reads id Function.injective_id _ _ (node ⟨some 0, 5, 5, .single ⟨2, 0⟩, 2⟩ nil nil)
    (shows_single (n := ⟨⟨some 0, 5, 5, .single ⟨2, 0⟩, 2⟩, none, none⟩) rfl rfl rfl)
    (wellFormed_single rfl (ValVers.sorted_single ⟨2, 0⟩) rfl rfl) 0
    (forall_mem_inorder_node.mpr ⟨by decide, by simp, by simp⟩) [7, 5] 1 (by decide)

/-- Two of a key are stored and a third one is inserted at version 2.  Read at version 1
the tree has none of them. -/
theorem inserted_reads_hidden :
    (Interface.inserted id ⟨#[⟨⟨some 0, 5, 5, .single ⟨2, 0⟩, 2⟩, none, none⟩]⟩ (some 0) 1
        [7, 5]).map (fun x => (Interface.find x.1 x.2 1 5, Interface.rangeEstimate x.1 x.2 1 0 9))
      = some (some 0, some 1) ∧
    Interface.find ⟨#[⟨⟨some 0, 5, 5, .single ⟨2, 0⟩, 2⟩, none, none⟩]⟩ (some 0) 0 5 = some 2 ∧
    Interface.rangeEstimate ⟨#[⟨⟨some 0, 5, 5, .single ⟨2, 0⟩, 2⟩, none, none⟩]⟩ (some 0) 0 0 9
      = some 2 ∧
    countUpTo 1 1 (fun x => x = 5) [7, 5] = 0 ∧ countUpTo 1 1 (InRange 0 9) [7, 5] = 1 ∧
    (0 : UInt64) ≠ 2 + 0 ∧ (1 : UInt64) ≠ 2 + 1 := by
  refine ⟨rfl, rfl, rfl, rfl, rfl, by decide, by decide⟩

/-! ### Deletions

Here it is the other way round: too much is taken, namely what is left of the keys in
the batch.
-/

/-- What one occurrence less for every deletion up to the version leaves of a counter. -/
def leftAfter (w v : Nat) (elems : List UInt64) (t : Tree) (k : UInt64) : UInt64 :=
  UInt64.ofNat ((findTree w k t).toNat - countUpTo (w + 1) v (fun x => x = k) elems)

theorem leftAfter_of_notMem {k : UInt64} (hk : k ∉ elems) :
    leftAfter w v elems t k = findTree w k t := by
  have hzero : (elems.take (v + 1 - (w + 1))).count k = 0 :=
    List.count_eq_zero.mpr fun hmem => hk (List.mem_of_mem_take hmem)
  rw [leftAfter, countUpTo_eq_count, hzero, Nat.sub_zero, UInt64.ofNat_toNat]

theorem leftAfter_eq_zero {k : UInt64} :
    leftAfter w v elems t k = 0 ↔
      (findTree w k t).toNat ≤ countUpTo (w + 1) v (fun x => x = k) elems := by
  rw [leftAfter, ← UInt64.toNat_inj, UInt64.toNat_ofNat_of_lt', UInt64.toNat_zero,
    Nat.sub_eq_zero_iff_le]
  exact (Nat.sub_le _ _).trans_lt (UInt64.toNat_lt _)

/-- What a deletion takes from a range besides the occurrences it deletes is what is left
of the keys in the batch. -/
theorem sumWhere_deletedTree (hinj : Function.Injective hash) (ht : WellFormed hash t)
    (hw : VersionsUpTo w t) (hv : w ≤ v) (elems : List UInt64) (P : UInt64 → Prop)
    [DecidablePred P] :
    sumWhere P v (augTree (deletedTree hash t (w + 1) elems))
        + ∑ k ∈ (keys Datum.key t).toFinset with (P k ∧ k ∈ elems), leftAfter w v elems t k
      = ∑ k ∈ (keys Datum.key t).toFinset with P k, leftAfter w v elems t k := by
  have htreap := isTreap_augTree (isTreap_deletedTree hinj ht.treap (w + 1) elems)
  have hnew : ∀ k, findTree v k (augTree (deletedTree hash t (w + 1) elems))
      = if k ∈ elems then 0 else leftAfter w v elems t k := by
    intro k
    rw [findTree_augTree, findTree_deletedTree hinj ht.treap hw hv]
    by_cases hk : k ∈ elems
    · rw [if_pos hk, if_pos hk]
    · rw [if_neg hk, if_neg hk, leftAfter_of_notMem hk]
  have hkeys : ∀ k ∈ keys Datum.key (augTree (deletedTree hash t (w + 1) elems)),
      k ∈ (keys Datum.key t).toFinset := by
    intro k hk
    rw [mem_keys_iff_lastEntry htreap, lastEntry_deletedTree hinj ht.treap] at hk
    rw [List.mem_toFinset, mem_keys_iff_lastEntry ht.treap]
    exact fun hnone => hk (by rw [hnone, ite_self])
  rw [sumWhere_eq_sum htreap _ hkeys, Finset.sum_congr rfl fun k _ => hnew k, sum_add_left_out]

/--
**A deletion can be read at every version, but for what it takes too much of.**  At a
version in or before the batch, `find` returns the old counter less the occurrences up to
that version if and only if these use it up, or the key is not in the batch; and
`range_estimate` returns the sum of these differences if and only if those for the keys
in the range that are in the batch add up to zero.
-/
theorem deleted_reads (hash : UInt64 → UInt64) (hinj : Function.Injective hash) (s : Store)
    (p : Ptr) (t : Tree) (hp : Shows layout s p t) (ht : WellFormed hash t) (w : Nat)
    (hw : VersionsUpTo w t) (elems : List UInt64) (v : Nat) (hv : w ≤ v) :
    ∃ s' q, Interface.deleted hash s p (w + 1) elems = some (s', q) ∧
      (∀ k, ∃ now old, Interface.find s' q v k = some now ∧ Interface.find s p w k = some old ∧
        (now = UInt64.ofNat (old.toNat - countUpTo (w + 1) v (fun x => x = k) elems) ↔
          (k ∈ elems → old.toNat ≤ countUpTo (w + 1) v (fun x => x = k) elems))) ∧
      ∀ l r, ∃ now, Interface.rangeEstimate s' q v l r = some now ∧
        (now = ∑ k ∈ (keys Datum.key t).toFinset with InRange l r k, leftAfter w v elems t k ↔
          ∑ k ∈ (keys Datum.key t).toFinset with (InRange l r k ∧ k ∈ elems),
            leftAfter w v elems t k = 0) := by
  obtain ⟨s', q, hrun, -, hq, ht'⟩ := deleted_gives hinj hp ht (w + 1) elems
  refine ⟨s', q, hrun, fun k => ?_, fun l r => ?_⟩
  · refine ⟨_, _, interface_find hq v k, interface_find hp w k, ?_⟩
    rw [findTree_augTree, findTree_deletedTree hinj ht.treap hw hv, ← leftAfter_eq_zero]
    show _ = leftAfter w v elems t k ↔ _
    by_cases hk : k ∈ elems
    · rw [if_pos hk]
      exact ⟨fun h _ => h.symm, fun h => (h hk).symm⟩
    · rw [if_neg hk, leftAfter_of_notMem hk]
      exact iff_of_true rfl fun h => absurd h hk
  · refine ⟨_, interface_rangeEstimate hq ht' v l r, ?_⟩
    rw [← sumWhere_deletedTree hinj ht hw hv]
    exact left_eq_add

theorem deleted_reads_single :
    ∃ s' q, Interface.deleted id ⟨#[⟨⟨some 0, 5, 5, .single ⟨2, 0⟩, 2⟩, none, none⟩]⟩ (some 0)
        (0 + 1) [7, 5] = some (s', q) ∧
      (∀ k, ∃ now old, Interface.find s' q 2 k = some now ∧
        Interface.find ⟨#[⟨⟨some 0, 5, 5, .single ⟨2, 0⟩, 2⟩, none, none⟩]⟩ (some 0) 0 k = some old ∧
        (now = UInt64.ofNat (old.toNat - countUpTo (0 + 1) 2 (fun x => x = k) [7, 5]) ↔
          (k ∈ ([7, 5] : List UInt64) →
            old.toNat ≤ countUpTo (0 + 1) 2 (fun x => x = k) [7, 5]))) ∧
      ∀ l r, ∃ now, Interface.rangeEstimate s' q 2 l r = some now ∧
        (now = ∑ k ∈ (keys Datum.key (node ⟨some 0, 5, 5, .single ⟨2, 0⟩, 2⟩ nil nil)).toFinset
            with InRange l r k, leftAfter 0 2 [7, 5] (node ⟨some 0, 5, 5, .single ⟨2, 0⟩, 2⟩ nil nil) k ↔
          ∑ k ∈ (keys Datum.key (node ⟨some 0, 5, 5, .single ⟨2, 0⟩, 2⟩ nil nil)).toFinset
            with (InRange l r k ∧ k ∈ ([7, 5] : List UInt64)),
              leftAfter 0 2 [7, 5] (node ⟨some 0, 5, 5, .single ⟨2, 0⟩, 2⟩ nil nil) k = 0) :=
  deleted_reads id Function.injective_id _ _ (node ⟨some 0, 5, 5, .single ⟨2, 0⟩, 2⟩ nil nil)
    (shows_single (n := ⟨⟨some 0, 5, 5, .single ⟨2, 0⟩, 2⟩, none, none⟩) rfl rfl rfl)
    (wellFormed_single rfl (ValVers.sorted_single ⟨2, 0⟩) rfl rfl) 0
    (forall_mem_inorder_node.mpr ⟨by decide, by simp, by simp⟩) [7, 5] 2 (by decide)

/-- Two of a key are stored and one of them is deleted.  Neither is left. -/
theorem deleted_reads_gone :
    (Interface.deleted id ⟨#[⟨⟨some 0, 5, 5, .single ⟨2, 0⟩, 2⟩, none, none⟩]⟩ (some 0) 1
        [5]).map (fun x => (Interface.find x.1 x.2 1 5, Interface.rangeEstimate x.1 x.2 1 0 9))
      = some (some 0, some 0) ∧
    Interface.find ⟨#[⟨⟨some 0, 5, 5, .single ⟨2, 0⟩, 2⟩, none, none⟩]⟩ (some 0) 0 5 = some 2 ∧
    countUpTo 1 1 (fun x => x = 5) [5] = 1 ∧ (0 : UInt64) ≠ UInt64.ofNat (2 - 1) ∧
    0 ≠ ∑ k ∈ (keys Datum.key (node ⟨some 0, 5, 5, .single ⟨2, 0⟩, 2⟩ nil nil)).toFinset
      with InRange 0 9 k, leftAfter 0 1 [5] (node ⟨some 0, 5, 5, .single ⟨2, 0⟩, 2⟩ nil nil) k := by
  refine ⟨rfl, rfl, rfl, by decide, by decide⟩

end Pam
