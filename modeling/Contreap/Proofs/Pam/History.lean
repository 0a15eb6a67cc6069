/-
What a history of updates leaves of a key.

One at a time, an insertion counts its key up by one and a deletion removes it, however
often it is counted (`entryAfter`).  A batch does to the last entry of every key what its
updates do one after the other.  So the last entries after a number of batches depend on
the updates only, and not on where the batches begin and end.
-/
import Contreap.Proofs.Pam.Canonical

namespace Pam

open BinaryTree Cartesian PtrHeap
open scoped UInt64.CommRing

variable {hash : UInt64 → UInt64} {t : Tree} {s : Store} {p : Ptr} {ver v w : Nat} {k : UInt64}
  {elems : List UInt64} {o : Option ValVer}

/-- A call of `Insert` or `Delete`. -/
abbrev Call := Batch.Operation × UInt64

/-! ### Updates one at a time

The entry of a key is followed through single updates, each a version of its own.
-/

/-- The counter of an entry, `0` if there is none. -/
def valueOf (o : Option ValVer) : UInt64 := (o.map ValVer.val).getD 0

/-- The entry of a key after one update. -/
def stepEntry (k : UInt64) (ver : Nat) (o : Option ValVer) : Call → Option ValVer
  | (.insert, x) => if x = k then some ⟨valueOf o + 1, ver⟩ else o
  | (.delete, x) => if x = k then none else o

/-- The entry of a key after a number of updates, the first of which has version `ver`. -/
def entryAfter (k : UInt64) : Nat → Option ValVer → List Call → Option ValVer
  | _, o, [] => o
  | ver, o, c :: cs => entryAfter k (ver + 1) (stepEntry k ver o c) cs

theorem entryAfter_append (k : UInt64) (cs cs' : List Call) (ver : Nat) (o : Option ValVer) :
    entryAfter k ver o (cs ++ cs') = entryAfter k (ver + cs.length) (entryAfter k ver o cs) cs' := by
  induction cs generalizing ver o with
  | nil => rfl
  | cons c cs ih =>
      rw [List.cons_append, entryAfter, ih, entryAfter, List.length_cons, Nat.add_assoc,
        Nat.add_comm 1]

/-- The calls that fill one buffer. -/
def batchCalls (type : Batch.Operation) (elems : List UInt64) : List Call :=
  elems.map fun x => (type, x)

@[simp] theorem length_batchCalls (type : Batch.Operation) (elems : List UInt64) :
    (batchCalls type elems).length = elems.length := List.length_map _

theorem batchCalls_concat (type : Batch.Operation) (elems : List UInt64) (x : UInt64) :
    batchCalls type (elems ++ [x]) = batchCalls type elems ++ [(type, x)] := List.map_append

/-- What any occurrence of a key settles, the first one settles. -/
theorem ite_mem_cons {β : Type*} (k x : UInt64) (xs : List UInt64) (y z : β) :
    (if k ∈ xs then y else if x = k then y else z) = if k ∈ x :: xs then y else z := by
  by_cases hx : x = k
  · rw [if_pos hx, ite_self, if_pos (hx ▸ List.mem_cons_self)]
  · rw [if_neg hx]
    refine if_congr ?_ rfl rfl
    rw [List.mem_cons, or_iff_right fun h => hx h.symm]

theorem entryAfter_deletes (k : UInt64) (elems : List UInt64) (ver : Nat) (o : Option ValVer) :
    entryAfter k ver o (batchCalls .delete elems) = if k ∈ elems then none else o := by
  induction elems generalizing ver o with
  | nil => rfl
  | cons x xs ih =>
      refine (ih (ver + 1) (stepEntry k ver o (.delete, x))).trans ?_
      rw [stepEntry]
      exact ite_mem_cons k x xs none o

/-- Insertions count up by the number of occurrences, and the version is that of the last
one. -/
theorem entryAfter_inserts (k : UInt64) (elems : List UInt64) (ver : Nat) (o : Option ValVer) :
    entryAfter k ver o (batchCalls .insert elems)
      = if h : stamps ver k elems ≠ [] then
          some ⟨valueOf o + (elems.count k : UInt64), (stamps ver k elems).getLast h⟩
        else o := by
  induction elems generalizing ver o with
  | nil => rfl
  | cons x xs ih =>
      refine (ih (ver + 1) (stepEntry k ver o (.insert, x))).trans ?_
      rw [stepEntry]
      by_cases hx : x = k
      · have hst : stamps ver k (x :: xs) = ver :: stamps (ver + 1) k xs := by
          rw [stamps_cons, if_pos hx]
          rfl
        have hcount : (((x :: xs).count k : Nat) : UInt64) = 1 + (xs.count k : UInt64) := by
          rw [hx, List.count_cons_self, Nat.cast_succ, add_comm]
        have hne : stamps ver k (x :: xs) ≠ [] := hst ▸ List.cons_ne_nil _ _
        rw [if_pos hx, dif_pos hne, hcount, ← add_assoc]
        by_cases hxs : stamps (ver + 1) k xs = []
        · have hzero : xs.count k = 0 := List.count_eq_zero.mpr (stamps_eq_nil.mp hxs)
          rw [dif_neg (not_not.mpr hxs), hzero, Nat.cast_zero, add_zero]
          simp only [hst, hxs, List.getLast_singleton]
        · rw [dif_pos hxs]
          simp only [hst, List.getLast_cons hxs]
          rfl
      · have hst : stamps ver k (x :: xs) = stamps (ver + 1) k xs := by
          rw [stamps_cons, if_neg hx]
          rfl
        have hcount : (x :: xs).count k = xs.count k := List.count_cons_of_ne hx
        simp only [if_neg hx, hst, hcount]

/-! ### Batches

What a batch does to the last entry of a key is what its updates do one by one.  This is
not so of the versions in the middle, and `readBatch` says what is read there.
-/

/-- The tree of the next version. -/
def updatedTree (hash : UInt64 → UInt64) (type : Batch.Operation) (t : Tree) (ver : Nat)
    (elems : List UInt64) : Tree :=
  match type with
  | .insert => augTree (insertedTree hash t ver elems)
  | .delete => augTree (deletedTree hash t ver elems)

/-- The call of the interface for a batch of either type. -/
def updated (hash : UInt64 → UInt64) (type : Batch.Operation) (s : Store) (p : Ptr) (ver : Nat)
    (elems : List UInt64) : Option (Store × Ptr) :=
  match type with
  | .insert => Interface.inserted hash s p ver elems
  | .delete => Interface.deleted hash s p ver elems

theorem updated_gives (hinj : Function.Injective hash) (type : Batch.Operation)
    (hp : Shows layout s p t) (ht : WellFormed hash t) (ver : Nat) (elems : List UInt64) :
    Gives hash s (updated hash type s p ver elems) (updatedTree hash type t ver elems) := by
  cases type with
  | insert => exact inserted_gives hinj hp ht ver elems
  | delete => exact deleted_gives hinj hp ht ver elems

/-- **A batch is its updates one after the other**, as far as the last entries go. -/
theorem lastEntry_updatedTree (hinj : Function.Injective hash) (type : Batch.Operation)
    (ht : IsTreap Datum.key Datum.pry hash t) (ver : Nat) (elems : List UInt64) (k : UInt64) :
    lastEntry k (updatedTree hash type t ver elems)
      = entryAfter k ver (lastEntry k t) (batchCalls type elems) := by
  cases type with
  | insert =>
      rw [entryAfter_inserts]
      exact lastEntry_insertedTree hinj ht ver elems
  | delete =>
      rw [entryAfter_deletes]
      exact lastEntry_deletedTree hinj ht ver elems

theorem VersionsUpTo.updatedTree (hinj : Function.Injective hash) (type : Batch.Operation)
    (ht : VersionsUpTo w t) (elems : List UInt64) :
    VersionsUpTo (w + elems.length) (updatedTree hash type t (w + 1) elems) := by
  have hmono := ht.mono (Nat.le_add_right w elems.length)
  cases type with
  | insert =>
      have hlen : w + 1 + elems.length ≤ w + elems.length + 1 := by omega
      exact (hmono.insertedTree hinj hlen).augTree
  | delete => exact (hmono.deletedTree (w + 1) elems).augTree

/-- What a key counts at a version in or before a batch, from what it counted before. -/
def readBatch (type : Batch.Operation) (ver v : Nat) (elems : List UInt64) (old : UInt64)
    (k : UInt64) : UInt64 :=
  match type with
  | .insert =>
      if Missed ver v elems k then 0 else old + ((elems.take (v + 1 - ver)).count k : UInt64)
  | .delete => if k ∈ elems then 0 else old

theorem findTree_updatedTree (hinj : Function.Injective hash) (type : Batch.Operation)
    (ht : IsTreap Datum.key Datum.pry hash t) (hw : VersionsUpTo w t) (hv : w ≤ v) (ver : Nat)
    (elems : List UInt64) (k : UInt64) :
    findTree v k (updatedTree hash type t ver elems)
      = readBatch type ver v elems (lastValue k t) k := by
  rw [← findTree_eq_last hw le_rfl]
  cases type with
  | insert => exact (findTree_augTree v k _).trans (findTree_insertedTree hinj ht hw hv ver elems k)
  | delete => exact (findTree_augTree v k _).trans (findTree_deletedTree hinj ht hw hv ver elems k)

/-! ### The first version -/

/-- The tree of the first version. -/
def builtTree (hash : UInt64 → UInt64) (elems : List UInt64) : Tree :=
  augTree (buildTree hash addFirst (fun _ => 0) (elems.length + 1) 0 elems)

/-- The node of a key that occurs so many times. -/
def builtEntry (hash : UInt64 → UInt64) (k : UInt64) (ver : Nat) : Nat → Option Datum
  | 0 => none
  | n + 1 => some (newDatum (hash k) k ⟨((n + 1 : Nat) : UInt64), ver⟩)

/-- Two halves of an array add up. -/
theorem merge_builtEntry (ver m n : Nat) :
    Option.merge (Datum.combine addFirst) (builtEntry hash k ver m) (builtEntry hash k ver n)
      = builtEntry hash k ver (m + n) := by
  cases m with
  | zero => rw [builtEntry, Option.merge_none_left, Nat.zero_add]
  | succ m =>
      cases n with
      | zero => rfl
      | succ n =>
          have hsum : ((m + 1 : Nat) : UInt64) + ((n + 1 : Nat) : UInt64)
              = ((m + 1 + n + 1 : Nat) : UInt64) := (Nat.cast_add (m + 1) (n + 1)).symm
          rw [show m + 1 + (n + 1) = (m + 1 + n) + 1 from rfl, builtEntry, builtEntry, builtEntry,
            Option.merge_some_some, ← hsum]
          rfl

theorem builtTree_spec (hinj : Function.Injective hash) (elems : List UInt64) (k : UInt64) :
    IsTreap Datum.key Datum.pry hash
        (buildTree hash addFirst (fun _ => 0) (elems.length + 1) 0 elems) ∧
      find? Datum.key k (buildTree hash addFirst (fun _ => 0) (elems.length + 1) 0 elems)
        = builtEntry hash k 0 (elems.count k) := by
  refine find?_buildTree hinj (fun ver elems => builtEntry hash k ver (elems.count k))
    (fun _ => rfl) (fun ver x => ?_) (fun ver xs ys => ?_) _ 0 elems (Nat.lt_succ_self _)
  · by_cases hx : k = x
    · subst hx
      rw [if_pos rfl, List.count_singleton_self]
      rfl
    · rw [if_neg hx, List.count_singleton, if_neg (by simpa using fun h => hx h.symm)]
      rfl
  · rw [Nat.add_zero, merge_builtEntry, List.count_append]

/-- The entry of a key that is built from the array. -/
def firstEntry (elems : List UInt64) (k : UInt64) : Option ValVer :=
  if k ∈ elems then some ⟨(elems.count k : UInt64), 0⟩ else none

theorem lastEntry_builtTree (hinj : Function.Injective hash) (elems : List UInt64) (k : UInt64) :
    lastEntry k (builtTree hash elems) = firstEntry elems k := by
  rw [builtTree, lastEntry_augTree, lastEntry, (builtTree_spec hinj elems k).2, firstEntry]
  by_cases hk : k ∈ elems
  · obtain ⟨n, hn⟩ := Nat.exists_eq_succ_of_ne_zero (List.count_pos_iff.mpr hk).ne'
    rw [if_pos hk, hn]
    rfl
  · rw [if_neg hk, List.count_eq_zero.mpr hk]
    rfl

/-- Every node that is built has one entry, of version `0`. -/
theorem vals_of_mem_builtTree (hinj : Function.Injective hash) (elems : List UInt64) :
    ∀ d ∈ (builtTree hash elems).inorder, ∃ val, d.vals = .single ⟨val, 0⟩ := by
  refine forall_mem_augTree (fun _ _ _ hd => hd) fun d hd => ?_
  obtain ⟨htreap, hfind⟩ := builtTree_spec hinj elems d.key
  rw [htreap.find?_of_mem hd] at hfind
  cases hn : elems.count d.key with
  | zero =>
      rw [hn] at hfind
      cases hfind
  | succ n =>
      rw [hn] at hfind
      exact ⟨_, congrArg Datum.vals (Option.some.inj hfind)⟩

theorem build_gives (hinj : Function.Injective hash) (s : Store) (elems : List UInt64) :
    Gives hash s (Interface.build hash s elems) (builtTree hash elems) := by
  obtain ⟨s', q, hrun, hpres, hq, hcap⟩ :
      Returns (augmentedBelow s.size) s (Interface.build hash s elems) _ :=
    build_returns (fun _ => Iff.rfl) rfl
  refine ⟨s', q, hrun, hpres, hq, isTreap_augTree (builtTree_spec hinj elems 0).1, ?_,
    augmented_augTree hcap⟩
  intro d hd
  obtain ⟨val, hval⟩ := vals_of_mem_builtTree hinj elems d hd
  rw [hval]
  exact ValVers.sorted_single _

theorem versionsUpTo_builtTree (hinj : Function.Injective hash) (elems : List UInt64) :
    VersionsUpTo 0 (builtTree hash elems) := by
  intro d hd x hx
  obtain ⟨val, hval⟩ := vals_of_mem_builtTree hinj elems d hd
  rw [hval] at hx
  rw [List.mem_singleton.mp hx]

end Pam
