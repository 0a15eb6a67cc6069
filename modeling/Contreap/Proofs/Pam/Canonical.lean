/-
The tree a batch leaves.

A batch copies some of the nodes of the old version and shares others, so two trees that
say the same may have been put together differently, and a copy drops the entries before
the last.  What is left when these are disregarded (`Datum.summary`) is determined by
the last entries alone: the shape and the priorities because a treap has one shape over
its keys, the aggregates because they are computed from the last entries
(`WellFormed.summary_eq`).
-/
import Contreap.Proofs.Pam.Contents

namespace Pam

open BinaryTree Cartesian PtrHeap
open scoped UInt64.CommRing

variable {hash : UInt64 → UInt64} {t u : Tree} {s : Store} {p : Ptr} {ver v w : Nat} {k : UInt64}
  {elems : List UInt64}

/-! ### What the last entries determine

Copies drop entries, and nodes are shared, so two trees of one version may differ.  They
agree in `core`, and then in the aggregates, which depend on nothing else.
-/

/-- A node but for its aggregates and the entries before the last. -/
structure Core where
  pry : UInt64
  key : UInt64
  last : ValVer
  deriving DecidableEq

/-- The priority, the key and the last entry of a node. -/
def Datum.core (d : Datum) : Core := ⟨d.pry, d.key, d.vals.last⟩

/-- A node but for the entries before the last. -/
structure Summary where
  vstat : Option Nat
  pry : UInt64
  key : UInt64
  last : ValVer
  aug : UInt64
  deriving DecidableEq

/-- The core of a node with its aggregate. -/
def Datum.summary (d : Datum) : Summary := ⟨d.vstat, d.pry, d.key, d.vals.last, d.aug⟩

/-- The aggregates of two trees that agree in their cores are the same sums and maxima. -/
theorem aggregates_of_core (h : t.map Datum.core = u.map Datum.core) :
    lastVersion t = lastVersion u ∧ total t = total u := by
  induction t generalizing u with
  | nil =>
      cases u with
      | nil => exact ⟨rfl, rfl⟩
      | node e l r => exact absurd h (by simp)
  | node d l r ihl ihr =>
      cases u with
      | nil => exact absurd h (by simp)
      | node e l' r' =>
          rw [map_node, map_node] at h
          injection h with hcore hl hr
          have hlast : d.vals.last = e.vals.last := congrArg Core.last hcore
          obtain ⟨hvl, htl⟩ := ihl hl
          obtain ⟨hvr, htr⟩ := ihr hr
          constructor
          · rw [lastVersion, lastVersion, hlast, hvl, hvr]
          · rw [total, total, hlast, htl, htr]

/-- Two augmented trees that agree in their cores agree in their aggregates. -/
theorem Augmented.summary_eq (ht : Augmented t) (hu : Augmented u)
    (h : t.map Datum.core = u.map Datum.core) :
    t.map Datum.summary = u.map Datum.summary := by
  induction t generalizing u with
  | nil =>
      cases u with
      | nil => rfl
      | node e l r => exact absurd h (by simp)
  | node d l r ihl ihr =>
      cases u with
      | nil => exact absurd h (by simp)
      | node e l' r' =>
          obtain ⟨hv, htot⟩ := aggregates_of_core h
          rw [map_node, map_node] at h
          injection h with hcore hl hr
          have hkey : d.key = e.key := congrArg Core.key hcore
          have hpry : d.pry = e.pry := congrArg Core.pry hcore
          have hlast : d.vals.last = e.vals.last := congrArg Core.last hcore
          rw [map_node, map_node, ihl ht.2.2.1 hu.2.2.1 hl, ihr ht.2.2.2 hu.2.2.2 hr, Datum.summary,
            Datum.summary, ht.1, hu.1, ht.2.1, hu.2.1, hv, htot, hkey, hpry, hlast]

theorem find?_core (ht : IsTreap Datum.key Datum.pry hash t) (k : UInt64) :
    (find? Datum.key k t).map Datum.core = (lastEntry k t).map (Core.mk (hash k) k) := by
  unfold lastEntry
  cases hx : find? Datum.key k t with
  | none => rfl
  | some d =>
      have hkey := key_of_find? hx
      have hpry := ht.prio d (mem_of_find? hx)
      rw [Option.map_some, Option.map_some, Option.map_some, Datum.core, hpry, hkey]

/-- A treap is determined, up to what `core` leaves out, by its last entries. -/
theorem core_eq_of_lastEntry (ht : IsTreap Datum.key Datum.pry hash t)
    (hu : IsTreap Datum.key Datum.pry hash u) (h : ∀ k, lastEntry k t = lastEntry k u) :
    t.map Datum.core = u.map Datum.core := by
  have hkey : ∀ d : Datum, d.core.key = d.key := fun _ => rfl
  have hpry : ∀ d : Datum, d.core.pry = d.pry := fun _ => rfl
  refine (ht.map hkey hpry).eq_of_find? (hu.map hkey hpry) fun k => ?_
  rw [find?_map hkey, find?_map hkey, find?_core ht, find?_core hu, h k]

/-- **A well-formed tree is determined, up to earlier entries, by its last entries.** -/
theorem WellFormed.summary_eq (ht : WellFormed hash t) (hu : WellFormed hash u)
    (h : ∀ k, lastEntry k t = lastEntry k u) : t.map Datum.summary = u.map Datum.summary :=
  ht.augmented.summary_eq hu.augmented (core_eq_of_lastEntry ht.treap hu.treap h)

theorem mem_keys_iff_lastEntry (ht : IsTreap Datum.key Datum.pry hash t) :
    k ∈ keys Datum.key t ↔ lastEntry k t ≠ none := by
  rw [ht.mem_keys_iff, lastEntry, Ne, Option.map_eq_none_iff, Option.isSome_iff_ne_none]

/-! ### The entries of a batch -/

/-- The entries of a node of a batch. -/
theorem vals_of_mem_batchTree (hinj : Function.Injective hash) {d : Datum}
    (hd : d ∈ (batchTree hash ver elems).inorder) :
    stamps ver d.key elems ≠ [] ∧ d.vals.1 = numbered 0 (stamps ver d.key elems) := by
  have hfind := (isTreap_batchTree hinj ver elems).find?_of_mem hd
  rw [find?_batchTree hinj] at hfind
  have hst : stamps ver d.key elems ≠ [] := by
    intro hnil
    rw [hnil] at hfind
    cases hfind
  rw [batchEntry_of_ne_nil hst] at hfind
  exact ⟨hst, (congrArg (fun e => e.vals.1) (Option.some.inj hfind)).symm⟩

/-- The versions in a node of a batch are those at which its key occurs. -/
theorem map_ver_of_mem_batchTree (hinj : Function.Injective hash) {d : Datum}
    (hd : d ∈ (batchTree hash ver elems).inorder) :
    d.vals.1.map ValVer.ver = stamps ver d.key elems := by
  rw [(vals_of_mem_batchTree hinj hd).2, map_ver_numbered]

theorem forall_mem_insertedTree {Q : Datum → Prop} (hweak : ∀ d, Q d → Q d.weak)
    (hshift : ∀ x y, Q y → Q (Datum.shift x y)) (ht : ∀ d ∈ t.inorder, Q d)
    (hbatch : ∀ d ∈ (batchTree hash ver elems).inorder, Q d) :
    ∀ d ∈ (insertedTree hash t ver elems).inorder, Q d :=
  forall_mem_overlayWith hweak (fun x y _ hy => hshift x y hy) ht hbatch

theorem forall_mem_deletedTree {Q : Datum → Prop} (hweak : ∀ d, Q d → Q d.weak)
    (ht : ∀ d ∈ t.inorder, Q d) : ∀ d ∈ (deletedTree hash t ver elems).inorder, Q d := by
  refine forall_mem_subtractWith hweak (fun d hd => ?_) ht
  unfold Datum.copyIfNeed
  split
  · exact hd
  · exact hweak d hd

theorem sorted_of_map_ver {vs : ValVers} (h : (vs.1.map ValVer.ver).Pairwise (· ≤ ·)) :
    vs.Sorted := List.pairwise_map.mp h

theorem Sorted.shift {x y : Datum} (hy : y.vals.Sorted) : (Datum.shift x y).vals.Sorted :=
  List.pairwise_map.mpr hy

theorem VersionsUpTo.augTree (ht : VersionsUpTo w t) : VersionsUpTo w (augTree t) :=
  forall_mem_augTree (fun _ _ _ hd => hd) ht

theorem VersionsUpTo.mono (ht : VersionsUpTo w t) (hv : w ≤ v) : VersionsUpTo v t :=
  fun d hd x hx => (ht d hd x hx).trans hv

theorem VersionsUpTo.insertedTree (hinj : Function.Injective hash) (ht : VersionsUpTo w t)
    (hv : ver + elems.length ≤ w + 1) : VersionsUpTo w (insertedTree hash t ver elems) := by
  refine forall_mem_insertedTree (fun _ => upTo_weak) (fun x y hy z hz => ?_) ht fun d hd x hx => ?_
  · obtain ⟨z', hz', rfl⟩ := List.mem_map.mp hz
    exact hy z' hz'
  · have hmem : x.ver ∈ stamps ver d.key elems :=
      map_ver_of_mem_batchTree hinj hd ▸ List.mem_map_of_mem hx
    have hlt := (le_of_mem_stamps x.ver hmem).2
    omega

theorem VersionsUpTo.deletedTree (ht : VersionsUpTo w t) (ver : Nat) (elems : List UInt64) :
    VersionsUpTo w (deletedTree hash t ver elems) :=
  forall_mem_deletedTree (fun _ => upTo_weak) ht

theorem WellFormed.insertedTree (hinj : Function.Injective hash) (ht : WellFormed hash t) {base : Addr}
    (hcap : (augmentedBelow base).Capped (insertedTree hash t ver elems)) :
    WellFormed hash (augTree (insertedTree hash t ver elems)) where
  treap := isTreap_augTree (isTreap_insertedTree hinj ht.treap ver elems)
  sorted := by
    refine forall_mem_augTree (fun _ _ _ hd => hd) (forall_mem_insertedTree
      (fun d _ => ValVers.sorted_single d.vals.last) (fun _ _ => Sorted.shift) ht.sorted fun d hd => ?_)
    refine sorted_of_map_ver ?_
    rw [map_ver_of_mem_batchTree hinj hd]
    exact stamps_sorted.imp Nat.le_of_lt
  augmented := augmented_augTree hcap

theorem WellFormed.deletedTree (hinj : Function.Injective hash) (ht : WellFormed hash t) {base : Addr}
    (hcap : (augmentedBelow base).Capped (deletedTree hash t ver elems)) :
    WellFormed hash (augTree (deletedTree hash t ver elems)) where
  treap := isTreap_augTree (isTreap_deletedTree hinj ht.treap ver elems)
  sorted := forall_mem_augTree (fun _ _ _ hd => hd)
    (forall_mem_deletedTree (fun d _ => ValVers.sorted_single d.vals.last) ht.sorted)
  augmented := augmented_augTree hcap

/-! ### What the operations return -/

/-- A version that has been returned, nothing of an earlier one being any different. -/
def Gives (hash : UInt64 → UInt64) (s : Store) (o : Option (Store × Ptr)) (t : Tree) : Prop :=
  ∃ s' q, o = some (s', q) ∧ Heap.Preserves s s' ∧ Shows layout s' q t ∧ WellFormed hash t

theorem inserted_gives (hinj : Function.Injective hash) (hp : Shows layout s p t)
    (ht : WellFormed hash t) (ver : Nat) (elems : List UInt64) :
    Gives hash s (Interface.inserted hash s p ver elems)
      (augTree (insertedTree hash t ver elems)) := by
  obtain ⟨s', q, hrun, hpres, hq, hcap⟩ := inserted_returns (D := augmentedBelow s.size)
    (fun _ => Iff.rfl) rfl hash ver elems hp ht.augmented
  exact ⟨s', q, hrun, hpres, hq, ht.insertedTree hinj hcap⟩

theorem deleted_gives (hinj : Function.Injective hash) (hp : Shows layout s p t)
    (ht : WellFormed hash t) (ver : Nat) (elems : List UInt64) :
    Gives hash s (Interface.deleted hash s p ver elems)
      (augTree (deletedTree hash t ver elems)) := by
  obtain ⟨s', q, hrun, hpres, hq, hcap⟩ := deleted_returns (D := augmentedBelow s.size)
    (fun _ => Iff.rfl) rfl hash ver elems hp ht.augmented
  exact ⟨s', q, hrun, hpres, hq, ht.deletedTree hinj hcap⟩

/-! ### The last entries after a batch -/

/-- The place of the last occurrence. -/
def IsLastIndex (elems : List UInt64) (k : UInt64) (i : Nat) : Prop :=
  elems[i]? = some k ∧ ∀ j, i < j → elems[j]? ≠ some k

theorem getLast_stamps {i : Nat} (hi : IsLastIndex elems k i) (hne : stamps ver k elems ≠ []) :
    (stamps ver k elems).getLast hne = ver + i := by
  have hmem : ver + i ∈ stamps ver k elems :=
    (mem_stamps _).mpr ⟨Nat.le_add_right ver i, by rw [Nat.add_sub_cancel_left]; exact hi.1⟩
  obtain ⟨hle, hget⟩ := (mem_stamps _).mp (List.getLast_mem hne)
  have hsorted : (stamps ver k elems).Pairwise (· < ·) := stamps_sorted
  rw [← List.dropLast_append_getLast hne] at hmem hsorted
  -- Nothing comes after the last occurrence, and it is not before the last version.
  have hge : ver + i ≤ (stamps ver k elems).getLast hne := by
    rcases List.mem_append.mp hmem with hm | hm
    · exact ((List.pairwise_append.mp hsorted).2.2 _ hm _ (List.mem_singleton.mpr rfl)).le
    · exact (List.mem_singleton.mp hm).le
  have hnot : ¬ i < (stamps ver k elems).getLast hne - ver := fun hlt => hi.2 _ hlt hget
  omega

/-- A key in the batch counts on from its old counter, and has the version of its last
occurrence. -/
theorem lastEntry_insertedTree (hinj : Function.Injective hash)
    (ht : IsTreap Datum.key Datum.pry hash t) (ver : Nat) (elems : List UInt64) :
    lastEntry k (augTree (insertedTree hash t ver elems))
      = if h : stamps ver k elems ≠ [] then
          some ⟨lastValue k t + (elems.count k : UInt64), (stamps ver k elems).getLast h⟩
        else lastEntry k t := by
  rw [lastEntry_augTree, lastEntry, find?_insertedTree (Q := fun _ => True) hinj
    (fun _ _ => trivial) (fun _ _ => rfl) ht fun _ _ => trivial]
  by_cases hst : stamps ver k elems ≠ []
  · rw [dif_pos hst, merge_shift_batchEntry _ hst, Option.map_some, lastValue, lastEntry,
      Option.map_map, ← show (stamps ver k elems).length = elems.count k from length_stamps]
    exact congrArg some (numbered_last _ hst)
  · rw [dif_neg hst, not_ne_iff.mp hst, batchEntry, Option.merge_none_right]
    rfl

theorem lastEntry_deletedTree (hinj : Function.Injective hash)
    (ht : IsTreap Datum.key Datum.pry hash t) (ver : Nat) (elems : List UInt64) :
    lastEntry k (augTree (deletedTree hash t ver elems))
      = if k ∈ elems then none else lastEntry k t := by
  rw [lastEntry_augTree, lastEntry, find?_deletedTree (Q := fun _ => True) hinj
    (fun _ _ => trivial) (fun _ _ => rfl) ht fun _ _ => trivial]
  rfl

/-- A well-formed tree, and the only treap that has its last entries. -/
structure Canonical (hash : UInt64 → UInt64) (t : Tree) : Prop where
  wellFormed : WellFormed hash t
  unique : ∀ u, IsTreap Datum.key Datum.pry hash u → (∀ k, lastEntry k u = lastEntry k t) →
    u.map Datum.core = t.map Datum.core

theorem WellFormed.canonical (ht : WellFormed hash t) : Canonical hash t :=
  ⟨ht, fun _ hu hlast => core_eq_of_lastEntry hu ht.treap hlast⟩

/--
**A batch leaves the canonical tree.**  An insertion returns the treap that has the keys
of the old tree and those of the batch, where a key in the batch counts its occurrences
on from the old counter and has the version of the last of them, and the other keys are
as they were; a deletion returns the treap of the keys that are not in the batch, as
they were.  Every aggregate is what it should be.
-/
theorem batch_canonical (hash : UInt64 → UInt64) (hinj : Function.Injective hash) (s : Store)
    (p : Ptr) (t : Tree) (hp : Shows layout s p t) (ht : WellFormed hash t) (ver : Nat)
    (elems : List UInt64) :
    (∃ s' q t', Interface.inserted hash s p ver elems = some (s', q) ∧ Shows layout s' q t' ∧
      Canonical hash t' ∧ (∀ k, k ∈ keys Datum.key t' ↔ k ∈ keys Datum.key t ∨ k ∈ elems) ∧
      (∀ k, k ∉ elems → lastEntry k t' = lastEntry k t) ∧
      ∀ k i, IsLastIndex elems k i →
        lastEntry k t' = some ⟨lastValue k t + (elems.count k : UInt64), ver + i⟩) ∧
    ∃ s' q t', Interface.deleted hash s p ver elems = some (s', q) ∧ Shows layout s' q t' ∧
      Canonical hash t' ∧ (∀ k, k ∈ keys Datum.key t' ↔ k ∈ keys Datum.key t ∧ k ∉ elems) ∧
      ∀ k, k ∉ elems → lastEntry k t' = lastEntry k t := by
  constructor
  · obtain ⟨s', q, hrun, -, hq, ht'⟩ := inserted_gives hinj hp ht ver elems
    have hlast := fun k => lastEntry_insertedTree (k := k) hinj ht.treap ver elems
    refine ⟨s', q, _, hrun, hq, ht'.canonical, fun k => ?_, fun k hk => ?_, fun k i hi => ?_⟩
    · rw [mem_keys_iff_lastEntry ht'.treap, mem_keys_iff_lastEntry ht.treap, hlast]
      by_cases hk : k ∈ elems
      · rw [dif_pos fun hnil => stamps_eq_nil.mp hnil hk]
        exact iff_of_true (Option.some_ne_none _) (Or.inr hk)
      · rw [dif_neg (not_ne_iff.mpr (stamps_eq_nil.mpr hk))]
        exact (or_iff_left hk).symm
    · rw [hlast, dif_neg (not_ne_iff.mpr (stamps_eq_nil.mpr hk))]
    · have hst : stamps ver k elems ≠ [] := fun hnil =>
        stamps_eq_nil.mp hnil (List.mem_of_getElem? hi.1)
      rw [hlast, dif_pos hst, getLast_stamps hi]
  · obtain ⟨s', q, hrun, -, hq, ht'⟩ := deleted_gives hinj hp ht ver elems
    have hlast := fun k => lastEntry_deletedTree (k := k) hinj ht.treap ver elems
    refine ⟨s', q, _, hrun, hq, ht'.canonical, fun k => ?_, fun k hk => ?_⟩
    · rw [mem_keys_iff_lastEntry ht'.treap, mem_keys_iff_lastEntry ht.treap, hlast]
      by_cases hk : k ∈ elems
      · rw [if_pos hk]
        exact iff_of_false (fun h => h rfl) fun h => h.2 hk
      · rw [if_neg hk]
        exact (and_iff_left hk).symm
    · rw [hlast, if_neg hk]

theorem shows_single {a : Addr} {n : Node} (hn : s.get? a = some n) (hl : n.lch = none)
    (hr : n.rch = none) : Shows layout s (some a) (node n.toDatum nil nil) := by
  refine Rep.node (L := layout) (Set.mem_univ a) hn ?_ ?_
  · rw [show layout.lch n = none from hl]
    exact .nil
  · rw [show layout.rch n = none from hr]
    exact .nil

theorem wellFormed_single {d : Datum} (hpry : d.pry = hash d.key) (hs : d.vals.Sorted)
    (hv : d.vstat = some d.vals.last.ver) (ha : d.aug = d.vals.last.val) :
    WellFormed hash (node d nil nil) where
  treap := isTreap_node.mpr ⟨hpry, by simp, by simp, trivial, trivial⟩
  sorted := forall_mem_inorder_node.mpr ⟨hs, by simp, by simp⟩
  augmented := by
    refine ⟨?_, ?_, trivial, trivial⟩
    · rw [hv, lastVersion, lastVersion, max_self, Nat.max_zero]
    · rw [ha, total, total, zero_add, add_zero]

/-- One key is counted on, the other one comes below a copy. -/
theorem batch_canonical_single :
    (∃ s' q t', Interface.inserted id ⟨#[⟨⟨some 0, 5, 5, .single ⟨2, 0⟩, 2⟩, none, none⟩]⟩ (some 0)
        1 [7, 5, 7] = some (s', q) ∧ Shows layout s' q t' ∧ Canonical id t' ∧
      (∀ k, k ∈ keys Datum.key t' ↔
        k ∈ keys Datum.key (node ⟨some 0, 5, 5, .single ⟨2, 0⟩, 2⟩ nil nil) ∨
          k ∈ ([7, 5, 7] : List UInt64)) ∧
      (∀ k, k ∉ ([7, 5, 7] : List UInt64) →
        lastEntry k t' = lastEntry k (node ⟨some 0, 5, 5, .single ⟨2, 0⟩, 2⟩ nil nil)) ∧
      ∀ k i, IsLastIndex [7, 5, 7] k i → lastEntry k t' = some
        ⟨lastValue k (node ⟨some 0, 5, 5, .single ⟨2, 0⟩, 2⟩ nil nil)
          + (([7, 5, 7] : List UInt64).count k : UInt64), 1 + i⟩) ∧
    ∃ s' q t', Interface.deleted id ⟨#[⟨⟨some 0, 5, 5, .single ⟨2, 0⟩, 2⟩, none, none⟩]⟩ (some 0)
        1 [7, 5, 7] = some (s', q) ∧ Shows layout s' q t' ∧ Canonical id t' ∧
      (∀ k, k ∈ keys Datum.key t' ↔
        k ∈ keys Datum.key (node ⟨some 0, 5, 5, .single ⟨2, 0⟩, 2⟩ nil nil) ∧
          k ∉ ([7, 5, 7] : List UInt64)) ∧
      ∀ k, k ∉ ([7, 5, 7] : List UInt64) →
        lastEntry k t' = lastEntry k (node ⟨some 0, 5, 5, .single ⟨2, 0⟩, 2⟩ nil nil) :=
  batch_canonical id Function.injective_id _ _ (node ⟨some 0, 5, 5, .single ⟨2, 0⟩, 2⟩ nil nil)
    (shows_single (n := ⟨⟨some 0, 5, 5, .single ⟨2, 0⟩, 2⟩, none, none⟩) rfl rfl rfl)
    (wellFormed_single rfl (ValVers.sorted_single ⟨2, 0⟩) rfl rfl) 1 [7, 5, 7]

end Pam
