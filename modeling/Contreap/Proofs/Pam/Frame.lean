/-
A batch never modifies an earlier version.

The cells that exist when a batch is applied are the shared ones; the tree of the batch
and all copies are made after that.  So what a batch writes to are new cells, and every
node there was is as it was, whatever tree it belongs to.  The tree that is returned is
augmented throughout, which is all that the next batch asks of it.
-/
import Contreap.Proofs.Pam.Augment

namespace Pam

open BinaryTree Cartesian PtrHeap

/-! ### What a batch returns

Every function of the interface builds a tree of its own, applies it, and augments the
result.  At each stage the cells of earlier versions are shared, and are only read.
-/

/-- The tree of a batch, before it is applied. -/
def batchTree (hash : UInt64 → UInt64) (ver : Nat) (elems : List UInt64) : Tree :=
  buildTree hash mergeValues (fun half => half) (elems.length + 1) ver elems

/-- What an insertion makes of a tree, before it is augmented. -/
def insertedTree (hash : UInt64 → UInt64) (t : Tree) (ver : Nat) (elems : List UInt64) : Tree :=
  copyMergeTree t (batchTree hash ver elems)

/-- What a deletion makes of a tree, before it is augmented. -/
def deletedTree (hash : UInt64 → UInt64) (t : Tree) (ver : Nat) (elems : List UInt64) : Tree :=
  copySubtractTree t (batchTree hash ver elems)

/-- What an operation does that returns the tree `t`, augmented: no cell there was is any
different. -/
def Returns (D : Division Datum) (s : Store) (o : Option (Store × Ptr)) (t : Tree) : Prop :=
  ∃ s' p, o = some (s', p) ∧ Heap.Preserves s s' ∧ Shows layout s' p (augTree t) ∧ D.Capped t

section
variable {D : Division Datum} (hD : ∀ d, D.raw d ↔ d.vstat = none) {hash : UInt64 → UInt64}
  {s : Store} {p : Ptr} {t : Tree} {ver : Nat} {elems : List UInt64}

theorem raw_batchTree : Raw (batchTree hash ver elems) :=
  raw_buildTree _ _ _ (Nat.lt_succ_self _)

theorem height_lt_recursionBound (hp : Shows layout s p t) : t.height < recursionBound s :=
  Nat.lt_succ_of_le hp.height_le

/-- What existed before is shared. -/
theorem owns_shared (hbase : D.base = s.size) (hp : Shows layout s p t) (hk : D.kept t) :
    Owns linked D s ∅ p t :=
  .shared (hp.allocated.mono fun _ ha => hbase ▸ ha.2) hk

include hD

/-- A new tree, once it is augmented. -/
theorem returns_augmented {o : Option (Store × Ptr)} (hy : Yields linked D ∅ s o t) :
    Returns D s (o.bind fun x =>
      (augmentParallel (recursionBound x.1) x.1 x.2).bind fun y => some (y.1, x.2)) t := by
  obtain ⟨s₁, p, W, rfl, hch, hp, hW⟩ := hy
  obtain ⟨s₂, hrun, hch', -, hrep⟩ :=
    augment_spec hD hp (height_lt_recursionBound hp.shows)
  have hall : Changes ∅ s s₂ := hch.trans hch' hW
  refine ⟨s₂, p, ?_, hall.preserves (Set.empty_subset _), hrep.shows, hp.capped⟩
  rw [Option.bind_some, hrun, Option.bind_some]

variable (hbase : D.base = s.size)

include hbase

theorem build_returns :
    Returns D s (Interface.build hash s elems)
      (buildTree hash addFirst (fun _ => 0) (elems.length + 1) 0 elems) :=
  returns_augmented hD
    (buildWith_spec hD hash addFirst (fun _ => 0) _ 0 elems (Nat.lt_succ_self _) s hbase.le)

/-- The tree of a batch is built, and put to use. -/
theorem yields_batch {F : Store × Ptr → Option (Store × Ptr)} {u : Tree}
    (hp : Shows layout s p t) (hk : D.kept t)
    (hF : ∀ s₁ q B, s.size ≤ s₁.size → D.base ≤ s₁.size → Owns linked D s₁ ∅ p t →
      Owns linked D s₁ B q (batchTree hash ver elems) →
      Yields linked D (∅ ∪ B) s₁ (F (s₁, q)) u) :
    Yields linked D ∅ s ((buildVersioned hash (elems.length + 1) s ver elems).bind F) u := by
  obtain ⟨s₁, q, B, hrun, hch, hq, hB⟩ :=
    buildWith_spec hD hash mergeValues (fun half => half) _ ver elems (Nat.lt_succ_self _) s hbase.le
  have hold := (owns_shared hbase hp hk).keep
    (hch.keeps (fun a ha => absurd ha (Set.notMem_empty a)) (Set.disjoint_empty ∅))
  rw [show buildVersioned hash (elems.length + 1) s ver elems = some (s₁, q) from hrun,
    Option.bind_some]
  refine (hF s₁ q B hch.size_le (hbase.le.trans hch.size_le) hold hq).after hch ?_
  rwa [Set.empty_union]

theorem inserted_returns (hash : UInt64 → UInt64) (ver : Nat) (elems : List UInt64)
    (hp : Shows layout s p t) (hk : D.kept t) :
    Returns D s (Interface.inserted hash s p ver elems) (insertedTree hash t ver elems) := by
  have hy : Yields linked D ∅ s ((buildVersioned hash (elems.length + 1) s ver elems).bind fun x =>
      copyMerge (recursionBound x.1 + recursionBound x.1) x.1 p x.2)
      (insertedTree hash t ver elems) := by
    refine yields_batch hD hbase hp hk fun s₁ q B _ hb hold hq => ?_
    exact copyMerge_spec hD hold hq (Set.empty_disjoint B) raw_batchTree hb
      (Nat.add_lt_add (height_lt_recursionBound hold.shows) (height_lt_recursionBound hq.shows))
  have hret := returns_augmented hD hy
  rw [Option.bind_assoc] at hret
  exact hret

theorem deleted_returns (hash : UInt64 → UInt64) (ver : Nat) (elems : List UInt64)
    (hp : Shows layout s p t) (hk : D.kept t) :
    Returns D s (Interface.deleted hash s p ver elems) (deletedTree hash t ver elems) := by
  have hy : Yields linked D ∅ s ((buildVersioned hash (elems.length + 1) s ver elems).bind fun x =>
      copySubtract (recursionBound x.1 + elems.length + 1) x.1 p x.2)
      (deletedTree hash t ver elems) := by
    refine yields_batch hD hbase hp hk fun s₁ q B _ hb hold hq => ?_
    have hheight : t.height < recursionBound s₁ := height_lt_recursionBound hold.shows
    have hnodes : (batchTree hash ver elems).numNodes ≤ elems.length :=
      numNodes_buildTree_le _ _ _ (Nat.lt_succ_self _)
    refine copySubtract_spec hD hold hq (Set.empty_disjoint B) raw_batchTree hb ?_
    show t.height + _ + 1 < recursionBound s₁ + elems.length + 1
    omega
  have hret := returns_augmented hD hy
  rw [Option.bind_assoc] at hret
  exact hret

end

/-! ### A sequence of batches

That a batch changes no cell there was is kept from batch to batch, since the tree it
returns is augmented and so may be shared in turn.
-/

/-- One batch: its type, its first version and its keys. -/
structure Update where
  type : Batch.Operation
  ver : Nat
  elems : List UInt64
  deriving DecidableEq, Repr

/-- The function of the interface that a batch is applied with. -/
def applyUpdate (hash : UInt64 → UInt64) (s : Store) (p : Ptr) (u : Update) :
    Option (Store × Ptr) :=
  match u.type with
  | .insert => Interface.inserted hash s p u.ver u.elems
  | .delete => Interface.deleted hash s p u.ver u.elems

/-- Each update is applied to the root that the one before it returned; the roots are
listed, the first one included. -/
def applyUpdates (hash : UInt64 → UInt64) (s : Store) (p : Ptr) :
    List Update → Option (Store × List Ptr)
  | [] => some (s, [p])
  | u :: us => do
      let (s, q) ← applyUpdate hash s p u
      let (s, roots) ← applyUpdates hash s q us
      some (s, p :: roots)

/-- The addresses that can be reached from a pointer. -/
inductive Reaches (s : Store) : Ptr → Addr → Prop
  | here (a : Addr) : Reaches s (some a) a
  | left {a b : Addr} {n : Node} (hn : s.get? a = some n) (hb : Reaches s n.lch b) :
      Reaches s (some a) b
  | right {a b : Addr} {n : Node} (hn : s.get? a = some n) (hb : Reaches s n.rch b) :
      Reaches s (some a) b

/-- A pointer to a tree every node of which has been augmented. -/
def AllAugmented (s : Store) (p : Ptr) : Prop := ∃ t, Shows layout s p t ∧ Stamped t

variable {s : Store} {p : Ptr}

/-- What can be reached from such a pointer is a node of its tree. -/
theorem AllAugmented.reaches (h : AllAugmented s p) {a : Addr} (ha : Reaches s p a) :
    ∃ n, s.get? a = some n ∧ n.vstat ≠ none := by
  obtain ⟨t, hp, ht⟩ := h
  induction ha generalizing t with
  | here a =>
      obtain ⟨n, l, r, -, hn, rfl, -, -⟩ := hp.of_some
      exact ⟨n, hn, (stamped_node.mp ht).1⟩
  | left hn _ ih =>
      obtain ⟨n', l, r, -, hn', rfl, hl, -⟩ := hp.of_some
      obtain rfl := Option.some.inj (hn.symm.trans hn')
      exact ih l hl (stamped_node.mp ht).2.1
  | right hn _ ih =>
      obtain ⟨n', l, r, -, hn', rfl, -, hr⟩ := hp.of_some
      obtain rfl := Option.some.inj (hn.symm.trans hn')
      exact ih r hr (stamped_node.mp ht).2.2

/-- One update. -/
theorem applyUpdate_preserves (hash : UInt64 → UInt64) (h : AllAugmented s p) (u : Update) :
    ∃ s' q, applyUpdate hash s p u = some (s', q) ∧ Heap.Preserves s s' ∧ AllAugmented s' q := by
  obtain ⟨t, hp, ht⟩ := h
  have hD : ∀ d, (stampedBelow s.size).raw d ↔ d.vstat = none := fun _ => Iff.rfl
  cases hu : u.type with
  | insert =>
      obtain ⟨s', q, hrun, hpres, hq, hcap⟩ :=
        inserted_returns hD rfl hash u.ver u.elems hp ht
      exact ⟨s', q, by rw [applyUpdate, hu]; exact hrun, hpres, _, hq, stamped_augTree hcap⟩
  | delete =>
      obtain ⟨s', q, hrun, hpres, hq, hcap⟩ :=
        deleted_returns hD rfl hash u.ver u.elems hp ht
      exact ⟨s', q, by rw [applyUpdate, hu]; exact hrun, hpres, _, hq, stamped_augTree hcap⟩

/-- Each batch keeps every cell there was, so the cells of a root are kept by all that
follow. -/
theorem applyUpdates_preserves (hash : UInt64 → UInt64) :
    ∀ (us : List Update) {s : Store} {p : Ptr}, AllAugmented s p →
      ∃ s' roots, applyUpdates hash s p us = some (s', roots) ∧ Heap.Preserves s s' ∧
        ∀ i ≤ us.length, ∃ sᵢ pᵢ, applyUpdates hash s p (us.take i) = some (sᵢ, roots.take (i + 1)) ∧
          roots[i]? = some pᵢ ∧ AllAugmented sᵢ pᵢ ∧ Heap.Preserves sᵢ s' := by
  intro us
  induction us with
  | nil =>
      intro s p h
      refine ⟨s, [p], rfl, .refl s, fun i hi => ?_⟩
      obtain rfl : i = 0 := Nat.le_zero.mp hi
      exact ⟨s, p, rfl, rfl, h, .refl s⟩
  | cons u us ih =>
      intro s p h
      obtain ⟨s₁, q, hrun, hpres, hq⟩ := applyUpdate_preserves hash h u
      obtain ⟨s', roots, hruns, hpres', hall⟩ := ih hq
      refine ⟨s', p :: roots, ?_, hpres.trans hpres', fun i hi => ?_⟩
      · simp only [applyUpdates, hrun, hruns, Option.bind_eq_bind, Option.bind_some]
      · cases i with
        | zero => exact ⟨s, p, rfl, rfl, h, hpres.trans hpres'⟩
        | succ i =>
            obtain ⟨sᵢ, pᵢ, hrunᵢ, hget, haug, hpresᵢ⟩ := hall i (Nat.le_of_succ_le_succ hi)
            refine ⟨sᵢ, pᵢ, ?_, hget, haug, hpresᵢ⟩
            simp only [List.take_succ_cons, applyUpdates, hrun, hrunᵢ, Option.bind_eq_bind,
              Option.bind_some]

/--
**No batch modifies an earlier version.**  Whatever batches of insertions and deletions
are applied one after the other to an augmented tree, each returns a tree that is
augmented throughout, and every node reachable from any of the roots, at the time it was
returned, is the same in all its fields in the end.
-/
theorem updates_keep_versions (hash : UInt64 → UInt64) (s : Store) (p : Ptr)
    (h : AllAugmented s p) (us : List Update) :
    ∃ s' roots, applyUpdates hash s p us = some (s', roots) ∧
      ∀ i ≤ us.length, ∃ sᵢ pᵢ, applyUpdates hash s p (us.take i) = some (sᵢ, roots.take (i + 1)) ∧
        roots[i]? = some pᵢ ∧ ∀ a, Reaches sᵢ pᵢ a →
          ∃ n, sᵢ.get? a = some n ∧ n.vstat ≠ none ∧ s'.get? a = some n := by
  obtain ⟨s', roots, hrun, -, hall⟩ := applyUpdates_preserves hash us h
  refine ⟨s', roots, hrun, fun i hi => ?_⟩
  obtain ⟨sᵢ, pᵢ, hrunᵢ, hget, haug, hpres⟩ := hall i hi
  refine ⟨sᵢ, pᵢ, hrunᵢ, hget, fun a ha => ?_⟩
  obtain ⟨n, hn, hv⟩ := haug.reaches ha
  exact ⟨n, hn, hv, hpres.get? hn⟩

/-- A key is inserted above a node that stays, counted on, and deleted from below a copy. -/
theorem updates_keep_versions_shared :
    ∃ s' roots, applyUpdates id ⟨#[⟨⟨some 0, 5, 5, .single ⟨2, 0⟩, 2⟩, none, none⟩]⟩ (some 0)
        [⟨.insert, 1, [7, 5, 7]⟩, ⟨.delete, 4, [5]⟩] = some (s', roots) ∧
      ∀ i ≤ 2, ∃ sᵢ pᵢ, applyUpdates id ⟨#[⟨⟨some 0, 5, 5, .single ⟨2, 0⟩, 2⟩, none, none⟩]⟩
          (some 0) ([⟨.insert, 1, [7, 5, 7]⟩, ⟨.delete, 4, [5]⟩].take i)
            = some (sᵢ, roots.take (i + 1)) ∧
        roots[i]? = some pᵢ ∧ ∀ a, Reaches sᵢ pᵢ a →
          ∃ n, sᵢ.get? a = some n ∧ n.vstat ≠ none ∧ s'.get? a = some n := by
  refine updates_keep_versions id _ _ ⟨_, .node (L := layout) trivial rfl .nil .nil, ?_⟩ _
  exact stamped_node.mpr ⟨Option.some_ne_none 0, stamped_nil, stamped_nil⟩

end Pam
