/-
The tree a multiset determines.

A well-formed tree is fixed, but for the versions of its nodes, by the multiset it
stores: its keys are the support, their priorities the hash, their counters the
multiplicities, and a treap has one shape over its elements.  Merging two trees, which
is all that building does, adds the multisets.  So building and updating meet in the
same tree whenever they end in the same multiset.
-/
import Contreap.Proofs.Treap.Tree

namespace Treap

open BinaryTree Cartesian

variable {hash : UInt64 → UInt64}

/-! ### A well-formed tree and its multiset

Keys, counters and priorities can be read off the multiset, and a treap has one shape.
-/

/-- Counters are positive, so a key that has a node is stored. -/
theorem WellFormed.mem_contents_iff {t : BinaryTree Datum} (ht : WellFormed hash t) {k : UInt64} :
    k ∈ contents t ↔ k ∈ keys Datum.key t := by
  refine ⟨mem_keys_of_mem_contents, ?_⟩
  induction t with
  | nil => simp
  | node d l r ihl ihr =>
      obtain ⟨-, hv, -, -, hwl, hwr⟩ := wellFormed_node.mp ht
      intro hk
      rw [contents_node, Multiset.mem_add, Multiset.mem_add]
      rw [keys_node, List.mem_append, List.mem_cons] at hk
      rcases hk with hk | rfl | hk
      · exact Or.inl (Or.inl (ihl hwl hk))
      · refine Or.inl (Or.inr (Multiset.mem_replicate.mpr ⟨?_, rfl⟩))
        exact fun hzero => hv (UInt64.toNat_inj.mp hzero)
      · exact Or.inr (ihr hwr hk)

/-- The counter of a key is its multiplicity. -/
theorem WellFormed.count_eq {t : BinaryTree Datum} (ht : WellFormed hash t) :
    ∀ d ∈ t.inorder, (contents t).count d.key = d.val.toNat := by
  induction t with
  | nil => simp
  | node e l r ihl ihr =>
      obtain ⟨-, -, hl, hr, hwl, hwr⟩ := wellFormed_node.mp ht
      have hnot : ∀ {u : BinaryTree Datum} {k : UInt64}, k ∉ keys Datum.key u →
          (contents u).count k = 0 := fun hk =>
        Multiset.count_eq_zero_of_notMem fun hmem => hk (mem_keys_of_mem_contents hmem)
      intro d hd
      rw [contents_node, Multiset.count_add, Multiset.count_add, Multiset.count_replicate]
      rcases List.mem_append.mp hd with hd | hd
      · have hdk : d.key ∈ keys Datum.key l := List.mem_map_of_mem hd
        have hlt := (hl _ hdk).1
        rw [ihl hwl d hd, if_neg hlt.ne', hnot fun hk => (hlt.trans (hr _ hk).1).ne rfl]
        simp
      · rcases List.mem_cons.mp hd with rfl | hd
        · rw [hnot fun hk => (hl _ hk).1.ne rfl, hnot fun hk => (hr _ hk).1.ne rfl]
          simp
        · have hdk : d.key ∈ keys Datum.key r := List.mem_map_of_mem hd
          have hlt := (hr _ hdk).1
          rw [ihr hwr d hd, if_neg hlt.ne, hnot fun hk => ((hl _ hk).1.trans hlt).ne rfl]
          simp

/-- The shape of a node is a function of its key and the multiset. -/
theorem WellFormed.shape_mem {s t : BinaryTree Datum} (hs : WellFormed hash s)
    (ht : WellFormed hash t) (heq : contents s = contents t) :
    ∀ d ∈ s.inorder, d.shape ∈ (t.map Datum.shape).inorder := by
  intro d hd
  have hk : d.key ∈ keys Datum.key t := by
    rw [← ht.mem_contents_iff, ← heq, hs.mem_contents_iff]
    exact List.mem_map_of_mem hd
  obtain ⟨e, he, hek⟩ := List.mem_map.mp hk
  have hpry : d.pry = e.pry := by rw [hs.treap.prio d hd, ht.treap.prio e he, hek]
  have hval : d.val = e.val := by
    refine UInt64.toNat_inj.mp ?_
    rw [← hs.count_eq d hd, ← ht.count_eq e he, hek, heq]
  rw [inorder_map]
  refine List.mem_map.mpr ⟨e, he, ?_⟩
  simp only [Datum.shape, hek, hpry, hval]

/--
**A well-formed tree is determined, up to versions, by the multiset it stores.**
-/
theorem WellFormed.shape_eq {s t : BinaryTree Datum} (hs : WellFormed hash s)
    (ht : WellFormed hash t) (heq : contents s = contents t) :
    s.map Datum.shape = t.map Datum.shape := by
  have hmap : ∀ {u : BinaryTree Datum}, WellFormed hash u →
      IsTreap Datum.Shape.key Datum.Shape.pry hash (u.map Datum.shape) :=
    fun hu => hu.treap.map (g := Datum.shape) (fun _ => rfl) (fun _ => rfl)
  refine (hmap hs).eq_of_mem_iff (hmap ht) fun x => ⟨fun hx => ?_, fun hx => ?_⟩
  · obtain ⟨d, hd, rfl⟩ := List.mem_map.mp (inorder_map Datum.shape s ▸ hx)
    exact hs.shape_mem ht heq d hd
  · obtain ⟨d, hd, rfl⟩ := List.mem_map.mp (inorder_map Datum.shape t ▸ hx)
    exact ht.shape_mem hs heq.symm d hd

/-! ### Merging adds multisets -/

/-- The counters of one key are added, which is exact as long as the sum fits. -/
theorem contents_mergeTree (s t : BinaryTree Datum)
    (hroom : (contents s).card + (contents t).card < 2 ^ 64) :
    contents (mergeTree s t) = contents s + contents t := by
  unfold mergeTree
  induction s, t using unionWith.induct Datum.key Datum.pry with
  | case1 t => simp
  | case2 x l r => simp
  | case3 x l r y l' r' heq ihl ihr =>
      simp only [contents_node, Multiset.card_add, Multiset.card_replicate] at hroom
      have hval : (y.val + x.val).toNat = y.val.toNat + x.val.toNat := by
        rw [UInt64.toNat_add, Nat.mod_eq_of_lt (by omega)]
      rw [unionWith_node, if_pos heq, contents_node, ihl (by omega), ihr (by omega)]
      simp only [addVal, hval, contents_node, heq, Multiset.replicate_add]
      abel
  | case4 x l r y l' r' hne hlt ihl ihr =>
      have hsplit := contents_splitWith (f := id) (fun _ => rfl) (fun _ => rfl) x.key
        (node y l' r')
      rw [← hsplit] at hroom
      simp only [contents_node x, Multiset.card_add, Multiset.card_replicate] at hroom
      rw [unionWith_node, if_neg hne, if_pos hlt, contents_node, ihl (by omega),
        ihr (by omega), ← hsplit, contents_node]
      abel
  | case5 x l r y l' r' hne hlt ihl ihr =>
      have hsplit := contents_splitWith (f := id) (fun _ => rfl) (fun _ => rfl) y.key
        (node x l r)
      rw [← hsplit] at hroom
      simp only [contents_node y, Multiset.card_add, Multiset.card_replicate] at hroom
      rw [unionWith_node, if_neg hne, if_neg hlt, contents_node, ihl (by omega),
        ihr (by omega), ← hsplit, contents_node]
      abel

/-- No counter becomes zero, for the same reason. -/
theorem pos_mergeTree (s t : BinaryTree Datum)
    (hroom : (contents s).card + (contents t).card < 2 ^ 64)
    (hs : ∀ d ∈ s.inorder, d.val ≠ 0) (ht : ∀ d ∈ t.inorder, d.val ≠ 0) :
    ∀ d ∈ (mergeTree s t).inorder, d.val ≠ 0 := by
  unfold mergeTree
  have hmem : ∀ {u v : BinaryTree Datum} {e d : Datum}, (∀ d ∈ u.inorder, d.val ≠ 0) →
      e.val ≠ 0 → (∀ d ∈ v.inorder, d.val ≠ 0) → d ∈ (node e u v).inorder → d.val ≠ 0 := by
    intro u v e d hu he hv hd
    rcases List.mem_append.mp hd with hd | hd
    · exact hu d hd
    · rcases List.mem_cons.mp hd with rfl | hd
      · exact he
      · exact hv d hd
  induction s, t using unionWith.induct Datum.key Datum.pry with
  | case1 t => simpa using ht
  | case2 x l r => simpa using hs
  | case3 x l r y l' r' heq ihl ihr =>
      simp only [contents_node, Multiset.card_add, Multiset.card_replicate] at hroom
      rw [unionWith_node, if_pos heq]
      intro d
      refine hmem (ihl (by omega) (fun d hd => hs d (by simp [hd]))
        (fun d hd => ht d (by simp [hd]))) ?_ (ihr (by omega)
        (fun d hd => hs d (by simp [hd])) (fun d hd => ht d (by simp [hd])))
      intro hzero
      have hval : (y.val + x.val).toNat = y.val.toNat + x.val.toNat := by
        rw [UInt64.toNat_add, Nat.mod_eq_of_lt (by omega)]
      have hy : y.val.toNat ≠ 0 := fun h => ht y (by simp) (UInt64.toNat_inj.mp h)
      simp only [addVal] at hzero
      rw [hzero, UInt64.toNat_zero] at hval
      omega
  | case4 x l r y l' r' hne hlt ihl ihr =>
      have hsplit := contents_splitWith (f := id) (fun _ => rfl) (fun _ => rfl) x.key
        (node y l' r')
      obtain ⟨ha, hb⟩ := mem_splitWith_val (f := id) (fun _ => rfl) (k := x.key) ht
      rw [← hsplit] at hroom
      simp only [contents_node x, Multiset.card_add, Multiset.card_replicate] at hroom
      rw [unionWith_node, if_neg hne, if_pos hlt]
      intro d
      exact hmem (ihl (by omega) (fun d hd => hs d (by simp [hd])) ha) (hs x (by simp))
        (ihr (by omega) (fun d hd => hs d (by simp [hd])) hb)
  | case5 x l r y l' r' hne hlt ihl ihr =>
      have hsplit := contents_splitWith (f := id) (fun _ => rfl) (fun _ => rfl) y.key
        (node x l r)
      obtain ⟨ha, hb⟩ := mem_splitWith_val (f := id) (fun _ => rfl) (k := y.key) hs
      rw [← hsplit] at hroom
      simp only [contents_node y, Multiset.card_add, Multiset.card_replicate] at hroom
      rw [unionWith_node, if_neg hne, if_neg hlt]
      intro d
      exact hmem (ihl (by omega) ha (fun d hd => ht d (by simp [hd]))) (ht y (by simp))
        (ihr (by omega) hb (fun d hd => ht d (by simp [hd])))

theorem WellFormed.mergeTree (hinj : Function.Injective hash) {s t : BinaryTree Datum}
    (hs : WellFormed hash s) (ht : WellFormed hash t)
    (hroom : (contents s).card + (contents t).card < 2 ^ 64) :
    WellFormed hash (mergeTree s t) :=
  ⟨IsTreap.unionWith hinj
      (fun x y (h : x.key = y.key) => show (addVal x y).key = x.key from h.symm)
      (fun x y _ (h : x.pry = y.pry) => show (addVal x y).pry = x.pry from h.symm) hs.treap ht.treap,
    pos_mergeTree s t hroom hs.pos ht.pos⟩

end Treap
