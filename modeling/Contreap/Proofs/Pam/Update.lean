/-
Applying a batch leaves the tree it is applied to as it is.

The functions that apply a batch work on two trees at once: one that was there before,
most of which is shared, and the tree of the batch, which is their own.  A node of the
first is copied before anything about it changes, a node of the second is written in
place.  What comes out owns nodes of the batch and new ones, and has subtrees of the old
tree below them.
-/
import Contreap.Proofs.Pam.Tree

namespace Pam

open BinaryTree Cartesian PtrHeap

variable {D : Division Datum} (hD : ∀ d, D.raw d ↔ d.vstat = none)
  {s : Store} {p q : Ptr} {A B W : Set Addr} {t u l r : Tree} {a : Addr} {n : Node}

/-! ### Copying a node

A copy is made before anything below it is computed, and linked afterwards.  Until then
it belongs to nobody, so the tree that is worked on must be known to stay as it is.
-/

/-- The cell a weak copy is put in, with its links set. -/
def copied (n : Node) (lch rch : Ptr) : Node := ⟨n.weak, lch, rch⟩

theorem makeWeakCopy_eq (s : Store) (n : Node) :
    makeWeakCopy s n = ((s.alloc (copied n none none)).1, s.size) := rfl

/-- A weak copy with links set is in a new cell, and nothing else has changed. -/
theorem keeps_copy (hbase : D.base ≤ s.size) (hW : ∀ a ∈ W, a < s.size) (f : Node → Node) :
    Keeps D W s ((s.alloc (copied n none none)).1.modify s.size f) :=
  ((Keeps.refl W s).alloc _).modify hbase (fun hmem => (hW _ hmem).ne rfl) f

theorem changes_copy (A : Set Addr) (s : Store) (n : Node) (f : Node → Node) :
    Changes A s ((s.alloc (copied n none none)).1.modify s.size f) :=
  (Changes.alloc A s _).modify (Or.inr (le_refl s.size)) f

/-! ### `copy_split`

The shape of this proof returns in the rest of the file.  A node on the path is copied,
the call below it owns a part of what the tree owns, and the copy is put on top of one
of the two results.
-/

include hD

/-- Nothing is written but copies, and each part owns its own. -/
theorem copySplit_spec (key : UInt64) :
    ∀ {t : Tree} {fuel : Nat} {s : Store} {p : Ptr} {W : Set Addr},
      Owns linked D s W p t → D.base ≤ s.size → t.height < fuel →
      YieldsPair linked D W s (copySplit fuel s p key)
        (copySplitTree key t).1 (copySplitTree key t).2 := by
  intro t
  induction t with
  | nil =>
      intro fuel s p W hp _ hfuel
      obtain ⟨fuel, rfl⟩ := succ_of_lt hfuel
      rw [hp.of_nil]
      exact YieldsPair.nil
  | node d l r ihl ihr =>
      intro fuel s p W hp hbase hfuel
      obtain ⟨fuel, rfl⟩ := succ_of_lt hfuel
      have hW : ∀ a ∈ W, a < s.size := fun a ha => (hp.lt a ha).2
      obtain ⟨a, n, A, B, rfl, hn, rfl, hl, hr, hAB, hA, hB, -⟩ := hp.of_node
      have hnew : ∀ {E : Set Addr}, E ⊆ W → s.size ∉ E := fun hE hmem => (hW _ (hE hmem)).ne rfl
      have hsub : insert s.size (A ∪ B) ⊆ W ∪ s.fresh :=
        Set.insert_subset (Or.inr (le_refl s.size))
          ((Set.union_subset hA hB).trans Set.subset_union_left)
      simp only [height] at hfuel
      simp only [copySplit, hn, Option.bind_eq_bind, Option.bind_some, makeWeakCopy_eq]
      by_cases hkey : key < n.key
      · have hkeep := keeps_copy (n := n) hbase hW fun c => { c with rch := n.rch }
        have hl' := hl.keep (hkeep.mono hA)
        have hr' := hr.keep (hkeep.mono hB)
        have hcell : (setRch (s.alloc (copied n none none)).1 s.size n.rch).get? s.size
            = some (copied n none n.rch) := Heap.get?_modify_self Heap.get?_alloc_self
        rw [if_pos hkey, show copySplitTree key (node (linked.shown a n) l r)
            = ((copySplitTree key l).1, node (linked.shown a n).weak (copySplitTree key l).2 r)
          from splitWith_of_lt (show key < (linked.shown a n).key from hkey)]
        exact (YieldsPair.linkLch hbase hcell ((hD _).mpr rfl) (hnew hA) (hnew hB) hAB
          (fun b hb => (hl.lt b hb).1) (ihl hl' (hbase.trans hkeep.size_le) (by omega)) hr').after
          (changes_copy W s n _) hsub
      · have hkeep := keeps_copy (n := n) hbase hW fun c => { c with lch := n.lch }
        have hl' := hl.keep (hkeep.mono hA)
        have hr' := hr.keep (hkeep.mono hB)
        have hcell : (setLch (s.alloc (copied n none none)).1 s.size n.lch).get? s.size
            = some (copied n n.lch none) := Heap.get?_modify_self Heap.get?_alloc_self
        rw [if_neg hkey, show copySplitTree key (node (linked.shown a n) l r)
            = (node (linked.shown a n).weak l (copySplitTree key r).1, (copySplitTree key r).2)
          from splitWith_of_not_lt (show ¬ key < (linked.shown a n).key from hkey)]
        exact (YieldsPair.linkRch hbase hcell ((hD _).mpr rfl) (hnew hB) (hnew hA) hAB.symm
          (fun b hb => (hr.lt b hb).1) (ihr hr' (hbase.trans hkeep.size_le) (by omega)) hl').after
          (changes_copy W s n _) (Set.union_comm A B ▸ hsub)

/-! ### A copy of the old root on top

`copy_merge` and `copy_subtract` have this case in common: a copy of the old root stays
on top, and what is below it comes from two calls, one for each side.
-/

/-- The batch is split at a root whose copy stays on top, and a recursion goes on with the
two sides. -/
theorem yields_copy_sides (run : Store → Ptr → Ptr → Option (Store × Ptr)) {fuel : Nat}
    {A₁ A₂ : Set Addr} {tl tr : Tree} (hl : Owns linked D s A₁ n.lch l)
    (hr : Owns linked D s A₂ n.rch r) (hA₁₂ : Disjoint A₁ A₂) (hA₁ : A₁ ⊆ A) (hA₂ : A₂ ⊆ A)
    (hq : Owns linked D s B q u) (hu : Raw u) (hAB : Disjoint A B) (hbase : D.base ≤ s.size)
    (hfuel : u.height < fuel)
    (ihl : ∀ s₁ tL B₁, D.base ≤ s₁.size → Owns linked D s₁ A₁ n.lch l →
      Owns linked D s₁ B₁ tL (splitTree n.key u).1 → Disjoint A₁ B₁ →
      Yields linked D (A₁ ∪ B₁) s₁ (run s₁ n.lch tL) tl)
    (ihr : ∀ s₁ tR B₂, D.base ≤ s₁.size → Owns linked D s₁ A₂ n.rch r →
      Owns linked D s₁ B₂ tR (splitTree n.key u).2 → Disjoint A₂ B₂ →
      Yields linked D (A₂ ∪ B₂) s₁ (run s₁ n.rch tR) tr) :
    Yields linked D (A ∪ B) s
      ((split fuel (s.alloc (copied n none none)).1 q n.key).bind fun x =>
        (run x.1 n.lch x.2.1).bind fun y =>
          (run (setLch y.1 s.size y.2) n.rch x.2.2).bind fun z =>
            some (setRch z.1 s.size z.2, some s.size))
      (node n.weak tl tr) := by
  have hch₀ : Changes (A ∪ B) s (s.alloc (copied n none none)).1 := .alloc _ s _
  have hkeep₀ : ∀ {E : Set Addr}, Keeps D E s (s.alloc (copied n none none)).1 :=
    (Keeps.refl _ s).alloc _
  obtain ⟨s₁, tL, tR, B₁, B₂, hrun, hch, hL, hR, hB₁₂, hB₁, hB₂⟩ :=
    split_spec hD n.key (hq.keep hkeep₀) hu hfuel
  have hnewA : ∀ {E : Set Addr} {v : Ptr} {w : Tree}, Owns linked D s E v w → s.size ∉ E :=
    fun hw hmem => (hw.lt _ hmem).2.ne rfl
  have hnewB : ∀ {E : Set Addr}, E ⊆ B ∪ (s.alloc (copied n none none)).1.fresh → s.size ∉ E := by
    intro E hE hmem
    refine (hE hmem).elim (hnewA hq) fun hle => ?_
    rw [Heap.fresh, Heap.size_alloc] at hle
    exact Nat.not_succ_le_self s.size hle
  have hmade : ∀ {E : Set Addr}, E ⊆ B ∪ (s.alloc (copied n none none)).1.fresh →
      E ⊆ B ∪ s.fresh := fun hE => subset_fresh_trans Set.subset_union_left hch₀.size_le hE
  have hkeep : ∀ {E : Set Addr}, Disjoint B E → Keeps D E s s₁ := fun hE =>
    hkeep₀.trans (hch.keeps (fun b hb => (hq.lt b hb).1) hE)
  have hB : ∀ {E E' : Set Addr} {v : Ptr} {w : Tree}, Owns linked D s E v w → E ⊆ A →
      E' ⊆ B ∪ (s.alloc (copied n none none)).1.fresh → Disjoint E E' :=
    fun hw hE hE' => hw.disjoint_made (hAB.mono_left hE) (hmade hE')
  have hl₁ := hl.keep (hkeep (hAB.mono_left hA₁).symm)
  have hr₁ := hr.keep (hkeep (hAB.mono_left hA₂).symm)
  have hbase₁ : D.base ≤ s₁.size := hbase.trans (hch₀.size_le.trans hch.size_le)
  have hsides := Yields.sides (L := linked) (D := D) run hbase
    (hch.get? (hnewA hq) Heap.get?_alloc_self) ((hD _).mpr rfl)
    (fun hmem => hmem.elim (hnewA hl) (hnewB hB₁)) (fun hmem => hmem.elim (hnewA hr) (hnewB hB₂))
    (Set.disjoint_union_left.mpr
      ⟨Set.disjoint_union_right.mpr ⟨hA₁₂, hB hl hA₁ hB₂⟩,
        Set.disjoint_union_right.mpr ⟨(hB hr hA₂ hB₁).symm, hB₁₂⟩⟩)
    hl₁ hL hr₁ hR (ihl s₁ tL B₁ hbase₁ hl₁ hL (hB hl hA₁ hB₁))
    (fun s₂ hle hr₂ hR₂ => ihr s₂ tR B₂ (hbase₁.trans hle) hr₂ hR₂ (hB hr hA₂ hB₂))
  rw [hrun, Option.bind_some]
  exact hsides.after (hch₀.trans hch fun _ h => Or.inl (Or.inr h)) (insert_parts_subset
    (Or.inr (le_refl s.size)) (fun _ h => Or.inl (Or.inl (hA₁ h)))
    ((hmade hB₁).trans (Set.union_subset_union_left _ Set.subset_union_right))
    (fun _ h => Or.inl (Or.inl (hA₂ h)))
    ((hmade hB₂).trans (Set.union_subset_union_left _ Set.subset_union_right)))

/-! ### `copy_merge`

Either root may come out on top.  If it is the old one, it is copied and the batch is
split; if it is that of the batch, it is written to, and the old tree is split by
copying, unless the two have one key.
-/

/-- The induction follows the cases of `overlayWith`.  The fuel counts the height of both
trees, since a split makes neither side higher. -/
theorem copyMerge_spec :
    ∀ {t u : Tree} {fuel : Nat} {s : Store} {p q : Ptr} {A B : Set Addr},
      Owns linked D s A p t → Owns linked D s B q u → Disjoint A B → Raw u → D.base ≤ s.size →
      t.height + u.height < fuel →
      Yields linked D (A ∪ B) s (copyMerge fuel s p q) (copyMergeTree t u) := by
  intro t u
  unfold copyMergeTree
  induction t, u using overlayWith.induct Datum.weak Datum.key Datum.pry with
  | case1 u =>
      intro fuel s p q A B hp hq _ _ _ hfuel
      obtain ⟨fuel, rfl⟩ := succ_of_lt hfuel
      rw [hp.of_nil, overlayWith_nil_left]
      exact (Yields.pure hq).mono Set.subset_union_right
  | case2 x l r =>
      intro fuel s p q A B hp hq _ _ _ hfuel
      obtain ⟨fuel, rfl⟩ := succ_of_lt hfuel
      obtain ⟨a, n, -, -, rfl, -⟩ := hp.of_node
      rw [hq.of_nil, overlayWith_nil_right]
      exact (Yields.pure hp).mono Set.subset_union_left
  | case3 x l r y l' r' hlt ihl ihr =>
      -- A copy of the old root goes on top, and the batch is split.
      intro fuel s p q A B hp hq hAB hu hbase hfuel
      obtain ⟨fuel, rfl⟩ := succ_of_lt hfuel
      have hq' := hq
      obtain ⟨a, n, A₁, A₂, rfl, hn, rfl, hl, hr, hA₁₂, hA₁, hA₂, -⟩ := hp.of_node
      obtain ⟨b, m, -, -, rfl, hm, rfl, -⟩ := hq'.of_node
      have hsplith := height_splitWith id Datum.key (linked.shown a n).key
        (node (linked.shown b m) l' r')
      simp only [height] at hfuel hsplith
      obtain ⟨huL, huR⟩ := hu.split n.key
      rw [overlayWith_node, if_pos hlt]
      simp only [copyMerge, placeRoot, hn, hm, Option.bind_eq_bind, Option.bind_some,
        if_pos (show n.pry > m.pry from hlt), makeWeakCopy_eq, Option.bind_assoc]
      exact yields_copy_sides hD (copyMerge fuel) hl hr hA₁₂ hA₁ hA₂ hq hu hAB hbase
        (show (node (linked.shown b m) l' r').height < fuel by simp only [height]; omega)
        (fun s₁ tL B₁ hb hl hL hdisj => ihl hl hL hdisj huL hb (by omega))
        (fun s₁ tR B₂ hb hr hR hdisj => ihr hr hR hdisj huR hb (by omega))
  | case4 x l r y l' r' hlt heq ihl ihr =>
      -- The node of the batch stays on top and counts on from the old one.
      intro fuel s p q A B hp hq hAB hu hbase hfuel
      obtain ⟨fuel, rfl⟩ := succ_of_lt hfuel
      obtain ⟨hy, hul, hur⟩ := raw_node.mp hu
      obtain ⟨a, n, A₁, A₂, rfl, hn, rfl, hl, hr, hA₁₂, hA₁, hA₂, -⟩ := hp.of_node
      obtain ⟨b, m, B₁, B₂, rfl, hm, rfl, hl', hr', hB₁₂, hB₁, hB₂, -, hbB₁, hbB₂, hbB⟩ :=
        hq.of_node
      have hbB := hbB ((hD _).mpr hy)
      have hb := (hq.lt b hbB).1
      have hbA := Set.disjoint_right.mp hAB hbB
      simp only [height] at hfuel
      have hkeep : ∀ {E : Set Addr}, b ∉ E →
          Keeps D E s (updateValues (expose s b) b n.vals.last.val) := fun hE =>
        ((Keeps.refl _ s).modify hb hE _).modify hb hE _
      have hcell : (updateValues (expose s b) b n.vals.last.val).get? b
          = some ⟨Datum.shift n.toDatum m.toDatum, none, none⟩ :=
        Heap.get?_modify_self (Heap.get?_modify_self hm)
      have hsize : (updateValues (expose s b) b n.vals.last.val).size = s.size :=
        Heap.size_modify.trans Heap.size_modify
      have hl₁ := hl.keep (hkeep fun h => hbA (hA₁ h))
      have hr₁ := hr.keep (hkeep fun h => hbA (hA₂ h))
      have hsides := Yields.sides (L := linked) (D := D) (copyMerge fuel) hb hcell ((hD _).mpr hy)
        (fun hmem => hmem.elim (fun h => hbA (hA₁ h)) hbB₁)
        (fun hmem => hmem.elim (fun h => hbA (hA₂ h)) hbB₂)
        (disjoint_parts hAB hA₁₂ hB₁₂ hA₁ hA₂ hB₁ hB₂)
        hl₁ (hl'.keep (hkeep hbB₁)) hr₁ (hr'.keep (hkeep hbB₂))
        (ihl hl₁ (hl'.keep (hkeep hbB₁)) (hAB.mono hA₁ hB₁) hul (hsize ▸ hbase) (by omega))
        (fun h₁ hle hr hr' => ihr hr hr' (hAB.mono hA₂ hB₂) hur ((hsize ▸ hbase).trans hle)
          (by omega))
      rw [overlayWith_node, if_neg hlt, if_pos heq]
      simp only [copyMerge, placeRoot, hn, hm, Option.bind_eq_bind, Option.bind_some,
        if_neg (show ¬ n.pry > m.pry from hlt), if_pos (show n.key = m.key from heq)]
      have hch : Changes (A ∪ B) s (updateValues (expose s b) b n.vals.last.val) :=
        ((Changes.refl _ s).modify (Or.inl (Or.inr hbB)) _).modify (Or.inl (Or.inr hbB)) _
      exact hsides.after hch (insert_parts_subset (Or.inl (Or.inr hbB))
        (fun _ h => Or.inl (Or.inl (hA₁ h))) (fun _ h => Or.inl (Or.inr (hB₁ h)))
        (fun _ h => Or.inl (Or.inl (hA₂ h))) (fun _ h => Or.inl (Or.inr (hB₂ h))))
  | case5 x l r y l' r' hlt hne ihl ihr =>
      -- The root of the batch stays on top, and the old tree is split with copying.
      intro fuel s p q A B hp hq hAB hu hbase hfuel
      obtain ⟨fuel, rfl⟩ := succ_of_lt hfuel
      obtain ⟨hy, hul, hur⟩ := raw_node.mp hu
      have hp' := hp
      obtain ⟨a, n, -, -, rfl, hn, rfl, -⟩ := hp'.of_node
      obtain ⟨b, m, B₁, B₂, rfl, hm, rfl, hl', hr', hB₁₂, hB₁, hB₂, -, hbB₁, hbB₂, hbB⟩ :=
        hq.of_node
      have hbB := hbB ((hD _).mpr hy)
      have hsplith := height_splitWith Datum.weak Datum.key (linked.shown b m).key
        (node (linked.shown a n) l r)
      simp only [height] at hfuel hsplith
      have hsize : (expose s b).size = s.size := Heap.size_modify
      have hkeep : ∀ {E : Set Addr}, b ∉ E → Keeps D E s (expose s b) := fun hE =>
        (Keeps.refl _ s).modify (hq.lt b hbB).1 hE _
      obtain ⟨s₁, tL, tR, A₁, A₂, hrun, hch, hL, hR, hA₁₂, hA₁, hA₂⟩ :=
        copySplit_spec hD m.key (hp.keep (hkeep (Set.disjoint_right.mp hAB hbB))) (hsize ▸ hbase)
          (show (node (linked.shown a n) l r).height < fuel by simp only [height]; omega)
      have hbase₁ : D.base ≤ s₁.size := (hsize ▸ hbase).trans hch.size_le
      rw [overlayWith_node, if_neg hlt, if_neg hne, Set.union_comm]
      simp only [copyMerge, placeRoot, hn, hm, Option.bind_eq_bind, Option.bind_some,
        if_neg (show ¬ n.pry > m.pry from hlt), if_neg (show ¬ n.key = m.key from hne), hrun]
      have hexpose : Changes (B ∪ A) s (expose s b) :=
        (Changes.refl _ s).modify (Or.inl (Or.inl hbB)) _
      refine Yields.after hexpose Set.subset_union_left ?_
      refine Yields.onTop (x := ⟨m.toDatum, none, none⟩) (fun s p q => copyMerge fuel s q p)
        (fun b hb => ⟨(hq.lt b hb).1, hsize ▸ (hq.lt b hb).2⟩) hbB (Heap.get?_modify_self hm)
        ((hD _).mpr hy) (hl'.keep (hkeep hbB₁)) (hr'.keep (hkeep hbB₂)) hbB₁ hbB₂ hB₁₂ hB₁ hB₂
        (fun a ha => (hp.lt a ha).1) hAB.symm hch hL hR hA₁₂ hA₁ hA₂ (fun hl' hdisj => ?_)
        (fun h₂ hle hr' hR hdisj => ?_)
      · rw [Set.union_comm]
        exact ihl hL hl' hdisj.symm hul hbase₁ (by omega)
      · rw [Set.union_comm]
        exact ihr hR hr' hdisj.symm hur (hbase₁.trans hle) (by omega)

/-! ### `copy_concat`

The trees may be one's own or shared, and which one it is changes from node to node.  A
node that has no `vstat` is taken as it is, and any other is copied.
-/

omit hD in
theorem Raw.concat (ht : Raw t) (hu : Raw u) : Raw (copyConcatTree t u) :=
  forall_mem_concatWith (Q := fun d : Datum => d.vstat = none)
    (fun d _ => d.copyIfNeed_vstat) ht hu

/-- The node that goes on top is one's own, and nothing has been written yet. -/
theorem makeCopyIfNeed_spec (hp : Owns linked D s W (some a) (node n.toDatum l r))
    (hn : s.get? a = some n) (hl : Owns linked D s A n.lch l) (hr : Owns linked D s B n.rch r)
    (hbase : D.base ≤ s.size) (haA : a ∉ A) (haB : a ∉ B) (haW : D.raw n.toDatum → a ∈ W)
    (hshared : ¬ D.raw n.toDatum → a < D.base) :
    ∃ s₀ c x, makeCopyIfNeed s a n = (s₀, c) ∧ s₀.get? c = some x ∧
      x.toDatum = n.toDatum.copyIfNeed ∧ c ∈ W ∪ s.fresh ∧ D.base ≤ c ∧ c ∉ A ∧ c ∉ B ∧
      (∀ E, Changes E s s₀) ∧ (∀ E, Keeps D E s s₀) ∧
      (a = c ∧ x.rch = n.rch ∨ a < D.base) := by
  cases hv : n.vstat with
  | none =>
      have hraw := (hD n.toDatum).mpr hv
      refine ⟨s, a, n, ?_, hn, (Datum.copyIfNeed_of_none hv).symm, Or.inl (haW hraw),
        (hp.lt a (haW hraw)).1, haA, haB, fun E => .refl E s, fun E => .refl E s,
        Or.inl ⟨rfl, rfl⟩⟩
      rw [makeCopyIfNeed, hv]
  | some v =>
      have hraw : ¬ D.raw n.toDatum := fun h => by
        rw [hD, hv] at h
        cases h
      have hnew : ∀ {E : Set Addr} {q : Ptr} {w : Tree}, Owns linked D s E q w → s.size ∉ E :=
        fun hw hmem => (hw.lt _ hmem).2.ne rfl
      refine ⟨_, s.size, copied n none none, ?_, Heap.get?_alloc_self, ?_, Or.inr (le_refl s.size),
        hbase, hnew hl, hnew hr, fun E => .alloc E s _, fun E => (Keeps.refl E s).alloc _,
        Or.inr (hshared hraw)⟩
      · rw [makeCopyIfNeed, hv]
        rfl
      · rw [Datum.copyIfNeed, hv]
        rfl

/-- The root that goes on top is one's own or is copied; either way it is written
afterwards, and the tree of the call is not. -/
theorem copyConcat_spec :
    ∀ {t u : Tree} {fuel : Nat} {s : Store} {p q : Ptr} {A B : Set Addr},
      Owns linked D s A p t → Owns linked D s B q u → Disjoint A B → D.base ≤ s.size →
      t.height + u.height < fuel →
      Yields linked D (A ∪ B) s (copyConcat fuel s p q) (copyConcatTree t u) := by
  intro t u
  unfold copyConcatTree
  induction t, u using concatWith.induct Datum.pry with
  | case1 u =>
      intro fuel s p q A B hp hq _ _ hfuel
      obtain ⟨fuel, rfl⟩ := succ_of_lt hfuel
      rw [hp.of_nil, concatWith_nil_left]
      exact (Yields.pure hq).mono Set.subset_union_right
  | case2 x l r =>
      intro fuel s p q A B hp hq _ _ hfuel
      obtain ⟨fuel, rfl⟩ := succ_of_lt hfuel
      obtain ⟨a, n, -, -, rfl, -⟩ := hp.of_node
      rw [hq.of_nil, concatWith_nil_right]
      exact (Yields.pure hp).mono Set.subset_union_left
  | case3 x l r y l' r' hlt ih =>
      intro fuel s p q A B hp hq hAB hbase hfuel
      obtain ⟨fuel, rfl⟩ := succ_of_lt hfuel
      have hp' := hp
      have hq' := hq
      obtain ⟨a, n, A₁, A₂, rfl, hn, rfl, hl, hr, hA₁₂, hA₁, hA₂, hshared, haA₁, haA₂, haA⟩ :=
        hp'.of_node
      obtain ⟨b, m, -, -, rfl, hm, rfl, -⟩ := hq'.of_node
      simp only [height] at hfuel
      obtain ⟨s₀, c, z, hcopy, hz, hzd, hcW, hc, hcA₁, hcA₂, hch, hkeep, -⟩ :=
        makeCopyIfNeed_spec hD hp hn hl hr hbase haA₁ haA₂ haA hshared
      have hcB : c ∉ B := fun hmem => hcW.elim (fun h => Set.disjoint_left.mp hAB h hmem)
        (hq.lt c hmem).2.not_ge
      have hl₀ := hl.keep (hkeep A₁)
      have hr₀ := hr.keep (hkeep A₂)
      have hq₀ := hq.keep (hkeep B)
      have hbase₀ : D.base ≤ s₀.size := hbase.trans (hkeep ∅).size_le
      have hraw : D.raw (linked.shown c z) :=
        (hD _).mpr ((congrArg Datum.vstat hzd).trans (Datum.copyIfNeed_vstat _))
      have hlink := Yields.link (F := fun h => some (h, n.lch))
        (G := fun h => copyConcat fuel h n.rch (some b)) hc hz hraw hcA₁
        (fun hmem => hmem.elim hcA₂ hcB)
        (Set.disjoint_union_right.mpr ⟨hA₁₂, hAB.mono_left hA₁⟩) (fun b hb => (hl₀.lt b hb).1)
        (fun b hb => hb.elim (hr₀.lt b) (hq₀.lt b)) (Yields.pure hl₀)
        fun h₁ _ hk _ => ih (hr₀.keep (hk.mono Set.subset_union_left))
          (hq₀.keep (hk.mono Set.subset_union_right)) (hAB.mono_left hA₂)
          (hbase₀.trans hk.size_le) (by simp only [height]; omega)
      rw [show linked.shown c z = n.toDatum.copyIfNeed from hzd] at hlink
      rw [concatWith_node, if_pos hlt]
      simp only [copyConcat, hn, hm, Option.bind_eq_bind, Option.bind_some,
        if_pos (show n.pry > m.pry from hlt), hcopy]
      refine Yields.after (hch (A ∪ B)) ?_ hlink
      refine Set.insert_subset (hcW.imp Or.inl id) (Set.union_subset ?_ (Set.union_subset ?_ ?_))
      · exact fun _ h => Or.inl (Or.inl (hA₁ h))
      · exact fun _ h => Or.inl (Or.inl (hA₂ h))
      · exact fun _ h => Or.inl (Or.inr h)
  | case4 x l r y l' r' hlt ih =>
      intro fuel s p q A B hp hq hAB hbase hfuel
      obtain ⟨fuel, rfl⟩ := succ_of_lt hfuel
      have hp' := hp
      have hq' := hq
      obtain ⟨a, n, -, -, rfl, hn, rfl, -⟩ := hp'.of_node
      obtain ⟨b, m, B₁, B₂, rfl, hm, rfl, hl', hr', hB₁₂, hB₁, hB₂, hshared, hbB₁, hbB₂, hbB⟩ :=
        hq'.of_node
      simp only [height] at hfuel
      obtain ⟨s₀, c, z, hcopy, hz, hzd, hcW, hc, hcB₁, hcB₂, hch, hkeep, hplace⟩ :=
        makeCopyIfNeed_spec hD hq hm hl' hr' hbase hbB₁ hbB₂ hbB hshared
      have hcA : c ∉ A := fun hmem => hcW.elim (fun h => Set.disjoint_left.mp hAB hmem h)
        (hp.lt c hmem).2.not_ge
      have hp₀ := hp.keep (hkeep A)
      have hl₀ := hl'.keep (hkeep B₁)
      have hr₀ := hr'.keep (hkeep B₂)
      have hbase₀ : D.base ≤ s₀.size := hbase.trans (hkeep ∅).size_le
      have hraw : D.raw (linked.shown c z) :=
        (hD _).mpr ((congrArg Datum.vstat hzd).trans (Datum.copyIfNeed_vstat _))
      have hlink := Yields.link (F := fun h => copyConcat fuel h (some a) m.lch)
        (G := fun h => (h.get? b).map fun n => (h, n.rch)) hc hz hraw
        (fun hmem => hmem.elim hcA hcB₁) hcB₂
        (Set.disjoint_union_left.mpr ⟨hAB.mono_right hB₂, hB₁₂⟩)
        (fun b hb => hb.elim (fun h => (hp₀.lt b h).1) fun h => (hl₀.lt b h).1)
        hr₀.lt (ih hp₀ hl₀ (hAB.mono_right hB₁) hbase₀ (by simp only [height]; omega))
        fun h₁ w hk hcell => by
          -- The right link is read again after the recursion, from the same place.
          have hread : (h₁.get? b).map (fun n => (h₁, n.rch)) = some (h₁, m.rch) := by
            rcases hplace with ⟨rfl, hrch⟩ | hb
            · rw [hcell, Option.map_some]
              exact congrArg (fun v => some (h₁, v)) hrch
            · rw [hk.same b m (Or.inr hb) ((hkeep ∅).same b m (Or.inr hb) hm), Option.map_some]
          rw [hread]
          exact Yields.pure (hr₀.keep hk)
      rw [show linked.shown c z = m.toDatum.copyIfNeed from hzd] at hlink
      rw [concatWith_node, if_neg hlt]
      simp only [Option.bind_map, Function.comp_def] at hlink
      simp only [copyConcat, hn, hm, Option.bind_eq_bind, Option.bind_some,
        if_neg (show ¬ n.pry > m.pry from hlt), hcopy]
      refine Yields.after (hch (A ∪ B)) ?_ hlink
      refine Set.insert_subset (hcW.imp Or.inr id) (Set.union_subset (Set.union_subset ?_ ?_) ?_)
      · exact fun _ h => Or.inl (Or.inl h)
      · exact fun _ h => Or.inl (Or.inr (hB₁ h))
      · exact fun _ h => Or.inl (Or.inr (hB₂ h))

/-! ### `copy_subtract`

The case that is not a recursion on subtrees is the last one: the root of the batch
outranks the old one, so its key is not in the old tree, and what is below it is joined
and subtracted.  The batch has become smaller then, and the fuel counts both trees.
-/

/-- Deleting writes to the nodes of the tree and to no others. -/
theorem releaseTree_spec :
    ∀ {t : Tree} {fuel : Nat} {s : Store} {p : Ptr} {W : Set Addr},
      Owns linked D s W p t → Raw t → t.height < fuel →
      ∃ s', releaseTree fuel s p = some s' ∧ Changes W s s' := by
  intro t
  induction t with
  | nil =>
      intro fuel s p W hp _ hfuel
      obtain ⟨fuel, rfl⟩ := succ_of_lt hfuel
      rw [hp.of_nil]
      exact ⟨s, rfl, .refl W s⟩
  | node d l r ihl ihr =>
      intro fuel s p W hp ht hfuel
      obtain ⟨fuel, rfl⟩ := succ_of_lt hfuel
      obtain ⟨hd, htl, htr⟩ := raw_node.mp ht
      obtain ⟨a, n, A, B, rfl, hn, rfl, hl, hr, hAB, hA, hB, -, -, -, haW⟩ := hp.of_node
      have haW := haW ((hD _).mpr hd)
      simp only [height] at hfuel
      obtain ⟨s₁, hrun₁, hch₁⟩ := ihl (p := n.lch) hl htl (show l.height < fuel by omega)
      have hr₁ := hr.keep (hch₁.keeps (fun b hb => (hl.lt b hb).1) hAB)
      obtain ⟨s₂, hrun₂, hch₂⟩ := ihr (p := n.rch) hr₁ htr (show r.height < fuel by omega)
      refine ⟨releaseNode s₂ a, ?_, ?_⟩
      · simp only [releaseTree, hn, Option.bind_eq_bind, Option.bind_some, hrun₁, hrun₂]
      · exact (((hch₁.mono hA).trans hch₂ fun _ h => Or.inl (hB h)).modify (Or.inl haW) _)

/-- The induction follows the cases of `subtractWith`.  The nodes of the batch are written
and deleted, those of the tree copied. -/
theorem copySubtract_spec :
    ∀ {t u : Tree} {fuel : Nat} {s : Store} {p q : Ptr} {A B : Set Addr},
      Owns linked D s A p t → Owns linked D s B q u → Disjoint A B → Raw u → D.base ≤ s.size →
      t.height + u.numNodes + 1 < fuel →
      Yields linked D (A ∪ B) s (copySubtract fuel s p q) (copySubtractTree t u) := by
  intro t u
  unfold copySubtractTree
  induction t, u using subtractWith.induct Datum.copyIfNeed Datum.key Datum.pry with
  | case1 u =>
      intro fuel s p q A B hp hq _ hu _ hfuel
      obtain ⟨fuel, rfl⟩ := succ_of_lt hfuel
      have hheight := u.height_le_numNodes
      obtain ⟨s', hrun, hch⟩ := releaseTree_spec hD hq hu (show u.height < fuel by
        simp only [height] at hfuel; omega)
      rw [hp.of_nil, subtractWith_nil_left]
      refine ⟨s', none, ∅, ?_, hch.mono Set.subset_union_right, .nil, Set.empty_subset _⟩
      simp only [copySubtract, hrun, Option.bind_eq_bind, Option.bind_some]
  | case2 x l r =>
      intro fuel s p q A B hp hq _ _ _ hfuel
      obtain ⟨fuel, rfl⟩ := succ_of_lt hfuel
      obtain ⟨a, n, -, -, rfl, -⟩ := hp.of_node
      rw [hq.of_nil, subtractWith_nil_right]
      exact (Yields.pure hp).mono Set.subset_union_left
  | case3 x l r y l' r' heq ihl ihr =>
      -- The key goes, and what is left on its two sides is joined.
      intro fuel s p q A B hp hq hAB hu hbase hfuel
      obtain ⟨fuel, rfl⟩ := succ_of_lt hfuel
      obtain ⟨hy, hul, hur⟩ := raw_node.mp hu
      obtain ⟨a, n, A₁, A₂, rfl, hn, rfl, hl, hr, hA₁₂, hA₁, hA₂, -⟩ := hp.of_node
      obtain ⟨b, m, B₁, B₂, rfl, hm, rfl, hl', hr', hB₁₂, hB₁, hB₂, -, hbB₁, hbB₂, hbB⟩ :=
        hq.of_node
      have hbB := hbB ((hD _).mpr hy)
      have hbA := Set.disjoint_right.mp hAB hbB
      simp only [height, numNodes] at hfuel
      obtain ⟨s₁, p', q', C, C', hrun, hch, hp', hq', hdisj, hC, hC'⟩ := Yields.both
        (F := fun s => copySubtract fuel s n.lch m.lch)
        (G := fun s => copySubtract fuel s n.rch m.rch)
        (disjoint_parts hAB hA₁₂ hB₁₂ hA₁ hA₂ hB₁ hB₂)
        (fun b hb => hb.elim (fun h => (hl.lt b h).1) fun h => (hl'.lt b h).1)
        (fun b hb => hb.elim (hr.lt b) (hr'.lt b))
        (ihl hl hl' (hAB.mono hA₁ hB₁) hul hbase (by omega))
        fun h₁ hk => ihr (hr.keep (hk.mono Set.subset_union_left))
          (hr'.keep (hk.mono Set.subset_union_right)) (hAB.mono hA₂ hB₂) hur
          (hbase.trans hk.size_le) (by omega)
      have hout : ∀ {E : Set Addr}, E ⊆ (A₁ ∪ B₁ ∪ (A₂ ∪ B₂)) ∪ s.fresh → b ∉ E := by
        intro E hE hmem
        rcases hE hmem with ((h | h) | h | h) | h
        · exact hbA (hA₁ h)
        · exact hbB₁ h
        · exact hbA (hA₂ h)
        · exact hbB₂ h
        · exact (hq.lt b hbB).2.not_ge h
      have hsub : A₁ ∪ B₁ ∪ (A₂ ∪ B₂) ⊆ A ∪ B := Set.union_subset
        (Set.union_subset_union hA₁ hB₁) (Set.union_subset_union hA₂ hB₂)
      have hp₁ := Owns.modify hp' (hq.lt b hbB).1 (hout hC) fun _ => ⟨newDatum 0 0 ⟨0, 0⟩, none, none⟩
      have hq₁ := Owns.modify hq' (hq.lt b hbB).1 (hout hC') fun _ => ⟨newDatum 0 0 ⟨0, 0⟩, none, none⟩
      have hbound : ∀ {r : Ptr} {v : Tree}, Shows layout (releaseNode s₁ b) r v →
          v.height < recursionBound (releaseNode s₁ b) := fun hr => Nat.lt_succ_of_le hr.height_le
      have hsize : (releaseNode s₁ b).size = s₁.size := Heap.size_modify
      have hconcat := copyConcat_spec hD hp₁ hq₁ hdisj
        ((hbase.trans hch.size_le).trans_eq hsize.symm)
        (Nat.add_lt_add (hbound hp₁.shows) (hbound hq₁.shows))
      rw [subtractWith_node, if_pos heq]
      simp only [copySubtract, hn, hm, Option.bind_eq_bind, Option.bind_some,
        if_pos (show n.key = m.key from heq)]
      have hcode := congrArg (fun o => o.bind fun w : Store × Ptr × Ptr =>
        copyConcat (recursionBound (releaseNode w.1 b) + recursionBound (releaseNode w.1 b))
          (releaseNode w.1 b) w.2.1 w.2.2) hrun
      simp only [Option.bind_assoc, Option.bind_some] at hcode
      rw [hcode]
      exact hconcat.after ((hch.mono hsub).modify (Or.inl (Or.inr hbB)) _)
        (Set.union_subset (hC.trans (Set.union_subset_union_left _ hsub))
          (hC'.trans (Set.union_subset_union_left _ hsub)))
  | case4 x l r y l' r' hne hlt ihl ihr =>
      -- A copy of the old root goes on top, and the batch is split.
      intro fuel s p q A B hp hq hAB hu hbase hfuel
      obtain ⟨fuel, rfl⟩ := succ_of_lt hfuel
      have hq' := hq
      obtain ⟨a, n, A₁, A₂, rfl, hn, rfl, hl, hr, hA₁₂, hA₁, hA₂, -⟩ := hp.of_node
      obtain ⟨b, m, -, -, rfl, hm, rfl, -⟩ := hq'.of_node
      have hsplitn := numNodes_splitWith id Datum.key (linked.shown a n).key
        (node (linked.shown b m) l' r')
      have hheight := (node (linked.shown b m) l' r').height_le_numNodes
      simp only [height] at hfuel
      obtain ⟨huL, huR⟩ := hu.split n.key
      rw [subtractWith_node, if_neg hne, if_pos hlt]
      simp only [copySubtract, hn, hm, Option.bind_eq_bind, Option.bind_some,
        if_neg (show ¬ n.key = m.key from hne), if_pos (show n.pry > m.pry from hlt),
        makeWeakCopy_eq]
      exact yields_copy_sides hD (copySubtract fuel) hl hr hA₁₂ hA₁ hA₂ hq hu hAB hbase
        (by omega)
        (fun s₁ tL B₁ hb hl hL hdisj => ihl hl hL hdisj huL hb (by omega))
        (fun s₁ tR B₂ hb hr hR hdisj => ihr hr hR hdisj huR hb (by omega))
  | case5 x l r y l' r' hne hlt ih =>
      -- The root of the batch is not in the old tree.
      intro fuel s p q A B hp hq hAB hu hbase hfuel
      obtain ⟨fuel, rfl⟩ := succ_of_lt hfuel
      obtain ⟨hy, hul, hur⟩ := raw_node.mp hu
      have hp' := hp
      obtain ⟨a, n, -, -, rfl, hn, rfl, -⟩ := hp'.of_node
      obtain ⟨b, m, B₁, B₂, rfl, hm, rfl, hl', hr', hB₁₂, hB₁, hB₂, -, hbB₁, hbB₂, hbB⟩ :=
        hq.of_node
      have hbB := hbB ((hD _).mpr hy)
      have hb := (hq.lt b hbB).1
      have hsub : B₁ ∪ B₂ ⊆ B := Set.union_subset hB₁ hB₂
      have hnodes := numNodes_concatWith Datum.copyIfNeed Datum.pry l' r'
      simp only [numNodes] at hfuel
      have hbound : ∀ {r : Ptr} {v : Tree}, Shows layout s r v → v.height < recursionBound s :=
        fun hr => Nat.lt_succ_of_le hr.height_le
      obtain ⟨s₁, q', C, hrun, hch, hq', hC⟩ := copyConcat_spec hD hl' hr' hB₁₂ hbase
        (Nat.add_lt_add (hbound hl'.shows) (hbound hr'.shows))
      have hbC : b ∉ C := fun hmem =>
        (hC hmem).elim (fun h => h.elim hbB₁ hbB₂) (hq.lt b hbB).2.not_ge
      have hAC : Disjoint A C :=
        hp.disjoint_made hAB (hC.trans (Set.union_subset_union_left _ hsub))
      have hp₁ := hp.keep ((hch.keeps (fun c hc => (hq.lt c (hsub hc)).1)
        (hAB.symm.mono_left hsub)).modify hb (Set.disjoint_right.mp hAB hbB)
        fun _ => ⟨newDatum 0 0 ⟨0, 0⟩, none, none⟩)
      have hq₁ := Owns.modify hq' hb hbC fun _ => ⟨newDatum 0 0 ⟨0, 0⟩, none, none⟩
      have hsize : (releaseNode s₁ b).size = s₁.size := Heap.size_modify
      have hrest := ih hp₁ hq₁ hAC (hul.concat hur)
        ((hbase.trans hch.size_le).trans_eq hsize.symm)
        (show (node (linked.shown a n) l r).height
          + (copyConcatTree l' r').numNodes + 1 < fuel by
            unfold copyConcatTree
            omega)
      rw [subtractWith_node, if_neg hne, if_neg hlt]
      simp only [copySubtract, hn, hm, Option.bind_eq_bind, Option.bind_some,
        if_neg (show ¬ n.key = m.key from hne), if_neg (show ¬ n.pry > m.pry from hlt)]
      rw [show copyConcat (recursionBound s + recursionBound s) s m.lch m.rch = some (s₁, q')
        from hrun, Option.bind_some]
      refine hrest.after (((hch.mono hsub).mono Set.subset_union_right).modify
        (Or.inl (Or.inr hbB)) _) (Set.union_subset (fun _ h => Or.inl (Or.inl h)) ?_)
      exact hC.trans (Set.union_subset_union_left _ (hsub.trans Set.subset_union_right))

end Pam
