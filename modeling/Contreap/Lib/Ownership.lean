/-
Trees that are partly one's own and partly shared.

A program that works on persistent trees writes to some cells and must leave others
alone.  Here the cells below a `base` are shared: they are never written, and any
number of trees may contain them.  A cell above it belongs to the one tree that
contains it.  `Owns L D h A p t` says that the heap shows the tree `t` at `p`, that `A`
is the set of the cells it owns, and that the subtrees below the owned part are shared
and `kept`, which is what the program knows of a shared tree.  An owned cell shows
something `raw`, which a kept tree does not, so the program can tell the two apart.

`Yields` and `YieldsPair` are what is said of a computation that starts with the cells
in `A`: it returns a tree, or two that have no cell in common, made of these cells and
of new ones, and writes to no other (`Changes`).  The rules follow the ways results are
put together: under a new root (`Yields.link`, `Yields.onTop`), beside each other (`Yields.both`), one
computation after another (`Yields.after`).
-/
import Mathlib.Data.Set.Lattice
import Mathlib.Order.CompletePartialOrder
import Contreap.Lib.Heap

namespace PtrHeap

open BinaryTree

universe u v

/-! ### Cells whose links can be set -/

/-- A layout together with how the links of a cell are set. -/
structure Linked (α : Type u) (β : Type v) extends Layout α β where
  setLch : Ptr → α → α
  setRch : Ptr → α → α
  lch_setLch : ∀ p x, lch (setLch p x) = p
  rch_setLch : ∀ p x, rch (setLch p x) = rch x
  shown_setLch : ∀ a p x, shown a (setLch p x) = shown a x
  lch_setRch : ∀ p x, lch (setRch p x) = lch x
  rch_setRch : ∀ p x, rch (setRch p x) = p
  shown_setRch : ∀ a p x, shown a (setRch p x) = shown a x

/-- Which cells are shared, how an owned one looks, and what is known of a shared tree. -/
structure Division (β : Type v) where
  base : Addr
  raw : β → Prop
  kept : BinaryTree β → Prop
  left : ∀ x l r, kept (node x l r) → kept l
  right : ∀ x l r, kept (node x l r) → kept r
  not_raw : ∀ x l r, kept (node x l r) → ¬ raw x

/-- A tree whose nodes are raw down to subtrees that are kept. -/
inductive Division.Capped {β : Type v} (D : Division β) : BinaryTree β → Prop
  | nil : D.Capped nil
  | kept {t : BinaryTree β} (ht : D.kept t) : D.Capped t
  | raw {x : β} {l r : BinaryTree β} (hx : D.raw x) (hl : D.Capped l) (hr : D.Capped r) :
      D.Capped (node x l r)

/-- The addresses of cells yet to be allocated. -/
def Heap.fresh {α : Type u} (h : Heap α) : Set Addr := {a | h.size ≤ a}

section
variable {α : Type u} {β : Type v}

/-- Only cells in `A` and new ones are written. -/
structure Changes (A : Set Addr) (h h' : Heap α) : Prop where
  size_le : h.size ≤ h'.size
  same : ∀ a < h.size, a ∉ A → h'.get? a = h.get? a

namespace Changes

variable {A B : Set Addr} {h h' h'' : Heap α} {a : Addr} {x : α}

theorem refl (A : Set Addr) (h : Heap α) : Changes A h h := ⟨le_rfl, fun _ _ _ => rfl⟩

theorem trans (h₁ : Changes A h h') (h₂ : Changes B h' h'') (hB : B ⊆ A ∪ h.fresh) :
    Changes A h h'' := by
  refine ⟨h₁.size_le.trans h₂.size_le, fun a ha hA => ?_⟩
  rw [h₂.same a (ha.trans_le h₁.size_le) fun hmem => (hB hmem).elim hA ha.not_ge,
    h₁.same a ha hA]

theorem mono (hAB : A ⊆ B) (hc : Changes A h h') : Changes B h h' :=
  ⟨hc.size_le, fun a ha hB => hc.same a ha fun hA => hB (hAB hA)⟩

theorem alloc (A : Set Addr) (h : Heap α) (x : α) : Changes A h (h.alloc x).1 :=
  ⟨by rw [Heap.size_alloc]; exact Nat.le_succ _, fun _ ha _ => Heap.get?_alloc_of_lt ha⟩

theorem modify (hc : Changes A h h') (ha : a ∈ A ∪ h.fresh) (f : α → α) :
    Changes A h (h'.modify a f) := by
  refine ⟨by rw [Heap.size_modify]; exact hc.size_le, fun b hb hA => ?_⟩
  have hne : b ≠ a := by
    rintro rfl
    exact ha.elim hA hb.not_ge
  rw [Heap.get?_modify_of_ne hne, hc.same b hb hA]

theorem get? (hc : Changes A h h') (ha : a ∉ A) (hx : h.get? a = some x) : h'.get? a = some x := by
  rw [hc.same a (Heap.lt_size_of_get? hx) ha, hx]

end Changes

/-- With nothing of one's own in it, everything there was is preserved. -/
theorem Changes.preserves {A : Set Addr} {h h' : Heap α} (hc : Changes A h h')
    (hA : A ⊆ h.fresh) : Heap.Preserves h h' :=
  ⟨hc.size_le, fun a ha => hc.same a ha fun hmem => ha.not_ge (hA hmem)⟩

variable (L : Linked α β) (D : Division β)

/-- **What a pointer owns** of the tree it shows: the cells down to the subtrees that are
shared.  No cell is owned twice. -/
inductive Owns (h : Heap α) : Set Addr → Ptr → BinaryTree β → Prop
  | nil : Owns h ∅ none nil
  | shared {p : Ptr} {t : BinaryTree β} (hp : Rep L.toLayout h {a | a < D.base} p t)
      (ht : D.kept t) : Owns h ∅ p t
  | owned {a : Addr} {x : α} {A B : Set Addr} {l r : BinaryTree β} (ha : D.base ≤ a)
      (hx : h.get? a = some x) (hraw : D.raw (L.shown a x)) (hl : Owns h A (L.lch x) l)
      (hr : Owns h B (L.rch x) r) (hA : a ∉ A) (hB : a ∉ B) (hAB : Disjoint A B) :
      Owns h (insert a (A ∪ B)) (some a) (node (L.shown a x) l r)

/-- What is not owned stays, and so do the cells in `B`. -/
structure Keeps (B : Set Addr) (h h' : Heap α) : Prop where
  size_le : h.size ≤ h'.size
  same : ∀ a x, a ∈ B ∨ a < D.base → h.get? a = some x → h'.get? a = some x

/-- The computation returns the tree `t`, and has written to no cells but those in `A` and
new ones, which are all that the tree owns. -/
def Yields (A : Set Addr) (h : Heap α) (o : Option (Heap α × Ptr)) (t : BinaryTree β) : Prop :=
  ∃ h' p B, o = some (h', p) ∧ Changes A h h' ∧ Owns L D h' B p t ∧ B ⊆ A ∪ h.fresh

/-- The same for two trees, which own no cell in common. -/
def YieldsPair (A : Set Addr) (h : Heap α) (o : Option (Heap α × Ptr × Ptr))
    (t u : BinaryTree β) : Prop :=
  ∃ h' p q B C, o = some (h', p, q) ∧ Changes A h h' ∧ Owns L D h' B p t ∧ Owns L D h' C q u ∧
    Disjoint B C ∧ B ⊆ A ∪ h.fresh ∧ C ⊆ A ∪ h.fresh

variable {L D} {A B W : Set Addr} {h h' h₁ : Heap α} {p q : Ptr} {a c : Addr} {x : α}
  {t u l r tl tr : BinaryTree β} {o : Option (Heap α × Ptr)}

/-! ### What a tree owns

A set of cells goes with every pointer that is owned.  The sets of two subtrees are
disjoint, so that a write to a cell of the one leaves the other alone.
-/

namespace Owns

theorem lt (hp : Owns L D h A p t) : ∀ a ∈ A, D.base ≤ a ∧ a < h.size := by
  induction hp with
  | nil => intro a ha; cases ha
  | shared hp ht => intro a ha; cases ha
  | owned ha hx hraw hl hr hA hB hAB ihl ihr =>
      intro b hb
      rcases hb with rfl | hb | hb
      · exact ⟨ha, Heap.lt_size_of_get? hx⟩
      · exact ihl b hb
      · exact ihr b hb

theorem shows (hp : Owns L D h A p t) : Shows L.toLayout h p t := by
  induction hp with
  | nil => exact .nil
  | shared hp ht => exact hp.shows
  | owned ha hx hraw hl hr hA hB hAB ihl ihr => exact .node trivial hx ihl ihr

theorem capped (hp : Owns L D h A p t) : D.Capped t := by
  induction hp with
  | nil => exact .nil
  | shared hp ht => exact .kept ht
  | owned ha hx hraw hl hr hA hB hAB ihl ihr => exact .raw hraw ihl ihr

theorem rep (hp : Owns L D h A p t) : Rep L.toLayout h (A ∪ {a | a < D.base}) p t := by
  induction hp with
  | nil => exact .nil
  | shared hp ht => exact hp.mono Set.subset_union_right
  | owned ha hx hraw hl hr hA hB hAB ihl ihr =>
      refine .node (Or.inl (Or.inl rfl)) hx (ihl.mono ?_) (ihr.mono ?_)
      · exact fun b hb => hb.imp (fun hb => Or.inr (Or.inl hb)) id
      · exact fun b hb => hb.imp (fun hb => Or.inr (Or.inr hb)) id

theorem keep (hp : Owns L D h A p t) (hk : Keeps D A h h') : Owns L D h' A p t := by
  induction hp with
  | nil => exact .nil
  | shared hp ht =>
      exact .shared (hp.congr fun a x ha hx _ => ⟨x, hk.same a x (Or.inr ha) hx, rfl, rfl, rfl⟩) ht
  | owned ha hx hraw hl hr hA hB hAB ihl ihr =>
      refine .owned ha (hk.same _ _ (Or.inl (Or.inl rfl)) hx) hraw (ihl ?_) (ihr ?_) hA hB hAB
      · exact ⟨hk.size_le, fun b y hb => hk.same b y (hb.imp_left fun hb => Or.inr (Or.inl hb))⟩
      · exact ⟨hk.size_le, fun b y hb => hk.same b y (hb.imp_left fun hb => Or.inr (Or.inr hb))⟩

/-- A tree and its root taken apart. -/
theorem of_node {d : β} (hp : Owns L D h W p (node d l r)) :
    ∃ a x A B, p = some a ∧ h.get? a = some x ∧ L.shown a x = d ∧ Owns L D h A (L.lch x) l ∧
      Owns L D h B (L.rch x) r ∧ Disjoint A B ∧ A ⊆ W ∧ B ⊆ W ∧ (¬ D.raw d → a < D.base) ∧
      a ∉ A ∧ a ∉ B ∧ (D.raw d → a ∈ W) := by
  cases hp with
  | shared hp ht =>
      obtain ⟨a, x, rfl, ha, hx, rfl, hl, hr⟩ := hp.of_node
      exact ⟨a, x, ∅, ∅, rfl, hx, rfl, .shared hl (D.left _ _ _ ht), .shared hr (D.right _ _ _ ht),
        Set.disjoint_empty _, Set.empty_subset _, Set.empty_subset _, fun _ => ha,
        Set.notMem_empty a, Set.notMem_empty a, fun hraw => absurd hraw (D.not_raw _ _ _ ht)⟩
  | @owned a x A B l r ha hx hraw hl hr hA hB hAB =>
      exact ⟨a, x, A, B, rfl, hx, rfl, hl, hr, hAB, fun b hb => Or.inr (Or.inl hb),
        fun b hb => Or.inr (Or.inr hb), fun hnot => absurd hraw hnot, hA, hB, fun _ => Or.inl rfl⟩

theorem of_nil (hp : Owns L D h A p BinaryTree.nil) : p = none := hp.shows.of_nil

end Owns

/-! ### What is kept -/

theorem Keeps.refl (B : Set Addr) (h : Heap α) : Keeps D B h h := ⟨le_rfl, fun _ _ _ hx => hx⟩

theorem Keeps.trans {h'' : Heap α} (h₁ : Keeps D B h h') (h₂ : Keeps D B h' h'') :
    Keeps D B h h'' :=
  ⟨h₁.size_le.trans h₂.size_le, fun a x ha hx => h₂.same a x ha (h₁.same a x ha hx)⟩

theorem Keeps.mono (hk : Keeps D B h h') (hAB : A ⊆ B) : Keeps D A h h' :=
  ⟨hk.size_le, fun a x ha => hk.same a x (ha.imp_left fun ha => hAB ha)⟩

/-- A tree in cells that are kept is still there. -/
theorem Keeps.rep (hk : Keeps D A h h') (hp : Rep L.toLayout h (A ∪ {a | a < D.base}) p t) :
    Rep L.toLayout h' (A ∪ {a | a < D.base}) p t :=
  hp.congr fun a x ha hx _ => ⟨x, hk.same a x ha hx, rfl, rfl, rfl⟩

/-- A change elsewhere keeps what it does not touch. -/
theorem Changes.keeps (hc : Changes A h h') (hA : ∀ a ∈ A, D.base ≤ a) (hAB : Disjoint A B) :
    Keeps D B h h' := by
  refine ⟨hc.size_le, fun a x ha hx => hc.get? (fun hmem => ?_) hx⟩
  rcases ha with ha | ha
  · exact Set.disjoint_left.mp hAB hmem ha
  · exact (hA a hmem).not_gt ha

theorem Keeps.alloc (hk : Keeps D B h h') (x : α) : Keeps D B h (h'.alloc x).1 := by
  refine ⟨by rw [Heap.size_alloc]; exact hk.size_le.trans (Nat.le_succ _), fun a y ha hy => ?_⟩
  have hy' := hk.same a y ha hy
  rw [Heap.get?_alloc_of_lt (Heap.lt_size_of_get? hy'), hy']

theorem Keeps.modify (hk : Keeps D B h h') (hc : D.base ≤ c) (hB : c ∉ B) (f : α → α) :
    Keeps D B h (h'.modify c f) := by
  refine ⟨by rw [Heap.size_modify]; exact hk.size_le, fun a x ha hx => ?_⟩
  have hne : a ≠ c := by
    rintro rfl
    exact ha.elim hB hc.not_gt
  rw [Heap.get?_modify_of_ne hne, hk.same a x ha hx]

/-! ### Putting results together

A recursive function calls itself on one subtree and then on the other.  The second call
must find its argument as it was, and the result of the first must survive the second
call; both are said once, by sets of cells.
-/

theorem Yields.pure (hp : Owns L D h A p t) : Yields L D A h (some (h, p)) t :=
  ⟨h, p, A, rfl, .refl A h, hp, Set.subset_union_left⟩

theorem Yields.mono (hAB : A ⊆ B) (hy : Yields L D A h o t) : Yields L D B h o t := by
  obtain ⟨h', p, C, ho, hc, hp, hC⟩ := hy
  exact ⟨h', p, C, ho, hc.mono hAB, hp, hC.trans (Set.union_subset_union_left _ hAB)⟩

theorem YieldsPair.mono {o : Option (Heap α × Ptr × Ptr)} (hAB : A ⊆ B)
    (hy : YieldsPair L D A h o t u) : YieldsPair L D B h o t u := by
  obtain ⟨h', p, q, C, C', ho, hc, hp, hq, hdisj, hC, hC'⟩ := hy
  have hsub := Set.union_subset_union_left h.fresh hAB
  exact ⟨h', p, q, C, C', ho, hc.mono hAB, hp, hq, hdisj, hC.trans hsub, hC'.trans hsub⟩

/-- Sets of cells that are one's own, or were new at some point. -/
theorem subset_fresh_trans (hB : B ⊆ A ∪ h.fresh) (hle : h.size ≤ h'.size) (hW : W ⊆ B ∪ h'.fresh) :
    W ⊆ A ∪ h.fresh := fun _ ha =>
  (hW ha).elim (fun hmem => hB hmem) fun hmem => Or.inr (hle.trans hmem)

/-- A computation after another one. -/
theorem Yields.after (hc : Changes A h h') (hB : B ⊆ A ∪ h.fresh) (hy : Yields L D B h' o t) :
    Yields L D A h o t := by
  obtain ⟨h'', p, C, ho, hc', hp, hC⟩ := hy
  exact ⟨h'', p, C, ho, hc.trans hc' hB, hp, subset_fresh_trans hB hc.size_le hC⟩

theorem YieldsPair.after {o : Option (Heap α × Ptr × Ptr)} (hc : Changes A h h')
    (hB : B ⊆ A ∪ h.fresh) (hy : YieldsPair L D B h' o t u) : YieldsPair L D A h o t u := by
  obtain ⟨h'', p, q, C, C', ho, hc', hp, hq, hdisj, hC, hC'⟩ := hy
  exact ⟨h'', p, q, C, C', ho, hc.trans hc' hB, hp, hq, hdisj,
    subset_fresh_trans hB hc.size_le hC, subset_fresh_trans hB hc.size_le hC'⟩

/-- A write to a cell that the result does not contain. -/
theorem Yields.modify (hy : Yields L D A h o t) (hc : D.base ≤ c) (hA : c ∉ A) (hlt : c < h.size)
    (hW : c ∈ W) (hAW : A ⊆ W) (f : α → α) :
    Yields L D W h (o.bind fun y => some (y.1.modify c f, y.2)) t := by
  obtain ⟨h', p, B, rfl, hch, hp, hB⟩ := hy
  have hcB : c ∉ B := fun hmem => (hB hmem).elim hA hlt.not_ge
  exact ⟨h'.modify c f, p, B, rfl, (hch.mono hAW).modify (Or.inl hW) f,
    hp.keep ((Keeps.refl B h').modify hc hcB f), hB.trans (Set.union_subset_union_left _ hAW)⟩

/-- Two results that own different cells stay apart. -/
theorem disjoint_of_subset {C C' : Set Addr} (hAB : Disjoint A B) (hB : ∀ b ∈ B, b < h.size)
    (hC : C ⊆ A ∪ h.fresh) (hlt : ∀ b ∈ C, b < h'.size) (hC' : C' ⊆ B ∪ h'.fresh) :
    Disjoint C C' := by
  refine Set.disjoint_left.mpr fun _ ha ha' => ?_
  rcases hC' ha' with hb | hb
  · exact (hC ha).elim (fun hmem => Set.disjoint_left.mp hAB hmem hb) (hB _ hb).not_ge
  · exact (hlt _ ha).not_ge hb

/-- Two computations on different cells, one after the other. -/
theorem Yields.both {F G : Heap α → Option (Heap α × Ptr)} (hAB : Disjoint A B)
    (hA : ∀ a ∈ A, D.base ≤ a) (hB : ∀ b ∈ B, D.base ≤ b ∧ b < h.size)
    (hl : Yields L D A h (F h) tl) (hr : ∀ h₁, Keeps D B h h₁ → Yields L D B h₁ (G h₁) tr) :
    YieldsPair L D (A ∪ B) h
      ((F h).bind fun y => (G y.1).bind fun z => some (z.1, y.2, z.2)) tl tr := by
  obtain ⟨h₁, p, C, hF, hc, hp, hC⟩ := hl
  obtain ⟨h₂, q, C', hG, hc', hq, hC'⟩ := hr h₁ (hc.keeps hA hAB)
  have hdisj := disjoint_of_subset hAB (fun b hb => (hB b hb).2) hC (fun b hb => (hp.lt b hb).2) hC'
  have hkeep : Keeps D C h₁ h₂ := by
    refine hc'.keeps (fun b hb => (hB b hb).1) (Set.disjoint_left.mpr fun b hb hmem => ?_)
    exact (hC hmem).elim (fun ha => Set.disjoint_left.mp hAB ha hb) (hB b hb).2.not_ge
  refine ⟨h₂, p, q, C, C', ?_, ?_, hp.keep hkeep, hq, hdisj, ?_, ?_⟩
  · rw [hF, Option.bind_some, hG]
    rfl
  · exact (hc.mono Set.subset_union_left).trans hc' fun b hb => Or.inl (Or.inr hb)
  · exact hC.trans (Set.union_subset_union_left _ Set.subset_union_left)
  · intro b hb
    exact (hC' hb).elim (fun hb => Or.inl (Or.inr hb)) fun hb => Or.inr (hc.size_le.trans hb)

/-! ### A root on top of two results

The two calls are made one after the other, and what the first has made must not be
touched by the second.
-/

/--
**Two computations whose results become the children of an owned cell.**  The left
child is linked before the second computation starts.
-/
theorem Yields.link {F G : Heap α → Option (Heap α × Ptr)} (hc : D.base ≤ c)
    (hx : h.get? c = some x) (hraw : D.raw (L.shown c x)) (hcA : c ∉ A) (hcB : c ∉ B)
    (hAB : Disjoint A B) (hA : ∀ a ∈ A, D.base ≤ a) (hB : ∀ b ∈ B, D.base ≤ b ∧ b < h.size)
    (hl : Yields L D A h (F h) tl)
    (hr : ∀ h₁ p, Keeps D B h h₁ → h₁.get? c = some (L.setLch p x) →
      Yields L D B h₁ (G h₁) tr) :
    Yields L D (insert c (A ∪ B)) h
      ((F h).bind fun y => (G (y.1.modify c (L.setLch y.2))).bind fun z =>
        some (z.1.modify c (L.setRch z.2), some c))
      (node (L.shown c x) tl tr) := by
  obtain ⟨h₁, p, C, hF, hch, hp, hC⟩ := hl
  have hlt := Heap.lt_size_of_get? hx
  have hcC : c ∉ C := fun hmem => (hC hmem).elim hcA hlt.not_ge
  have hkeep₁ := (hch.keeps hA hAB).modify hc hcB (L.setLch p)
  have hcell₁ : (h₁.modify c (L.setLch p)).get? c = some (L.setLch p x) :=
    Heap.get?_modify_self (hch.get? hcA hx)
  obtain ⟨h₂, q, C', hG, hch', hq, hC'⟩ := hr _ p hkeep₁ hcell₁
  have hC'₁ : C' ⊆ B ∪ h₁.fresh := by
    simpa only [Heap.fresh, Heap.size_modify] using hC'
  have hcC' : c ∉ C' := fun hmem =>
    (hC'₁ hmem).elim hcB (hlt.trans_le hch.size_le).not_ge
  have hdisj := disjoint_of_subset hAB (fun b hb => (hB b hb).2) hC (fun b hb => (hp.lt b hb).2) hC'₁
  have hbC : ∀ b ∈ B, b ∉ C := fun b hb hmem =>
    (hC hmem).elim (fun ha => Set.disjoint_left.mp hAB ha hb) (hB b hb).2.not_ge
  have hkeep₂ : Keeps D C h₁ h₂ := ((Keeps.refl C h₁).modify hc hcC _).trans
    (hch'.keeps (fun b hb => (hB b hb).1) (Set.disjoint_left.mpr hbC))
  have hcell₂ : (h₂.modify c (L.setRch q)).get? c = some (L.setRch q (L.setLch p x)) :=
    Heap.get?_modify_self (hch'.get? hcB hcell₁)
  have hpq := Owns.owned (L := L) (D := D) hc hcell₂
    (by rwa [L.shown_setRch, L.shown_setLch])
    (by rw [L.lch_setRch, L.lch_setLch]; exact hp.keep (hkeep₂.modify hc hcC _))
    (by rw [L.rch_setRch]; exact hq.keep ((Keeps.refl C' h₂).modify hc hcC' _)) hcC hcC' hdisj
  rw [L.shown_setRch, L.shown_setLch] at hpq
  refine ⟨h₂.modify c (L.setRch q), some c, _, ?_, ?_, hpq, ?_⟩
  · rw [hF, Option.bind_some, hG]
    rfl
  · have hown : c ∈ insert c (A ∪ B) ∪ h.fresh := Or.inl (Or.inl rfl)
    refine Changes.modify ?_ hown _
    refine Changes.trans ((hch.mono ?_).modify hown _) hch' ?_
    · exact fun a ha => Or.inr (Or.inl ha)
    · exact fun b hb => Or.inl (Or.inr (Or.inr hb))
  · intro b hb
    rcases hb with rfl | hb | hb
    · exact Or.inl (Or.inl rfl)
    · exact (hC hb).imp (fun ha => Or.inr (Or.inl ha)) id
    · exact (hC'₁ hb).imp (fun hb => Or.inr (Or.inr hb)) fun hb => hch.size_le.trans hb

/-- A recursion on two trees at a time, whose results become the children of a cell. -/
theorem Yields.sides (run : Heap α → Ptr → Ptr → Option (Heap α × Ptr)) {pl ql pr qr : Ptr}
    {A' B' : Set Addr} {l' r' : BinaryTree β} (hc : D.base ≤ c) (hx : h.get? c = some x)
    (hraw : D.raw (L.shown c x)) (hcl : c ∉ A ∪ A') (hcr : c ∉ B ∪ B')
    (hdisj : Disjoint (A ∪ A') (B ∪ B')) (hl : Owns L D h A pl l) (hl' : Owns L D h A' ql l')
    (hr : Owns L D h B pr r) (hr' : Owns L D h B' qr r')
    (ihl : Yields L D (A ∪ A') h (run h pl ql) tl)
    (ihr : ∀ h₁, h.size ≤ h₁.size → Owns L D h₁ B pr r → Owns L D h₁ B' qr r' →
      Yields L D (B ∪ B') h₁ (run h₁ pr qr) tr) :
    Yields L D (insert c ((A ∪ A') ∪ (B ∪ B'))) h
      ((run h pl ql).bind fun y => (run (y.1.modify c (L.setLch y.2)) pr qr).bind fun z =>
        some (z.1.modify c (L.setRch z.2), some c))
      (node (L.shown c x) tl tr) := by
  refine Yields.link (F := fun h => run h pl ql) (G := fun h => run h pr qr) hc hx hraw hcl hcr
    hdisj ?_ ?_ ihl ?_
  · exact fun a ha => ha.elim (fun ha => (hl.lt a ha).1) fun ha => (hl'.lt a ha).1
  · exact fun b hb => hb.elim (hr.lt b) (hr'.lt b)
  · exact fun h₁ _ hk _ => ihr h₁ hk.size_le (hr.keep (hk.mono Set.subset_union_left))
      (hr'.keep (hk.mono Set.subset_union_right))

/-- What a root and the four trees below two roots own, they owned. -/
theorem insert_parts_subset {A₁ A₂ B₁ B₂ : Set Addr} (hc : c ∈ W) (hA₁ : A₁ ⊆ W) (hB₁ : B₁ ⊆ W)
    (hA₂ : A₂ ⊆ W) (hB₂ : B₂ ⊆ W) : insert c ((A₁ ∪ B₁) ∪ (A₂ ∪ B₂)) ⊆ W :=
  Set.insert_subset hc (Set.union_subset (Set.union_subset hA₁ hB₁) (Set.union_subset hA₂ hB₂))

/-- The left parts of two things that are apart are apart from the right parts. -/
theorem disjoint_parts {A₁ A₂ B₁ B₂ : Set Addr} (hAB : Disjoint A B) (hA : Disjoint A₁ A₂)
    (hB : Disjoint B₁ B₂) (hA₁ : A₁ ⊆ A) (hA₂ : A₂ ⊆ A) (hB₁ : B₁ ⊆ B) (hB₂ : B₂ ⊆ B) :
    Disjoint (A₁ ∪ B₁) (A₂ ∪ B₂) :=
  Set.disjoint_union_left.mpr
    ⟨Set.disjoint_union_right.mpr ⟨hA, hAB.mono hA₁ hB₂⟩,
      Set.disjoint_union_right.mpr ⟨(hAB.mono hA₂ hB₁).symm, hB⟩⟩

/-- What was there before is apart from what is made of something else. -/
theorem disjoint_made (hA : ∀ a ∈ A, a < h.size) (hAB : Disjoint A B) (hW : W ⊆ B ∪ h.fresh) :
    Disjoint A W :=
  Set.disjoint_left.mpr fun a ha hmem =>
    (hW hmem).elim (Set.disjoint_left.mp hAB ha) (hA a ha).not_ge

theorem Owns.disjoint_made (hp : Owns L D h A p t) (hAB : Disjoint A B) (hW : W ⊆ B ∪ h.fresh) :
    Disjoint A W :=
  PtrHeap.disjoint_made (fun a ha => (hp.lt a ha).2) hAB hW

/-- A root of one's own stays on top, and its subtrees are put together with the parts
into which another tree was divided. -/
theorem Yields.onTop (run : Heap α → Ptr → Ptr → Option (Heap α × Ptr)) {pl pr ql qr : Ptr}
    {A₁ A₂ B₁ B₂ : Set Addr} {l' r' : BinaryTree β}
    (hA : ∀ a ∈ A, D.base ≤ a ∧ a < h.size) (hc : c ∈ A) (hx : h.get? c = some x)
    (hraw : D.raw (L.shown c x)) (hl : Owns L D h A₁ pl l) (hr : Owns L D h A₂ pr r)
    (hcl : c ∉ A₁) (hcr : c ∉ A₂) (hA₁₂ : Disjoint A₁ A₂) (hA₁ : A₁ ⊆ A) (hA₂ : A₂ ⊆ A)
    (hB : ∀ b ∈ B, D.base ≤ b) (hAB : Disjoint A B) (hch : Changes B h h₁)
    (hl' : Owns L D h₁ B₁ ql l') (hr' : Owns L D h₁ B₂ qr r') (hB₁₂ : Disjoint B₁ B₂)
    (hB₁ : B₁ ⊆ B ∪ h.fresh) (hB₂ : B₂ ⊆ B ∪ h.fresh)
    (ihl : Owns L D h₁ A₁ pl l → Disjoint A₁ B₁ → Yields L D (A₁ ∪ B₁) h₁ (run h₁ pl ql) tl)
    (ihr : ∀ h₂, h₁.size ≤ h₂.size → Owns L D h₂ A₂ pr r → Owns L D h₂ B₂ qr r' →
      Disjoint A₂ B₂ → Yields L D (A₂ ∪ B₂) h₂ (run h₂ pr qr) tr) :
    Yields L D (A ∪ B) h
      ((run h₁ pl ql).bind fun y => (run (y.1.modify c (L.setLch y.2)) pr qr).bind fun z =>
        some (z.1.modify c (L.setRch z.2), some c))
      (node (L.shown c x) tl tr) := by
  have hkeep : Keeps D A h h₁ := hch.keeps hB hAB.symm
  have hAB₁ : Disjoint A B₁ := disjoint_made (fun a ha => (hA a ha).2) hAB hB₁
  have hAB₂ : Disjoint A B₂ := disjoint_made (fun a ha => (hA a ha).2) hAB hB₂
  have hl₁ := hl.keep (hkeep.mono hA₁)
  have hr₁ := hr.keep (hkeep.mono hA₂)
  have hsides := Yields.sides run (hA c hc).1 (hkeep.same c x (Or.inl hc) hx) hraw
    (fun hmem => hmem.elim hcl (Set.disjoint_left.mp hAB₁ hc))
    (fun hmem => hmem.elim hcr (Set.disjoint_left.mp hAB₂ hc))
    (Set.disjoint_union_left.mpr
      ⟨Set.disjoint_union_right.mpr ⟨hA₁₂, hAB₂.mono_left hA₁⟩,
        Set.disjoint_union_right.mpr ⟨(hAB₁.mono_left hA₂).symm, hB₁₂⟩⟩)
    hl₁ hl' hr₁ hr' (ihl hl₁ (hAB₁.mono_left hA₁))
    (fun h₂ hle hr hr' => ihr h₂ hle hr hr' (hAB₂.mono_left hA₂))
  exact hsides.after (hch.mono Set.subset_union_right) (insert_parts_subset (Or.inl (Or.inl hc))
    (fun _ ha => Or.inl (Or.inl (hA₁ ha)))
    (hB₁.trans (Set.union_subset_union_left _ Set.subset_union_right))
    (fun _ ha => Or.inl (Or.inl (hA₂ ha)))
    (hB₂.trans (Set.union_subset_union_left _ Set.subset_union_right)))

/-! ### Splitting -/

section
variable {o : Option (Heap α × Ptr × Ptr)} (hc : D.base ≤ c) (hx : h.get? c = some x)
  (hraw : D.raw (L.shown c x)) (hcA : c ∉ A) (hcB : c ∉ B) (hAB : Disjoint A B)
  (hA : ∀ a ∈ A, D.base ≤ a) (hy : YieldsPair L D A h o t u)

include hc hx hraw hcA hcB hAB hA hy

/-- The second of two trees becomes the left child of a cell that has a right one. -/
theorem YieldsPair.linkLch (hr : Owns L D h B (L.rch x) r) :
    YieldsPair L D (insert c (A ∪ B)) h
      (o.bind fun y => some (y.1.modify c (L.setLch y.2.2), y.2.1, some c))
      t (node (L.shown c x) u r) := by
  obtain ⟨h', p, q, C, C', rfl, hch, hp, hq, hdisj, hC, hC'⟩ := hy
  have hlt := Heap.lt_size_of_get? hx
  have hout : ∀ {E : Set Addr}, E ⊆ A ∪ h.fresh → c ∉ E := fun hE hmem =>
    (hE hmem).elim hcA hlt.not_ge
  have hapart : ∀ {E : Set Addr}, E ⊆ A ∪ h.fresh → Disjoint E B := fun hE =>
    Set.disjoint_left.mpr fun b hb hmem =>
      (hE hb).elim (fun ha => Set.disjoint_left.mp hAB ha hmem) (hr.lt b hmem).2.not_ge
  have hcell : (h'.modify c (L.setLch q)).get? c = some (L.setLch q x) :=
    Heap.get?_modify_self (hch.get? hcA hx)
  have hu := Owns.owned (L := L) (D := D) hc hcell (by rwa [L.shown_setLch])
    (by rw [L.lch_setLch]; exact hq.keep ((Keeps.refl C' h').modify hc (hout hC') _))
    (by rw [L.rch_setLch]; exact hr.keep ((hch.keeps hA hAB).modify hc hcB _))
    (hout hC') hcB (hapart hC')
  rw [L.shown_setLch] at hu
  refine ⟨h'.modify c (L.setLch q), p, some c, C, _, rfl, ?_,
    hp.keep ((Keeps.refl C h').modify hc (hout hC) _), hu, ?_, ?_, ?_⟩
  · refine Changes.modify (hch.mono ?_) (Or.inl (Or.inl rfl)) _
    exact fun a ha => Or.inr (Or.inl ha)
  · refine Set.disjoint_left.mpr fun b hb hmem => ?_
    rcases hmem with rfl | hmem | hmem
    · exact hout hC hb
    · exact Set.disjoint_left.mp hdisj hb hmem
    · exact Set.disjoint_left.mp (hapart hC) hb hmem
  · exact hC.trans (Set.union_subset_union_left _ fun a ha => Or.inr (Or.inl ha))
  · intro b hb
    rcases hb with rfl | hb | hb
    · exact Or.inl (Or.inl rfl)
    · exact (hC' hb).imp (fun ha => Or.inr (Or.inl ha)) id
    · exact Or.inl (Or.inr (Or.inr hb))

/-- The first of two trees becomes the right child of a cell that has a left one. -/
theorem YieldsPair.linkRch (hl : Owns L D h B (L.lch x) l) :
    YieldsPair L D (insert c (A ∪ B)) h
      (o.bind fun y => some (y.1.modify c (L.setRch y.2.1), some c, y.2.2))
      (node (L.shown c x) l t) u := by
  obtain ⟨h', p, q, C, C', rfl, hch, hp, hq, hdisj, hC, hC'⟩ := hy
  have hlt := Heap.lt_size_of_get? hx
  have hout : ∀ {E : Set Addr}, E ⊆ A ∪ h.fresh → c ∉ E := fun hE hmem =>
    (hE hmem).elim hcA hlt.not_ge
  have hapart : ∀ {E : Set Addr}, E ⊆ A ∪ h.fresh → Disjoint B E := fun hE =>
    Set.disjoint_left.mpr fun b hmem hb =>
      (hE hb).elim (fun ha => Set.disjoint_left.mp hAB ha hmem) (hl.lt b hmem).2.not_ge
  have hcell : (h'.modify c (L.setRch p)).get? c = some (L.setRch p x) :=
    Heap.get?_modify_self (hch.get? hcA hx)
  have ht := Owns.owned (L := L) (D := D) hc hcell (by rwa [L.shown_setRch])
    (by rw [L.lch_setRch]; exact hl.keep ((hch.keeps hA hAB).modify hc hcB _))
    (by rw [L.rch_setRch]; exact hp.keep ((Keeps.refl C h').modify hc (hout hC) _))
    hcB (hout hC) (hapart hC)
  rw [L.shown_setRch] at ht
  refine ⟨h'.modify c (L.setRch p), some c, q, _, C', rfl, ?_, ht,
    hq.keep ((Keeps.refl C' h').modify hc (hout hC') _), ?_, ?_, ?_⟩
  · refine Changes.modify (hch.mono ?_) (Or.inl (Or.inl rfl)) _
    exact fun a ha => Or.inr (Or.inl ha)
  · refine Set.disjoint_left.mpr fun b hmem hb => ?_
    rcases hmem with rfl | hmem | hmem
    · exact hout hC' hb
    · exact Set.disjoint_left.mp (hapart hC') hmem hb
    · exact Set.disjoint_left.mp hdisj hmem hb
  · intro b hb
    rcases hb with rfl | hb | hb
    · exact Or.inl (Or.inl rfl)
    · exact Or.inl (Or.inr (Or.inr hb))
    · exact (hC hb).imp (fun ha => Or.inr (Or.inl ha)) id
  · exact hC'.trans (Set.union_subset_union_left _ fun a ha => Or.inr (Or.inl ha))

end

end

end PtrHeap
