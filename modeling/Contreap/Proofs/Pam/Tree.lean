/-
The trees the batched treap works on, and building one in place.

What a function does to the tree it is given is one of the restructuring operations of
the tree library, with the hook that says what becomes of a node on the way: nothing in
a tree that is written in place, a weak copy in one that is to stay as it is.

A tree just built is owned by whoever built it: `split` and `merge` write only to its
nodes, and what they return owns a part of them (`split_spec`, `mergeWith_spec`).
-/
import Contreap.Model.Pam
import Contreap.Lib.Lookup
import Contreap.Lib.Ownership

namespace Pam

open BinaryTree Cartesian PtrHeap

/-! ### What becomes of a node

The hooks of the restructuring operations.  All of them keep the key and the priority,
which is what the general facts about these operations ask.
-/

namespace Datum

/-- What a weak copy keeps of a node: its last entry. -/
def weak (d : Datum) : Datum := newDatum d.pry d.key d.vals.last

/-- A node without an aggregate is not shared, and is taken as it is. -/
def copyIfNeed (d : Datum) : Datum :=
  match d.vstat with
  | none => d
  | some _ => d.weak

/-- Of two nodes of one key the first keeps its place. -/
def combine (c : ValVers → ValVers → ValVers) (x y : Datum) : Datum :=
  { x with vals := c x.vals y.vals }

/-- The node that is merged into an old one of its key counts on from there. -/
def shift (x y : Datum) : Datum :=
  { y with
    vals := ⟨y.vals.1.map fun v => { v with val := v.val + x.vals.last.val },
      fun h => y.vals.2 (List.map_eq_nil_iff.mp h)⟩ }

@[simp] theorem weak_key (d : Datum) : d.weak.key = d.key := rfl
@[simp] theorem weak_pry (d : Datum) : d.weak.pry = d.pry := rfl
@[simp] theorem weak_vstat (d : Datum) : d.weak.vstat = none := rfl
@[simp] theorem weak_last (d : Datum) : d.weak.vals.last = d.vals.last := rfl

@[simp] theorem copyIfNeed_key (d : Datum) : d.copyIfNeed.key = d.key := by
  unfold copyIfNeed
  split <;> rfl

@[simp] theorem copyIfNeed_pry (d : Datum) : d.copyIfNeed.pry = d.pry := by
  unfold copyIfNeed
  split <;> rfl

@[simp] theorem copyIfNeed_last (d : Datum) : d.copyIfNeed.vals.last = d.vals.last := by
  unfold copyIfNeed
  split <;> rfl

@[simp] theorem copyIfNeed_vstat (d : Datum) : d.copyIfNeed.vstat = none := by
  unfold copyIfNeed
  split
  · assumption
  · rfl

theorem copyIfNeed_of_none {d : Datum} (hd : d.vstat = none) : d.copyIfNeed = d := by
  unfold copyIfNeed
  rw [hd]

@[simp] theorem shift_weak (x y : Datum) : shift x.weak y = shift x y := rfl

end Datum

/-- A tree of batched nodes, without their addresses. -/
abbrev Tree := BinaryTree Datum

/-- `split` on trees. -/
def splitTree (k : UInt64) (t : Tree) : Tree × Tree := splitWith id Datum.key k t

/-- `copy_split` on trees; both parts keep their nodes, but for the copies on the way. -/
def copySplitTree (k : UInt64) (t : Tree) : Tree × Tree := splitWith Datum.weak Datum.key k t

/-- `merge` and `merge_versioned` on trees. -/
def mergeTree (c : ValVers → ValVers → ValVers) (t u : Tree) : Tree :=
  unionWith (Datum.combine c) Datum.key Datum.pry t u

/-- `copy_merge` on trees. -/
def copyMergeTree (t u : Tree) : Tree :=
  overlayWith Datum.weak Datum.shift Datum.key Datum.pry t u

/-- `copy_concat` on trees. -/
def copyConcatTree (t u : Tree) : Tree := concatWith Datum.copyIfNeed Datum.pry t u

/-- `copy_subtract` on trees. -/
def copySubtractTree (t u : Tree) : Tree :=
  subtractWith Datum.weak Datum.copyIfNeed Datum.key Datum.pry t u

/-! ### Cells

Whether a cell is one's own can be told by `vstat`: nodes of an unfinished tree have
none, and nodes of a version have one.
-/

/-- A node shown with everything it holds. -/
def linked : Linked Node Datum where
  lch := Node.lch
  rch := Node.rch
  shown _ n := n.toDatum
  setLch p n := { n with lch := p }
  setRch p n := { n with rch := p }
  lch_setLch _ _ := rfl
  rch_setLch _ _ := rfl
  shown_setLch _ _ _ := rfl
  lch_setRch _ _ := rfl
  rch_setRch _ _ := rfl
  shown_setRch _ _ _ := rfl

/-- What is seen of a node: all of it but its links. -/
def layout : Layout Node Datum := linked.toLayout

/-- A tree none of whose nodes has been augmented. -/
def Raw (t : Tree) : Prop := ∀ d ∈ t.inorder, d.vstat = none

@[simp] theorem raw_nil : Raw nil := fun _ hd => by cases hd

theorem raw_node {d : Datum} {l r : Tree} :
    Raw (node d l r) ↔ d.vstat = none ∧ Raw l ∧ Raw r := forall_mem_inorder_node

theorem Raw.split {t : Tree} (ht : Raw t) (k : UInt64) :
    Raw (splitTree k t).1 ∧ Raw (splitTree k t).2 := by
  have hsum := inorder_splitWith_id Datum.key k t
  exact ⟨fun d hd => ht d (hsum ▸ List.mem_append_left _ hd),
    fun d hd => ht d (hsum ▸ List.mem_append_right _ hd)⟩

theorem Raw.merge {c : ValVers → ValVers → ValVers} {t u : Tree} (ht : Raw t) (hu : Raw u) :
    Raw (mergeTree c t u) :=
  forall_mem_unionWith (c := Datum.combine c) (Q := fun d => d.vstat = none)
    (fun _ _ hx _ => hx) ht hu

variable {D : Division Datum} (hD : ∀ d, D.raw d ↔ d.vstat = none)
  {s : Store} {p q : Ptr} {A B W : Set Addr} {t u l r : Tree}

theorem YieldsPair.nil : YieldsPair linked D A s (some (s, none, none)) nil nil :=
  ⟨s, none, none, ∅, ∅, rfl, .refl A s, .nil, .nil, Set.disjoint_empty _, Set.empty_subset _,
    Set.empty_subset _⟩

theorem succ_of_lt {m fuel : Nat} (h : m < fuel) : ∃ fuel', fuel = fuel' + 1 :=
  Nat.exists_eq_succ_of_ne_zero (Nat.ne_of_gt (Nat.zero_lt_of_lt h))

/-! ### `split` -/

include hD

/-- Only nodes of the tree are written, and each part owns its own. -/
theorem split_spec (key : UInt64) :
    ∀ {t : Tree} {fuel : Nat} {s : Store} {p : Ptr} {W : Set Addr},
      Owns linked D s W p t → Raw t → t.height < fuel →
      YieldsPair linked D W s (split fuel s p key) (splitTree key t).1 (splitTree key t).2 := by
  intro t
  induction t with
  | nil =>
      intro fuel s p W hp _ hfuel
      obtain ⟨fuel, rfl⟩ := succ_of_lt hfuel
      rw [hp.of_nil]
      exact YieldsPair.nil
  | node d l r ihl ihr =>
      intro fuel s p W hp ht hfuel
      obtain ⟨fuel, rfl⟩ := succ_of_lt hfuel
      obtain ⟨hd, htl, htr⟩ := raw_node.mp ht
      obtain ⟨a, n, A, B, rfl, hn, rfl, hl, hr, hAB, hA, hB, -, haA, haB, hown⟩ := hp.of_node
      have haW := hown ((hD _).mpr hd)
      have hbase := fun b hb => (hp.lt b hb).1
      have hsub : insert a (A ∪ B) ⊆ W := Set.insert_subset haW (Set.union_subset hA hB)
      simp only [height] at hfuel
      simp only [split, hn, Option.bind_eq_bind, Option.bind_some]
      by_cases hkey : key < n.key
      · rw [if_pos hkey, show splitTree key (node (linked.shown a n) l r)
            = ((splitTree key l).1, node (linked.shown a n) (splitTree key l).2 r)
          from splitWith_of_lt (show key < (linked.shown a n).key from hkey)]
        exact (YieldsPair.linkLch (hbase a haW) hn ((hD _).mpr hd) haA haB hAB
          (fun b hb => hbase b (hA hb)) (ihl hl htl (by omega)) hr).mono hsub
      · rw [if_neg hkey, show splitTree key (node (linked.shown a n) l r)
            = (node (linked.shown a n) l (splitTree key r).1, (splitTree key r).2)
          from splitWith_of_not_lt (show ¬ key < (linked.shown a n).key from hkey)]
        refine (YieldsPair.linkRch (hbase a haW) hn ((hD _).mpr hd) haB haA hAB.symm
          (fun b hb => hbase b (hB hb)) (ihr hr htr (by omega)) hl).mono ?_
        rwa [Set.union_comm]

/-! ### `merge` and `merge_versioned`

The counters of a node are written before its subtrees are merged, and the node of the
other tree is released afterwards.  Both are cells that the two trees own.
-/

omit hD in
/-- A write to a cell that a tree does not contain. -/
theorem Owns.modify {a : Addr} (hp : Owns linked D s A p t) (ha : D.base ≤ a) (haA : a ∉ A)
    (f : Node → Node) : Owns linked D (s.modify a f) A p t :=
  hp.keep ((Keeps.refl A s).modify ha haA f)

/-- The induction follows the cases of the union.  In each, two pairs of trees are merged
that own different cells, and a node that belongs to neither pair is put on top. -/
theorem mergeWith_spec (c : ValVers → ValVers → ValVers) :
    ∀ {t u : Tree} {fuel : Nat} {s : Store} {p q : Ptr} {A B : Set Addr},
      Owns linked D s A p t → Owns linked D s B q u → Disjoint A B → Raw t → Raw u →
      t.height + u.height < fuel →
      Yields linked D (A ∪ B) s (mergeWith c fuel s p q) (mergeTree c t u) := by
  intro t u
  unfold mergeTree
  induction t, u using unionWith.induct Datum.key Datum.pry with
  | case1 u =>
      intro fuel s p q A B hp hq _ _ _ hfuel
      obtain ⟨fuel, rfl⟩ := succ_of_lt hfuel
      rw [hp.of_nil, unionWith_nil_left]
      exact (Yields.pure hq).mono Set.subset_union_right
  | case2 x l r =>
      intro fuel s p q A B hp hq _ _ _ hfuel
      obtain ⟨fuel, rfl⟩ := succ_of_lt hfuel
      obtain ⟨a, n, -, -, rfl, -⟩ := hp.of_node
      rw [hq.of_nil, unionWith_nil_right]
      exact (Yields.pure hp).mono Set.subset_union_left
  | case3 x l r y l' r' heq ihl ihr =>
      intro fuel s p q A B hp hq hAB ht hu hfuel
      obtain ⟨fuel, rfl⟩ := succ_of_lt hfuel
      obtain ⟨hx, htl, htr⟩ := raw_node.mp ht
      obtain ⟨hy, hul, hur⟩ := raw_node.mp hu
      obtain ⟨a, n, A₁, A₂, rfl, hn, rfl, hl, hr, hA₁₂, hA₁, hA₂, -, haA₁, haA₂, haA⟩ := hp.of_node
      obtain ⟨b, m, B₁, B₂, rfl, hm, rfl, hl', hr', hB₁₂, hB₁, hB₂, -, hbB₁, hbB₂, hbB⟩ :=
        hq.of_node
      have haA := haA ((hD _).mpr hx)
      have hbB := hbB ((hD _).mpr hy)
      have ha := (hp.lt a haA).1
      have haB := Set.disjoint_left.mp hAB haA
      have hbA := Set.disjoint_right.mp hAB hbB
      have hab : b ≠ a := fun hba => hbA (hba ▸ haA)
      simp only [height] at hfuel
      -- One key in both trees: the entries are put together in the first node, and the second one
      -- is deleted once its subtrees have been merged.
      have hcell : (setVals s a (c n.vals m.vals)).get? a = some { n with vals := c n.vals m.vals } :=
        Heap.get?_modify_self hn
      have hsides := Yields.sides (L := linked) (D := D) (mergeWith c fuel) ha hcell
        ((hD _).mpr hx) (fun hmem => hmem.elim haA₁ fun hmem => haB (hB₁ hmem))
        (fun hmem => hmem.elim haA₂ fun hmem => haB (hB₂ hmem))
        (disjoint_parts hAB hA₁₂ hB₁₂ hA₁ hA₂ hB₁ hB₂)
        (Owns.modify hl ha haA₁ _) (Owns.modify hl' ha (fun hmem => haB (hB₁ hmem)) _)
        (Owns.modify hr ha haA₂ _) (Owns.modify hr' ha (fun hmem => haB (hB₂ hmem)) _)
        (ihl (Owns.modify hl ha haA₁ _) (Owns.modify hl' ha (fun hmem => haB (hB₁ hmem)) _)
          (hAB.mono hA₁ hB₁) htl hul (by omega))
        (fun h₁ _ hr hr' => ihr hr hr' (hAB.mono hA₂ hB₂) htr hur (by omega))
      have hrel := hsides.modify (c := b) (W := A ∪ B) (hq.lt b hbB).1
        (by
          rintro (hba | (hmem | hmem) | hmem | hmem)
          · exact hab hba
          · exact hbA (hA₁ hmem)
          · exact hbB₁ hmem
          · exact hbA (hA₂ hmem)
          · exact hbB₂ hmem)
        (by rw [setVals, Heap.size_modify]; exact (hq.lt b hbB).2) (Or.inr hbB)
        (insert_parts_subset (Or.inl haA) (hA₁.trans Set.subset_union_left)
          (hB₁.trans Set.subset_union_right) (hA₂.trans Set.subset_union_left)
          (hB₂.trans Set.subset_union_right)) fun _ => ⟨newDatum 0 0 ⟨0, 0⟩, none, none⟩
      rw [unionWith_node, if_pos heq]
      simp only [mergeWith, hn, hm, Option.bind_eq_bind, Option.bind_some,
        if_pos (show n.key = m.key from heq)]
      simp only [Option.bind_assoc, Option.bind_some] at hrel
      exact hrel.after ((Changes.refl _ s).modify (Or.inl (Or.inl haA)) _) Set.subset_union_left
  | case4 x l r y l' r' hne hlt ihl ihr =>
      intro fuel s p q A B hp hq hAB ht hu hfuel
      obtain ⟨fuel, rfl⟩ := succ_of_lt hfuel
      obtain ⟨hx, htl, htr⟩ := raw_node.mp ht
      have hq' := hq
      obtain ⟨a, n, A₁, A₂, rfl, hn, rfl, hl, hr, hA₁₂, hA₁, hA₂, -, haA₁, haA₂, haA⟩ := hp.of_node
      obtain ⟨b, m, -, -, rfl, hm, rfl, -⟩ := hq'.of_node
      -- The first root stays on top, and the second tree is split at its key.
      have hsplith := height_splitWith id Datum.key (linked.shown a n).key
        (node (linked.shown b m) l' r')
      simp only [height] at hfuel hsplith
      obtain ⟨s₁, tL, tR, B₁, B₂, hrun, hch, hL, hR, hB₁₂, hB₁, hB₂⟩ :=
        split_spec hD n.key hq hu (show (node (linked.shown b m) l' r').height < fuel by
          simp only [height]; omega)
      obtain ⟨huL, huR⟩ := hu.split n.key
      rw [unionWith_node, if_neg hne, if_pos hlt]
      simp only [mergeWith, hn, hm, Option.bind_eq_bind, Option.bind_some,
        if_neg (show ¬ n.key = m.key from hne), if_pos (show n.pry > m.pry from hlt), hrun]
      exact Yields.onTop (mergeWith c fuel) hp.lt (haA ((hD _).mpr hx)) hn ((hD _).mpr hx) hl hr
        haA₁ haA₂ hA₁₂ hA₁ hA₂ (fun b hb => (hq.lt b hb).1) hAB hch hL hR hB₁₂ hB₁ hB₂
        (fun hl hdisj => ihl hl hL hdisj htl huL (by omega))
        (fun _ _ hr hR hdisj => ihr hr hR hdisj htr huR (by omega))
  | case5 x l r y l' r' hne hlt ihl ihr =>
      intro fuel s p q A B hp hq hAB ht hu hfuel
      obtain ⟨fuel, rfl⟩ := succ_of_lt hfuel
      obtain ⟨hy, hul, hur⟩ := raw_node.mp hu
      have hp' := hp
      obtain ⟨a, n, -, -, rfl, hn, rfl, -⟩ := hp'.of_node
      obtain ⟨b, m, B₁, B₂, rfl, hm, rfl, hl', hr', hB₁₂, hB₁, hB₂, -, hbB₁, hbB₂, hbB⟩ :=
        hq.of_node
      -- The other way round: the second root stays on top.
      have hsplith := height_splitWith id Datum.key (linked.shown b m).key
        (node (linked.shown a n) l r)
      simp only [height] at hfuel hsplith
      obtain ⟨s₁, tL, tR, A₁, A₂, hrun, hch, hL, hR, hA₁₂, hA₁, hA₂⟩ :=
        split_spec hD m.key hp ht (show (node (linked.shown a n) l r).height < fuel by
          simp only [height]; omega)
      obtain ⟨htL, htR⟩ := ht.split m.key
      rw [unionWith_node, if_neg hne, if_neg hlt, Set.union_comm]
      simp only [mergeWith, hn, hm, Option.bind_eq_bind, Option.bind_some,
        if_neg (show ¬ n.key = m.key from hne), if_neg (show ¬ n.pry > m.pry from hlt), hrun]
      refine Yields.onTop (fun s p q => mergeWith c fuel s q p) hq.lt (hbB ((hD _).mpr hy)) hm
        ((hD _).mpr hy) hl' hr' hbB₁ hbB₂ hB₁₂ hB₁ hB₂ (fun a ha => (hp.lt a ha).1) hAB.symm hch
        hL hR hA₁₂ hA₁ hA₂ (fun hl' hdisj => ?_) (fun _ _ hr' hR hdisj => ?_)
      · rw [Set.union_comm]
        exact ihl hL hl' hdisj.symm htL hul (by omega)
      · rw [Set.union_comm]
        exact ihr hR hr' hdisj.symm htR hur (by omega)

/-! ### `build` and `build_versioned` -/

/-- `build` and `build_versioned` on trees. -/
def buildTree (hash : UInt64 → UInt64) (c : ValVers → ValVers → ValVers) (later : Nat → Nat) :
    Nat → Nat → List UInt64 → Tree
  | 0, _, _ => nil
  | _ + 1, _, [] => nil
  | _ + 1, ver, [elem] => node (newDatum (hash elem) elem ⟨1, ver⟩) nil nil
  | fuel + 1, ver, elems =>
      mergeTree c (buildTree hash c later fuel ver (elems.take (elems.length / 2)))
        (buildTree hash c later fuel (ver + later (elems.length / 2))
          (elems.drop (elems.length / 2)))

section
omit hD
variable {hash : UInt64 → UInt64} {c : ValVers → ValVers → ValVers} {later : Nat → Nat}
  {fuel ver : Nat} {elems : List UInt64}

theorem buildTree_halves (hlen : 2 ≤ elems.length) :
    buildTree hash c later (fuel + 1) ver elems
      = mergeTree c (buildTree hash c later fuel ver (elems.take (elems.length / 2)))
          (buildTree hash c later fuel (ver + later (elems.length / 2))
            (elems.drop (elems.length / 2))) := by
  match elems, hlen with
  | _ :: _ :: _, _ => rfl

theorem buildWith_halves (hlen : 2 ≤ elems.length) :
    buildWith hash c later (fuel + 1) s ver elems
      = (buildWith hash c later fuel s ver (elems.take (elems.length / 2))).bind fun x =>
          (buildWith hash c later fuel x.1 (ver + later (elems.length / 2))
            (elems.drop (elems.length / 2))).bind fun y =>
              mergeWith c (recursionBound y.1 + recursionBound y.1) y.1 x.2 y.2 := by
  match elems, hlen with
  | _ :: _ :: _, _ => rfl

/-- The cases of building: nothing, one element, or two halves. -/
theorem build_induction {Q : Nat → Nat → List UInt64 → Prop} (later : Nat → Nat)
    (hnil : ∀ fuel ver, Q (fuel + 1) ver [])
    (hone : ∀ fuel ver elem, Q (fuel + 1) ver [elem])
    (hhalves : ∀ fuel ver elems, 2 ≤ elems.length →
      Q fuel ver (elems.take (elems.length / 2)) →
      Q fuel (ver + later (elems.length / 2)) (elems.drop (elems.length / 2)) →
      Q (fuel + 1) ver elems) :
    ∀ fuel ver elems, elems.length < fuel → Q fuel ver elems := by
  intro fuel
  induction fuel with
  | zero => intro ver elems h; omega
  | succ fuel ih =>
      intro ver elems hfuel
      match elems with
      | [] => exact hnil fuel ver
      | [elem] => exact hone fuel ver elem
      | x :: y :: rest =>
          refine hhalves fuel ver _ (by simp) (ih _ _ ?_) (ih _ _ ?_)
          · rw [List.length_take]; simp only [List.length_cons] at hfuel ⊢; omega
          · rw [List.length_drop]; simp only [List.length_cons] at hfuel ⊢; omega

theorem raw_buildTree : ∀ fuel ver elems, elems.length < fuel →
    Raw (buildTree hash c later fuel ver elems) := by
  refine build_induction (Q := fun fuel ver elems =>
    Raw (buildTree hash c later fuel ver elems)) later ?_ ?_ ?_
  · intro fuel ver
    exact raw_nil
  · intro fuel ver elem
    exact raw_node.mpr ⟨rfl, raw_nil, raw_nil⟩
  · intro fuel ver elems hlen ht hu
    rw [buildTree_halves hlen]
    exact ht.merge hu

/-- Two nodes of one key become one. -/
theorem numNodes_mergeTree_le (t u : Tree) :
    (mergeTree c t u).numNodes ≤ t.numNodes + u.numNodes := by
  unfold mergeTree
  induction t, u using unionWith.induct Datum.key Datum.pry with
  | case1 u => simp
  | case2 x l r => simp
  | case3 x l r y l' r' heq ihl ihr =>
      rw [unionWith_node, if_pos heq]
      simp only [numNodes]
      omega
  | case4 x l r y l' r' hne hlt ihl ihr =>
      have hsplit := numNodes_splitWith id Datum.key x.key (node y l' r')
      rw [unionWith_node, if_neg hne, if_pos hlt]
      simp only [numNodes] at hsplit ⊢
      omega
  | case5 x l r y l' r' hne hlt ihl ihr =>
      have hsplit := numNodes_splitWith id Datum.key y.key (node x l r)
      rw [unionWith_node, if_neg hne, if_neg hlt]
      simp only [numNodes] at hsplit ⊢
      omega

/-- There is a node for each element at the most. -/
theorem numNodes_buildTree_le : ∀ fuel ver elems, elems.length < fuel →
    (buildTree hash c later fuel ver elems).numNodes ≤ elems.length := by
  refine build_induction (Q := fun fuel ver elems =>
    (buildTree hash c later fuel ver elems).numNodes ≤ elems.length) later ?_ ?_ ?_
  · intro fuel ver
    exact le_rfl
  · intro fuel ver elem
    exact le_rfl
  · intro fuel ver elems hlen ht hu
    rw [buildTree_halves hlen]
    refine (numNodes_mergeTree_le _ _).trans ?_
    rw [List.length_take] at ht
    rw [List.length_drop] at hu
    omega

end

/-- What `make_node` returns is a new tree of one node. -/
theorem yields_makeNode (hbase : D.base ≤ s.size) (ver : Nat) (pry key val : UInt64) :
    Yields linked D ∅ s
      (some ((makeNode s ver pry key val).1, some (makeNode s ver pry key val).2))
      (node (newDatum pry key ⟨val, ver⟩) nil nil) := by
  have hone := Owns.owned (L := linked) (D := D) (h := (makeNode s ver pry key val).1)
    hbase Heap.get?_alloc_self ((hD _).mpr rfl) Owns.nil Owns.nil (Set.notMem_empty _)
    (Set.notMem_empty _) (Set.disjoint_empty _)
  refine ⟨_, _, _, rfl, .alloc ∅ s _, hone, ?_⟩
  rw [Set.union_self, insert_empty_eq, Set.singleton_subset_iff]
  exact Or.inr (le_refl s.size)

/--
**Building returns a new tree and leaves every cell there was as it was.**
-/
theorem buildWith_spec (hash : UInt64 → UInt64) (c : ValVers → ValVers → ValVers)
    (later : Nat → Nat) : ∀ fuel ver elems, elems.length < fuel →
      ∀ s : Store, D.base ≤ s.size →
        Yields linked D ∅ s (buildWith hash c later fuel s ver elems)
          (buildTree hash c later fuel ver elems) := by
  intro fuel
  induction fuel with
  | zero => intro ver elems h; omega
  | succ fuel ih =>
      intro ver elems hfuel s hbase
      by_cases hlen : 2 ≤ elems.length
      · have hl₁ : (elems.take (elems.length / 2)).length < fuel := by
          rw [List.length_take]; omega
        have hl₂ : (elems.drop (elems.length / 2)).length < fuel := by
          rw [List.length_drop]; omega
        obtain ⟨s₁, p, A, hrun₁, hch₁, ht, hA⟩ := ih ver _ hl₁ s hbase
        obtain ⟨s₂, q, B, hrun₂, hch₂, hu, hB⟩ := ih (ver + later (elems.length / 2)) _ hl₂ s₁
          (hbase.trans hch₁.size_le)
        have hAB : Disjoint A B := ht.disjoint_made (Set.disjoint_empty _) hB
        have ht₂ := ht.keep (hch₂.keeps (fun _ ha => absurd ha (Set.notMem_empty _))
          (Set.empty_disjoint A))
        have hbound : ∀ {r : Ptr} {v : Tree}, Shows layout s₂ r v →
            v.height < recursionBound s₂ := fun hr => Nat.lt_succ_of_le hr.height_le
        have hmerge := mergeWith_spec hD c ht₂ hu hAB (raw_buildTree _ _ _ hl₁)
          (raw_buildTree _ _ _ hl₂) (Nat.add_lt_add (hbound ht₂.shows) (hbound hu.shows))
        rw [buildWith_halves hlen, hrun₁, Option.bind_some, hrun₂, Option.bind_some,
          buildTree_halves hlen]
        refine hmerge.after (hch₁.trans hch₂ (Set.empty_subset _)) (Set.union_subset hA ?_)
        exact subset_fresh_trans (Set.empty_subset _) hch₁.size_le hB
      · match elems with
        | [] => exact (Yields.pure .nil)
        | [elem] => exact yields_makeNode hD hbase ver (hash elem) elem 1
        | _ :: _ :: _ => exact absurd (by simp) hlen

end Pam
