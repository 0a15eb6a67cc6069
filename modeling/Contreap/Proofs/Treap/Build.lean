/-
Building a treap in place.

`split` and `merge` write into the nodes they are given, so a tree has to be followed
with its addresses in view: `placed` shows every node together with where it is.  Two
trees that own their nodes, that is, whose addresses are all different, are merged
into one that owns what is left of them (`merge_spec`), and nothing outside them is
touched (`Writes`).  What the tree looks like is then the business of `mergeTree`, on
which the addresses have no influence (`unite_map`).
-/
import Mathlib.Data.Multiset.UnionInter
import Mathlib.Data.Multiset.Range
import Contreap.Proofs.Treap.Canonical
import Contreap.Proofs.Treap.Update

namespace Treap

open BinaryTree Cartesian PtrHeap

/-! ### Nodes with their addresses

With its address in view a node of a tree is a cell, and a tree that lists no address
twice owns its cells.
-/

/-- What a node holds, and where it is. -/
abbrev Placed := Addr × Datum

/-- What is seen of a node, with its address. -/
def placed : Layout Node Placed := ⟨Node.lch, Node.rch, fun a n => (a, n.datum)⟩

/-- The addresses a tree occupies, with multiplicity. -/
def addrs (t : BinaryTree Placed) : Multiset Addr := (t.inorder.map Prod.fst : List Addr)

@[simp] theorem addrs_nil : addrs nil = 0 := rfl

@[simp] theorem addrs_node (x : Placed) (l r : BinaryTree Placed) :
    addrs (node x l r) = x.1 ::ₘ (addrs l + addrs r) := by
  simp only [addrs, inorder, List.map_append, List.map_cons, ← Multiset.coe_add,
    ← Multiset.cons_coe, Multiset.add_cons]

theorem mem_addrs_of_mem {x : Placed} {t : BinaryTree Placed} (hx : x ∈ t.inorder) :
    x.1 ∈ addrs t := Multiset.mem_coe.mpr (List.mem_map_of_mem hx)

theorem card_addrs (t : BinaryTree Placed) : (addrs t).card = t.numNodes := by
  induction t with
  | nil => rfl
  | node x l r ihl ihr => simp [numNodes, ihl, ihr]

/-! ### Writing to some cells only

The addresses that may be written are a multiset, since they are added up from those of
two trees.
-/

/-- Only cells at addresses in `A` are written, and no aggregate is computed. -/
structure Writes (A : Multiset Addr) (s s' : Store) : Prop where
  size : s'.size = s.size
  off : ∀ a, a ∉ A → s'.get? a = s.get? a
  raw : ∀ a n', s'.get? a = some n' → ∃ n, s.get? a = some n ∧
    (n.aug = augUninitialized → n'.aug = augUninitialized)

namespace Writes

variable {A B : Multiset Addr} {s s' s'' : Store}

theorem refl (A : Multiset Addr) (s : Store) : Writes A s s :=
  ⟨rfl, fun _ _ => rfl, fun _ n hn => ⟨n, hn, id⟩⟩

theorem trans (h : Writes A s s') (h' : Writes A s' s'') : Writes A s s'' := by
  refine ⟨h'.size.trans h.size, fun a ha => (h'.off a ha).trans (h.off a ha), ?_⟩
  intro a n'' hn''
  obtain ⟨n', hn', himp'⟩ := h'.raw a n'' hn''
  obtain ⟨n, hn, himp⟩ := h.raw a n' hn'
  exact ⟨n, hn, fun h0 => himp' (himp h0)⟩

theorem mono (h : Writes A s s') (hAB : ∀ a ∈ A, a ∈ B) : Writes B s s' :=
  ⟨h.size, fun a ha => h.off a fun hmem => ha (hAB a hmem), h.raw⟩

theorem modify (s : Store) (a : Addr) {f : Node → Node}
    (hf : ∀ n, n.aug = augUninitialized → (f n).aug = augUninitialized) :
    Writes {a} s (s.modify a f) := by
  refine ⟨Heap.size_modify, fun b hb => Heap.get?_modify_of_ne (by simpa using hb), ?_⟩
  intro b n' hn'
  by_cases hba : b = a
  · subst hba
    obtain ⟨n, hn⟩ := Heap.get?_of_lt (h := s) (a := b)
      (lt_of_lt_of_eq (Heap.lt_size_of_get? hn') Heap.size_modify)
    rw [Heap.get?_modify_self hn] at hn'
    exact ⟨n, hn, Option.some.inj hn' ▸ hf n⟩
  · rw [Heap.get?_modify_of_ne hba] at hn'
    exact ⟨n', hn', id⟩

end Writes

variable {s s' : Store} {p q : Ptr} {a b : Addr} {n : Node} {t u l r : BinaryTree Placed}
  {A : Multiset Addr}

theorem writes_setLch (s : Store) (a : Addr) (p : Ptr) : Writes {a} s (setLch s a p) :=
  .modify s a fun _ h => h

theorem writes_setRch (s : Store) (a : Addr) (p : Ptr) : Writes {a} s (setRch s a p) :=
  .modify s a fun _ h => h

theorem writes_setVal (s : Store) (a : Addr) (v : UInt64) : Writes {a} s (setVal s a v) :=
  .modify s a fun _ h => h

theorem writes_releaseNode (s : Store) (a : Addr) : Writes {a} s (releaseNode s a) :=
  .modify s a fun _ _ => rfl

/-- A tree none of whose cells is written is still there. -/
theorem Rep.off (hp : Shows placed s p t) (hw : Writes A s s') (hoff : ∀ a ∈ addrs t, a ∉ A) :
    Shows placed s' p t :=
  hp.frame Prod.fst (fun _ _ => rfl) fun _ hd =>
    hw.off _ (hoff _ (mem_addrs_of_mem hd))

theorem off_singleton (ha : a ∉ addrs t) : ∀ b ∈ addrs t, b ∉ ({a} : Multiset Addr) :=
  fun _ hb hmem => ha (Multiset.mem_singleton.mp hmem ▸ hb)

/-- Linking the left subtree of a node that is in neither. -/
theorem linkLch (hn : s.get? a = some n) (hl : Shows placed s q l) (hr : Shows placed s n.rch r)
    (hal : a ∉ addrs l) (har : a ∉ addrs r) :
    Shows placed (setLch s a q) (some a) (node (a, n.datum) l r) :=
  Rep.node (L := placed) (x := { n with lch := q }) trivial (get?_setLch hn q)
    (Rep.off hl (writes_setLch s a q) (off_singleton hal))
    (Rep.off hr (writes_setLch s a q) (off_singleton har))

/-- Linking the right subtree of a node that is in neither. -/
theorem linkRch (hn : s.get? a = some n) (hl : Shows placed s n.lch l) (hr : Shows placed s q r)
    (hal : a ∉ addrs l) (har : a ∉ addrs r) :
    Shows placed (setRch s a q) (some a) (node (a, n.datum) l r) :=
  Rep.node (L := placed) (x := { n with rch := q }) trivial (get?_setRch hn q)
    (Rep.off hl (writes_setRch s a q) (off_singleton hal))
    (Rep.off hr (writes_setRch s a q) (off_singleton har))

/-! ### `split` -/

/-- `split` on such trees: every node stays where it is. -/
def splitPlaced (key : UInt64) (t : BinaryTree Placed) : BinaryTree Placed × BinaryTree Placed :=
  splitWith id (fun x : Placed => x.2.key) key t

theorem addrs_splitPlaced (key : UInt64) (t : BinaryTree Placed) :
    addrs (splitPlaced key t).1 + addrs (splitPlaced key t).2 = addrs t := by
  simp only [addrs, Multiset.coe_add, ← List.map_append]
  exact congrArg (fun l : List Placed => (l.map Prod.fst : Multiset Addr)) (inorder_splitWith_id _ _ t)

theorem mem_addrs_splitPlaced {key : UInt64} :
    a ∈ addrs t ↔ a ∈ addrs (splitPlaced key t).1 ∨ a ∈ addrs (splitPlaced key t).2 := by
  rw [← addrs_splitPlaced key t, Multiset.mem_add]

/-- Both parts are made of the nodes of the tree, and only these are written. -/
theorem split_spec (key : UInt64) :
    ∀ {t : BinaryTree Placed} {fuel : Nat} {s : Store} {p : Ptr},
      Shows placed s p t → (addrs t).Nodup → t.height < fuel →
      ∃ s' tL tR, split fuel s p key = some (s', tL, tR) ∧ Writes (addrs t) s s' ∧
        Shows placed s' tL (splitPlaced key t).1 ∧ Shows placed s' tR (splitPlaced key t).2 := by
  intro t
  induction t with
  | nil =>
      intro fuel s p hp _ hfuel
      obtain ⟨fuel, rfl⟩ := Nat.exists_eq_succ_of_ne_zero (Nat.ne_of_gt hfuel)
      rw [hp.of_nil]
      exact ⟨s, none, none, rfl, .refl _ s, .nil, .nil⟩
  | node x l r ihl ihr =>
      intro fuel s p hp hnd hfuel
      obtain ⟨fuel, rfl⟩ := Nat.exists_eq_succ_of_ne_zero (Nat.ne_of_gt (Nat.zero_lt_of_lt hfuel))
      obtain ⟨a, n, rfl, -, hn, rfl, hl, hr⟩ := hp.of_node
      simp only [addrs_node, Multiset.nodup_cons, Multiset.nodup_add, Multiset.mem_add,
        not_or, Multiset.disjoint_left] at hnd
      obtain ⟨⟨hal, har⟩, hndl, hndr, hdisj⟩ := hnd
      simp only [height] at hfuel
      simp only [split, hn, Option.bind_eq_bind, Option.bind_some]
      by_cases hkey : key < n.key
      · obtain ⟨s', tL, lch, hrun, hw, hL, hR⟩ := ihl hl hndl (show l.height < fuel by omega)
        rw [show splitPlaced key (node (placed.shown a n) l r)
            = ((splitPlaced key l).1, node (placed.shown a n) (splitPlaced key l).2 r)
          from splitWith_of_lt (show key < (placed.shown a n).2.key from hkey)]
        have hn' : s'.get? a = some n := (hw.off a hal).trans hn
        have hsub : ∀ b, b ∈ addrs (splitPlaced key l).1 ∨ b ∈ addrs (splitPlaced key l).2 →
            b ∈ addrs l := fun b hb => mem_addrs_splitPlaced.mpr hb
        have hr' := Rep.off hr hw fun b hb hmem => hdisj hmem hb
        refine ⟨setLch s' a lch, tL, some a, ?_, ?_, ?_, ?_⟩
        · simp only [if_pos hkey]
          exact Option.bind_eq_some_iff.mpr ⟨_, hrun, rfl⟩
        · refine (hw.mono ?_).trans ((writes_setLch s' a lch).mono ?_)
          · intro b hb; simp [hb]
          · intro b hb; simp [Multiset.mem_singleton.mp hb, placed]
        · exact Rep.off hL (writes_setLch s' a lch)
            (off_singleton fun hmem => hal (hsub a (Or.inl hmem)))
        · exact linkLch hn' hR hr' (fun hmem => hal (hsub a (Or.inr hmem))) har
      · obtain ⟨s', rch, tR, hrun, hw, hL, hR⟩ := ihr hr hndr (show r.height < fuel by omega)
        rw [show splitPlaced key (node (placed.shown a n) l r)
            = (node (placed.shown a n) l (splitPlaced key r).1, (splitPlaced key r).2)
          from splitWith_of_not_lt (show ¬ key < (placed.shown a n).2.key from hkey)]
        have hn' : s'.get? a = some n := (hw.off a har).trans hn
        have hsub : ∀ b, b ∈ addrs (splitPlaced key r).1 ∨ b ∈ addrs (splitPlaced key r).2 →
            b ∈ addrs r := fun b hb => mem_addrs_splitPlaced.mpr hb
        have hl' := Rep.off hl hw fun b hb hmem => hdisj hb hmem
        refine ⟨setRch s' a rch, some a, tR, ?_, ?_, ?_, ?_⟩
        · simp only [if_neg hkey]
          exact Option.bind_eq_some_iff.mpr ⟨_, hrun, rfl⟩
        · refine (hw.mono ?_).trans ((writes_setRch s' a rch).mono ?_)
          · intro b hb; simp [hb]
          · intro b hb; simp [Multiset.mem_singleton.mp hb, placed]
        · exact linkRch hn' hl' hL hal (fun hmem => har (hsub a (Or.inl hmem)))
        · exact Rep.off hR (writes_setRch s' a rch)
            (off_singleton fun hmem => har (hsub a (Or.inr hmem)))

/-! ### `merge`

The cases are those of `unionWith`.  In each, two pairs of subtrees are merged, one
after the other, below a node that has been chosen; and the second merge must find its
trees as they were.
-/

/-- Of two nodes of one key the second keeps its place. -/
def addPlaced (x y : Placed) : Placed := (y.1, addVal x.2 y.2)

/-- `merge` on such trees. -/
def unite (t u : BinaryTree Placed) : BinaryTree Placed :=
  unionWith addPlaced (fun x => x.2.key) (fun x => x.2.pry) t u

/-- What a united tree looks like does not depend on where its nodes are. -/
theorem unite_map (t u : BinaryTree Placed) :
    (unite t u).map Prod.snd = mergeTree (t.map Prod.snd) (u.map Prod.snd) :=
  (unionWith_map (fun _ => rfl) (fun _ => rfl) (fun _ _ => rfl) t u).symm

/-- The addresses of a tree and of the parts into which another one is divided. -/
theorem addrs_beside (key : UInt64) (x : Placed) (l r v : BinaryTree Placed) :
    addrs (node x l r) + addrs v = x.1 ::ₘ ((addrs l + addrs (splitPlaced key v).1)
      + (addrs r + addrs (splitPlaced key v).2)) := by
  rw [← addrs_splitPlaced key v, addrs_node]
  simp only [← Multiset.singleton_add]
  abel

/-- Merging loses addresses, of nodes whose key was there twice, and gains none. -/
theorem addrs_unite_le (t u : BinaryTree Placed) : addrs (unite t u) ≤ addrs t + addrs u := by
  unfold unite
  induction t, u using unionWith.induct
    (fun x : Placed => x.2.key) (fun x : Placed => x.2.pry) with
  | case1 u => simp
  | case2 x l r => simp
  | case3 x l r y l' r' heq ihl ihr =>
      rw [unionWith_node, if_pos heq, addrs_node, addrs_node, addrs_node]
      calc y.1 ::ₘ (addrs (unionWith _ _ _ l l') + addrs (unionWith _ _ _ r r'))
          ≤ y.1 ::ₘ ((addrs l + addrs l') + (addrs r + addrs r')) :=
            Multiset.cons_le_cons _ (add_le_add ihl ihr)
        _ ≤ x.1 ::ₘ (y.1 ::ₘ ((addrs l + addrs l') + (addrs r + addrs r'))) :=
            Multiset.le_cons_self _ _
        _ = x.1 ::ₘ (addrs l + addrs r) + y.1 ::ₘ (addrs l' + addrs r') := by
            simp only [← Multiset.singleton_add]; abel
  | case4 x l r y l' r' hne hlt ihl ihr =>
      rw [unionWith_node, if_neg hne, if_pos hlt, addrs_node]
      calc x.1 ::ₘ (addrs (unionWith _ _ _ l _) + addrs (unionWith _ _ _ r _))
          ≤ x.1 ::ₘ ((addrs l + addrs (splitPlaced x.2.key (node y l' r')).1)
              + (addrs r + addrs (splitPlaced x.2.key (node y l' r')).2)) :=
            Multiset.cons_le_cons _ (add_le_add ihl ihr)
        _ = addrs (node x l r) + addrs (node y l' r') := (addrs_beside ..).symm
  | case5 x l r y l' r' hne hlt ihl ihr =>
      rw [unionWith_node, if_neg hne, if_neg hlt, addrs_node]
      calc y.1 ::ₘ (addrs (unionWith _ _ _ _ l') + addrs (unionWith _ _ _ _ r'))
          ≤ y.1 ::ₘ ((addrs (splitPlaced y.2.key (node x l r)).1 + addrs l')
              + (addrs (splitPlaced y.2.key (node x l r)).2 + addrs r')) :=
            Multiset.cons_le_cons _ (add_le_add ihl ihr)
        _ = addrs (node x l r) + addrs (node y l' r') := by
            rw [add_comm (addrs (node x l r)), addrs_beside y.2.key, add_comm (addrs l'),
              add_comm (addrs r')]

theorem mem_addrs_of_unite (ha : a ∈ addrs (unite t u)) : a ∈ addrs t + addrs u :=
  Multiset.mem_of_le (addrs_unite_le t u) ha

/-- What `merge` on two trees is to do. -/
def Merges (fuel : Nat) (s : Store) (p q : Ptr) (t u : BinaryTree Placed) : Prop :=
  Shows placed s p t → Shows placed s q u →
    ∃ s' m, merge fuel s p q = some (s', m) ∧ Writes (addrs t + addrs u) s s' ∧
      Shows placed s' m (unite t u)

/-! ### One call of `merge`

The root that stays on top is linked to the results of two calls.  What differs between the
branches is which nodes are read, split or released before.
-/

/-- The common end of all cases: the two sides are merged one after the other, and
each is linked to the node on top as soon as it is there. -/
theorem link_merged (fuel : Nat) (pl ql pr qr : Ptr) {l' r' : BinaryTree Placed}
    (hn : s.get? a = some n) (hl : Shows placed s pl l) (hl' : Shows placed s ql l')
    (hr : Shows placed s pr r) (hr' : Shows placed s qr r')
    (hnd : (a ::ₘ ((addrs l + addrs l') + (addrs r + addrs r'))).Nodup)
    (ihl : ∀ s, Merges fuel s pl ql l l') (ihr : ∀ s, Merges fuel s pr qr r r') :
    ∃ s₁ lch s₂ rch, merge fuel s pl ql = some (s₁, lch) ∧
      merge fuel (setLch s₁ a lch) pr qr = some (s₂, rch) ∧
      Writes (a ::ₘ ((addrs l + addrs l') + (addrs r + addrs r'))) s (setRch s₂ a rch) ∧
      Shows placed (setRch s₂ a rch) (some a) (node (a, n.datum) (unite l l') (unite r r')) := by
  obtain ⟨ha, hnd⟩ := Multiset.nodup_cons.mp hnd
  obtain ⟨-, -, hdisj⟩ := Multiset.nodup_add.mp hnd
  rw [Multiset.disjoint_left] at hdisj
  have hal : a ∉ addrs l + addrs l' := fun h => ha (Multiset.mem_add.mpr (Or.inl h))
  have har : a ∉ addrs r + addrs r' := fun h => ha (Multiset.mem_add.mpr (Or.inr h))
  obtain ⟨s₁, lch, hrun₁, hw₁, hL⟩ := ihl s hl hl'
  have hn₁ : s₁.get? a = some n := (hw₁.off a hal).trans hn
  have hwl := writes_setLch s₁ a lch
  -- The right-hand trees have not been touched yet.
  have hstill : ∀ {p : Ptr} {t : BinaryTree Placed}, Shows placed s p t →
      (∀ b ∈ addrs t, b ∈ addrs r + addrs r') → Shows placed (setLch s₁ a lch) p t :=
    fun hp hsub => Rep.off (Rep.off hp hw₁ fun b hb hmem => hdisj hmem (hsub b hb)) hwl
      (off_singleton fun hmem => har (hsub a hmem))
  obtain ⟨s₂, rch, hrun₂, hw₂, hR⟩ := ihr (setLch s₁ a lch)
    (hstill hr fun b hb => Multiset.mem_add.mpr (Or.inl hb))
    (hstill hr' fun b hb => Multiset.mem_add.mpr (Or.inr hb))
  have hn₂ : s₂.get? a = some { n with lch := lch } :=
    (hw₂.off a har).trans (get?_setLch hn₁ lch)
  have hL₂ : Shows placed s₂ lch (unite l l') :=
    Rep.off (Rep.off hL hwl (off_singleton fun hmem => hal (mem_addrs_of_unite hmem))) hw₂
      fun b hb hmem => hdisj (mem_addrs_of_unite hb) hmem
  refine ⟨s₁, lch, s₂, rch, hrun₁, hrun₂, ?_, ?_⟩
  · refine (((hw₁.mono ?_).trans (hwl.mono ?_)).trans (hw₂.mono ?_)).trans
      ((writes_setRch s₂ a rch).mono ?_)
    · intro b hb; exact Multiset.mem_cons_of_mem (Multiset.mem_add.mpr (Or.inl hb))
    · intro b hb; exact Multiset.mem_singleton.mp hb ▸ Multiset.mem_cons_self a _
    · intro b hb; exact Multiset.mem_cons_of_mem (Multiset.mem_add.mpr (Or.inr hb))
    · intro b hb; exact Multiset.mem_singleton.mp hb ▸ Multiset.mem_cons_self a _
  · exact linkRch (n := { n with lch := lch }) hn₂ hL₂ hR (fun hmem => hal (mem_addrs_of_unite hmem))
      fun hmem => har (mem_addrs_of_unite hmem)

/-- The cell that stays on top and what is below it are not touched by dividing the other
tree. -/
theorem split_beside {v : BinaryTree Placed} {fuel : Nat} (hn : s.get? a = some n)
    (hl : Shows placed s n.lch l) (hr : Shows placed s n.rch r) (hq : Shows placed s q v)
    (hnd : (addrs (node (placed.shown a n) l r) + addrs v).Nodup) (hfuel : v.numNodes < fuel) :
    ∃ s₀ tL tR, split fuel s q n.key = some (s₀, tL, tR) ∧ Writes (addrs v) s s₀ ∧
      s₀.get? a = some n ∧ Shows placed s₀ n.lch l ∧ Shows placed s₀ n.rch r ∧
      Shows placed s₀ tL (splitPlaced n.key v).1 ∧ Shows placed s₀ tR (splitPlaced n.key v).2 := by
  obtain ⟨-, hndv, hdisj⟩ := Multiset.nodup_add.mp hnd
  rw [Multiset.disjoint_left] at hdisj
  obtain ⟨s₀, tL, tR, hrun, hw, hL, hR⟩ :=
    split_spec n.key hq hndv (v.height_le_numNodes.trans_lt hfuel)
  have hn₀ : s₀.get? a = some n := (hw.off a fun hmem => hdisj (by simp [placed]) hmem).trans hn
  have hl₀ : Shows placed s₀ n.lch l := Rep.off hl hw fun c hc hmem => hdisj (by simp [hc]) hmem
  have hr₀ : Shows placed s₀ n.rch r := Rep.off hr hw fun c hc hmem => hdisj (by simp [hc]) hmem
  exact ⟨s₀, tL, tR, hrun, hw, hn₀, hl₀, hr₀, hL, hR⟩

/-- The induction follows the cases of `unionWith`, and the common end of all of them is
`link_merged`. -/
theorem merge_spec {t u : BinaryTree Placed} :
    ∀ {fuel : Nat} {s : Store} {p q : Ptr}, (addrs t + addrs u).Nodup →
      t.numNodes + u.numNodes < fuel → Merges fuel s p q t u := by
  induction t, u using unionWith.induct
    (fun x : Placed => x.2.key) (fun x : Placed => x.2.pry) with
  | case1 u =>
      intro fuel s p q _ hfuel hp hq
      obtain ⟨fuel, rfl⟩ := Nat.exists_eq_succ_of_ne_zero (Nat.ne_of_gt (Nat.zero_lt_of_lt hfuel))
      rw [hp.of_nil, unite, unionWith_nil_left]
      exact ⟨s, q, rfl, .refl _ s, hq⟩
  | case2 x l r =>
      intro fuel s p q _ hfuel hp hq
      obtain ⟨fuel, rfl⟩ := Nat.exists_eq_succ_of_ne_zero (Nat.ne_of_gt (Nat.zero_lt_of_lt hfuel))
      obtain ⟨a, n, rfl, -⟩ := hp.of_node
      rw [hq.of_nil, unite, unionWith_nil_right]
      exact ⟨s, some a, rfl, .refl _ s, hp⟩
  | case3 x l r y l' r' heq ihl ihr =>
      intro fuel s p q hnd hfuel hp hq
      obtain ⟨fuel, rfl⟩ := Nat.exists_eq_succ_of_ne_zero (Nat.ne_of_gt (Nat.zero_lt_of_lt hfuel))
      obtain ⟨a, n, rfl, -, hn, rfl, hl, hr⟩ := hp.of_node
      obtain ⟨b, m, rfl, -, hm, rfl, hl', hr'⟩ := hq.of_node
      have hsum : addrs (node (placed.shown a n) l r) + addrs (node (placed.shown b m) l' r')
          = a ::ₘ (b ::ₘ ((addrs l + addrs l') + (addrs r + addrs r'))) := by
        simp only [addrs_node, placed, ← Multiset.singleton_add]
        abel
      rw [hsum] at hnd
      obtain ⟨ha, hnd⟩ := Multiset.nodup_cons.mp hnd
      obtain ⟨hb, hnd'⟩ := Multiset.nodup_cons.mp hnd
      simp only [Multiset.mem_add, not_or] at hb
      obtain ⟨hndl, hndr, -⟩ := Multiset.nodup_add.mp hnd'
      simp only [numNodes] at hfuel
      -- The counter is written before the subtrees are merged, and the other node is released
      -- after that; neither is in any of the four subtrees.
      have hwv := writes_setVal s b (m.val + n.val)
      obtain ⟨s₁, lch, s₂, rch, hrun₁, hrun₂, hw, hnode⟩ := link_merged fuel
        n.lch m.lch n.rch m.rch (get?_setVal hm (m.val + n.val))
        (Rep.off hl hwv (off_singleton hb.1.1))
        (Rep.off hl' hwv (off_singleton hb.1.2)) (Rep.off hr hwv (off_singleton hb.2.1))
        (Rep.off hr' hwv (off_singleton hb.2.2)) hnd
        (fun _ => ihl hndl (by omega)) (fun _ => ihr hndr (by omega))
      have hwr := writes_releaseNode (setRch s₂ b rch) a
      refine ⟨releaseNode (setRch s₂ b rch) a, some b, ?_, ?_, ?_⟩
      · simp only [merge, hn, hm, Option.bind_eq_bind, Option.bind_some,
          if_pos (show n.key = m.key from heq), hrun₁, hrun₂]
      · rw [hsum]
        refine ((hwv.mono ?_).trans (hw.mono ?_)).trans (hwr.mono ?_)
        · intro c hc; simp [Multiset.mem_singleton.mp hc]
        · intro c hc; exact Multiset.mem_cons_of_mem hc
        · intro c hc; simp [Multiset.mem_singleton.mp hc]
      · rw [unite, unionWith_node, if_pos heq]
        refine Rep.off hnode hwr (off_singleton fun hmem => ha ?_)
        rw [addrs_node] at hmem
        refine Multiset.mem_cons.mpr ((Multiset.mem_cons.mp hmem).imp id fun hmem => ?_)
        exact Multiset.mem_of_le (add_le_add (addrs_unite_le l l') (addrs_unite_le r r')) hmem
  | case4 x l r y l' r' hne hlt ihl ihr =>
      intro fuel s p q hnd hfuel hp hq
      obtain ⟨fuel, rfl⟩ := Nat.exists_eq_succ_of_ne_zero (Nat.ne_of_gt (Nat.zero_lt_of_lt hfuel))
      obtain ⟨a, n, rfl, -, hn, rfl, hl, hr⟩ := hp.of_node
      obtain ⟨b, m, rfl, -, hm, rfl, -, -⟩ := hq.of_node
      -- The first root stays on top.
      have hsum := addrs_beside n.key (placed.shown a n) l r (node (placed.shown b m) l' r')
      have hsize := numNodes_splitWith id (fun x : Placed => x.2.key)
        (placed.shown a n).2.key (node (placed.shown b m) l' r')
      simp only [numNodes] at hfuel hsize
      obtain ⟨s₀, tL, tR, hrun₀, hw₀, hn₀, hl₀, hr₀, hL, hR⟩ :=
        split_beside hn hl hr hq hnd
          (show (node (placed.shown b m) l' r').numNodes < fuel by simp only [numNodes]; omega)
      rw [hsum] at hnd
      obtain ⟨-, hnd'⟩ := Multiset.nodup_cons.mp hnd
      obtain ⟨hndl, hndr, -⟩ := Multiset.nodup_add.mp hnd'
      obtain ⟨s₁, lch, s₂, rch, hrun₁, hrun₂, hw, hnode⟩ := link_merged fuel n.lch tL n.rch tR
        hn₀ hl₀ hL hr₀ hR hnd (fun _ => ihl hndl (by omega)) (fun _ => ihr hndr (by omega))
      refine ⟨setRch s₂ a rch, some a, ?_, ?_, ?_⟩
      · simp only [merge, hn, hm, Option.bind_eq_bind, Option.bind_some,
          if_neg (show ¬ n.key = m.key from hne),
          if_pos (show n.pry > m.pry from hlt), hrun₀, hrun₁, hrun₂]
      · rw [hsum]
        refine (hw₀.mono fun c hc => ?_).trans hw
        rw [← hsum]
        exact Multiset.mem_add.mpr (Or.inr hc)
      · rw [unite, unionWith_node, if_neg hne, if_pos hlt]
        exact hnode
  | case5 x l r y l' r' hne hlt ihl ihr =>
      intro fuel s p q hnd hfuel hp hq
      obtain ⟨fuel, rfl⟩ := Nat.exists_eq_succ_of_ne_zero (Nat.ne_of_gt (Nat.zero_lt_of_lt hfuel))
      obtain ⟨a, n, rfl, -, hn, rfl, -, -⟩ := hp.of_node
      obtain ⟨b, m, rfl, -, hm, rfl, hl', hr'⟩ := hq.of_node
      -- The second root stays on top, with the two trees in each call still in their order.
      have hsum := addrs_beside m.key (placed.shown b m) l' r' (node (placed.shown a n) l r)
      rw [add_comm, add_comm (addrs l'), add_comm (addrs r')] at hsum
      have hsize := numNodes_splitWith id (fun x : Placed => x.2.key)
        (placed.shown b m).2.key (node (placed.shown a n) l r)
      simp only [numNodes] at hfuel hsize
      obtain ⟨s₀, tL, tR, hrun₀, hw₀, hm₀, hl₀, hr₀, hL, hR⟩ :=
        split_beside hm hl' hr' hp (by rwa [add_comm])
          (show (node (placed.shown a n) l r).numNodes < fuel by simp only [numNodes]; omega)
      rw [hsum] at hnd
      obtain ⟨-, hnd'⟩ := Multiset.nodup_cons.mp hnd
      obtain ⟨hndl, hndr, -⟩ := Multiset.nodup_add.mp hnd'
      obtain ⟨s₁, lch, s₂, rch, hrun₁, hrun₂, hw, hnode⟩ := link_merged fuel tL m.lch tR m.rch
        hm₀ hL hl₀ hR hr₀ hnd (fun _ => ihl hndl (by omega)) (fun _ => ihr hndr (by omega))
      refine ⟨setRch s₂ b rch, some b, ?_, ?_, ?_⟩
      · simp only [merge, hn, hm, Option.bind_eq_bind, Option.bind_some,
          if_neg (show ¬ n.key = m.key from hne),
          if_neg (show ¬ n.pry > m.pry from hlt), hrun₀, hrun₁, hrun₂]
      · rw [hsum]
        refine (hw₀.mono fun c hc => ?_).trans hw
        rw [← hsum]
        exact Multiset.mem_add.mpr (Or.inl hc)
      · rw [unite, unionWith_node, if_neg hne, if_neg hlt]
        exact hnode

/-! ### `build` -/

theorem Rep.mem_addrs {S : Set Addr} (hp : Rep placed s S p t) : ∀ a ∈ addrs t, a ∈ S := by
  induction hp with
  | nil => simp
  | node ha _ _ _ ihl ihr =>
      intro b hb
      rw [addrs_node, Multiset.mem_cons, Multiset.mem_add] at hb
      rcases hb with rfl | hb | hb
      · exact ha
      · exact ihl b hb
      · exact ihr b hb

theorem card_le_of_nodup {A : Multiset Addr} {N : Nat} (hnd : A.Nodup) (hlt : ∀ a ∈ A, a < N) :
    A.card ≤ N := by
  have hle : A ≤ Multiset.range N :=
    (Multiset.le_iff_subset hnd).mpr fun a ha => Multiset.mem_range.mpr (hlt a ha)
  simpa using Multiset.card_le_card hle

theorem Grows.writes (h : Grows s s') {s'' : Store} (hw : Writes A s' s'')
    (hA : ∀ a ∈ A, s.size ≤ a) : Grows s s'' := by
  refine ⟨⟨hw.size ▸ h.preserves.size_le, fun a ha => ?_⟩, fun a n'' ha hn'' => ?_⟩
  · rw [hw.off a fun hmem => Nat.not_lt.mpr (hA a hmem) ha, h.preserves.same a ha]
  · obtain ⟨n, hn, himp⟩ := hw.raw a n'' hn''
    exact himp (h.fresh a n ha hn)

/-- What building returns: a tree of fresh nodes that lists the array. -/
structure Built (hash : UInt64 → UInt64) (s s' : Store) (p : Ptr) (elems : List UInt64)
    (t : BinaryTree Placed) : Prop where
  grows : Grows s s'
  shows : Shows placed s' p t
  nodup : (addrs t).Nodup
  fresh : ∀ a ∈ addrs t, s.size ≤ a
  wellFormed : WellFormed hash (t.map Prod.snd)
  contents_eq : contents (t.map Prod.snd) = elems
  initial : ∀ d ∈ (t.map Prod.snd).inorder, d.ver = 0

variable {hash : UInt64 → UInt64}

theorem built_single (s : Store) (elem : UInt64) :
    Built hash s (makeNode s 0 (hash elem) elem).1 (some s.size) [elem]
      (node (s.size, ⟨0, hash elem, elem, 1⟩) nil nil) where
  grows := .alloc s rfl
  shows := .node (L := placed) (Set.mem_univ _) Heap.get?_alloc_self .nil .nil
  nodup := by simp
  fresh := by simp
  wellFormed := wellFormed_node.mpr
    ⟨rfl, one_ne_zero_word, by simp, by simp, wellFormed_nil, wellFormed_nil⟩
  contents_eq := rfl
  initial := by simp

/-- The two halves are in different cells, since the second was built when the first was
there. -/
theorem built_merge (hinj : Function.Injective hash) {s₀ s₁ s₂ : Store} {xs ys : List UInt64}
    (ht : Built hash s₀ s₁ p xs t) (hu : Built hash s₁ s₂ q ys u)
    (hroom : xs.length + ys.length < 2 ^ 64) :
    ∃ s' m, merge (recursionBound s₂) s₂ p q = some (s', m) ∧
      Built hash s₀ s' m (xs ++ ys) (unite t u) := by
  have hlt : ∀ a ∈ addrs t, a < s₁.size := fun a ha => (Rep.mem_addrs ht.shows.allocated a ha).2
  have hlt' : ∀ a ∈ addrs u, a < s₂.size := fun a ha => (Rep.mem_addrs hu.shows.allocated a ha).2
  have hnd : (addrs t + addrs u).Nodup :=
    Multiset.nodup_add.mpr ⟨ht.nodup, hu.nodup, Multiset.disjoint_left.mpr fun ha hb =>
      Nat.not_lt.mpr (hu.fresh _ hb) (hlt _ ha)⟩
  have hcard : t.numNodes + u.numNodes ≤ s₂.size := by
    rw [← card_addrs, ← card_addrs, ← Multiset.card_add]
    refine card_le_of_nodup hnd fun a ha => ?_
    rcases Multiset.mem_add.mp ha with ha | ha
    · exact (hlt a ha).trans_le hu.grows.preserves.size_le
    · exact hlt' a ha
  have hfresh : ∀ a ∈ addrs t + addrs u, s₀.size ≤ a := by
    intro a ha
    rcases Multiset.mem_add.mp ha with ha | ha
    · exact ht.fresh a ha
    · exact ht.grows.preserves.size_le.trans (hu.fresh a ha)
  have hbound : t.numNodes + u.numNodes < recursionBound s₂ := Nat.lt_succ_of_le hcard
  obtain ⟨s', m, hrun, hw, hm⟩ :=
    merge_spec hnd hbound (ht.shows.preserved hu.grows.preserves) hu.shows
  have hsum : (contents (t.map Prod.snd)).card + (contents (u.map Prod.snd)).card < 2 ^ 64 := by
    rw [ht.contents_eq, hu.contents_eq]
    simpa using hroom
  refine ⟨s', m, hrun, (ht.grows.trans hu.grows).writes hw hfresh, hm,
    Multiset.nodup_of_le (addrs_unite_le t u) hnd, fun a ha => hfresh a (mem_addrs_of_unite ha),
    ?_, ?_, ?_⟩
  · rw [unite_map]
    exact ht.wellFormed.mergeTree hinj hu.wellFormed hsum
  · rw [unite_map, contents_mergeTree _ _ hsum, ht.contents_eq, hu.contents_eq,
      Multiset.coe_add]
  · rw [unite_map]
    exact forall_mem_unionWith (c := addVal) (Q := fun d => d.ver = 0) (fun _ _ _ hy => hy)
      ht.initial hu.initial

theorem build_halves {fuel : Nat} {elems : List UInt64} (hlen : 2 ≤ elems.length) :
    build hash (fuel + 1) s elems
      = (build hash fuel s (elems.take (elems.length / 2))).bind fun x =>
          (build hash fuel x.1 (elems.drop (elems.length / 2))).bind fun y =>
            merge (recursionBound y.1) y.1 x.2 y.2 := by
  match elems, hlen with
  | _ :: _ :: _, _ => rfl

/--
**Building returns a well-formed tree of the elements of the array.**  Every node is
fresh and of version `0`, and the store has not changed otherwise.
-/
theorem build_spec (hinj : Function.Injective hash) :
    ∀ {fuel : Nat} {s : Store} {elems : List UInt64}, elems.length < fuel →
      elems.length < 2 ^ 64 →
      ∃ s' p t, build hash fuel s elems = some (s', p) ∧ Built hash s s' p elems t := by
  intro fuel
  induction fuel with
  | zero => intro s elems h; omega
  | succ fuel ih =>
      intro s elems hfuel hroom
      by_cases hlen : 2 ≤ elems.length
      · obtain ⟨s₁, p, t, hrun₁, ht⟩ := ih (s := s)
          (show (elems.take (elems.length / 2)).length < fuel by rw [List.length_take]; omega)
          (by rw [List.length_take]; omega)
        obtain ⟨s₂, q, u, hrun₂, hu⟩ := ih (s := s₁)
          (show (elems.drop (elems.length / 2)).length < fuel by rw [List.length_drop]; omega)
          (by rw [List.length_drop]; omega)
        obtain ⟨s', m, hrun, hbuilt⟩ := built_merge hinj ht hu (by
          rw [List.length_take, List.length_drop]; omega)
        rw [List.take_append_drop] at hbuilt
        refine ⟨s', m, _, ?_, hbuilt⟩
        rw [build_halves hlen, hrun₁, Option.bind_some, hrun₂, Option.bind_some, hrun]
      · match elems with
        | [] => exact ⟨s, none, nil, rfl, .refl s, .nil, by simp, by simp, wellFormed_nil, rfl,
            by simp⟩
        | [elem] => exact ⟨_, some s.size, _, rfl, built_single s elem⟩
        | _ :: _ :: _ => exact absurd (by simp) hlen

/-! ### What is built is of version `0` -/

/-- Every node is of version `0`, also what is left of the nodes that were released. -/
def Initially (s : Store) : Prop := s.Every fun n => n.ver = 0

theorem Initially.setLch (h : Initially s) (a : Addr) (p : Ptr) : Initially (setLch s a p) :=
  Heap.Every.modify h fun _ hn => hn

theorem Initially.setRch (h : Initially s) (a : Addr) (p : Ptr) : Initially (setRch s a p) :=
  Heap.Every.modify h fun _ hn => hn

theorem Initially.setVal (h : Initially s) (a : Addr) (v : UInt64) : Initially (setVal s a v) :=
  Heap.Every.modify h fun _ hn => hn

theorem Initially.releaseNode (h : Initially s) (a : Addr) : Initially (releaseNode s a) :=
  Heap.Every.modify h fun _ _ => rfl

/-- The functions that write in place keep versions. -/
theorem split_initially :
    ∀ {fuel : Nat} {s s' : Store} {p tL tR : Ptr} {key : UInt64}, Initially s →
      split fuel s p key = some (s', tL, tR) → Initially s' := by
  intro fuel
  induction fuel with
  | zero => intro s s' p tL tR key _ hrun; cases hrun
  | succ fuel ih =>
      intro s s' p tL tR key hs hrun
      cases p with
      | none =>
          cases hrun
          exact hs
      | some t =>
          obtain ⟨n, -, hrun⟩ := Option.bind_eq_some_iff.mp hrun
          split at hrun
          · obtain ⟨⟨s₁, x, y⟩, h₁, hrun⟩ := Option.bind_eq_some_iff.mp hrun
            cases hrun
            exact (ih hs h₁).setLch _ _
          · obtain ⟨⟨s₁, x, y⟩, h₁, hrun⟩ := Option.bind_eq_some_iff.mp hrun
            cases hrun
            exact (ih hs h₁).setRch _ _

/-- What is released gets version `0` as well. -/
theorem merge_initially :
    ∀ {fuel : Nat} {s s' : Store} {p q t : Ptr}, Initially s →
      merge fuel s p q = some (s', t) → Initially s' := by
  intro fuel
  induction fuel with
  | zero => intro s s' p q t _ hrun; cases hrun
  | succ fuel ih =>
      intro s s' p q t hs hrun
      cases p with
      | none =>
          cases hrun
          exact hs
      | some t₀ =>
        cases q with
        | none =>
            cases hrun
            exact hs
        | some t₁ =>
            obtain ⟨n₀, -, hrun⟩ := Option.bind_eq_some_iff.mp hrun
            obtain ⟨n₁, -, hrun⟩ := Option.bind_eq_some_iff.mp hrun
            split at hrun
            · obtain ⟨⟨s₁, lch⟩, h₁, hrun⟩ := Option.bind_eq_some_iff.mp hrun
              obtain ⟨⟨s₂, rch⟩, h₂, hrun⟩ := Option.bind_eq_some_iff.mp hrun
              cases hrun
              exact ((ih ((ih (hs.setVal _ _) h₁).setLch _ _) h₂).setRch _ _).releaseNode _
            · split at hrun
              · obtain ⟨⟨s₀, tL, tR⟩, h₀, hrun⟩ := Option.bind_eq_some_iff.mp hrun
                obtain ⟨⟨s₁, lch⟩, h₁, hrun⟩ := Option.bind_eq_some_iff.mp hrun
                obtain ⟨⟨s₂, rch⟩, h₂, hrun⟩ := Option.bind_eq_some_iff.mp hrun
                cases hrun
                exact (ih ((ih (split_initially hs h₀) h₁).setLch _ _) h₂).setRch _ _
              · obtain ⟨⟨s₀, tL, tR⟩, h₀, hrun⟩ := Option.bind_eq_some_iff.mp hrun
                obtain ⟨⟨s₁, lch⟩, h₁, hrun⟩ := Option.bind_eq_some_iff.mp hrun
                obtain ⟨⟨s₂, rch⟩, h₂, hrun⟩ := Option.bind_eq_some_iff.mp hrun
                cases hrun
                exact (ih ((ih (split_initially hs h₀) h₁).setLch _ _) h₂).setRch _ _

/-- New nodes are of version `0`. -/
theorem build_initially :
    ∀ {fuel : Nat} {s s' : Store} {elems : List UInt64} {t : Ptr}, Initially s →
      build hash fuel s elems = some (s', t) → Initially s' := by
  intro fuel
  induction fuel with
  | zero => intro s s' elems t _ hrun; cases hrun
  | succ fuel ih =>
      intro s s' elems t hs hrun
      match elems with
      | [] =>
          cases hrun
          exact hs
      | [elem] =>
          cases hrun
          exact Heap.Every.alloc hs rfl
      | x :: y :: rest =>
          rw [build_halves (by simp)] at hrun
          obtain ⟨⟨s₁, t₁⟩, h₁, hrun⟩ := Option.bind_eq_some_iff.mp hrun
          obtain ⟨⟨s₂, t₂⟩, h₂, hrun⟩ := Option.bind_eq_some_iff.mp hrun
          exact merge_initially (ih (ih hs h₁) h₂) hrun

end Treap
