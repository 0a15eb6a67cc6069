/-
Treaps over an ordered key and a priority that is a function of the key.

A payload carries a key and a priority.  `IsTreap key pry h t` says that the tree is
a search tree on keys, strictly heap ordered on priorities, and that the priority
stored at a node is `h` of its key.  With `h` injective the shape of such a tree is
determined by its in-order list: `IsTreap.ext`.

The three restructuring operations are given with a hook, because programs differ
only in what they do to the nodes on the path they walk: `splitWith f` and
`concatWith f` apply `f` to every node they pass, `unionWith c` combines two nodes of
one key by `c`.  A hook that keeps key and priority keeps everything proved here.

The facts come in two kinds.  What an operation does to the list of keys is a plain
equation; that it keeps `IsTreap` follows from the equation and the order.
-/
import Mathlib.Data.Tree.Basic
import Mathlib.Data.List.Pairwise
import Mathlib.Data.List.Sort
import Mathlib.Order.Basic
import Mathlib.Tactic.Common

namespace BinaryTree

universe u v

variable {α : Type u} {β : Type v}

/-- The values from left to right. -/
def inorder : BinaryTree α → List α
  | nil => []
  | node x l r => l.inorder ++ x :: r.inorder

@[simp] theorem inorder_nil : (nil : BinaryTree α).inorder = [] := rfl

@[simp] theorem inorder_node (x : α) (l r : BinaryTree α) :
    (node x l r).inorder = l.inorder ++ x :: r.inorder := rfl

theorem forall_mem_inorder_node {Q : α → Prop} {x : α} {l r : BinaryTree α} :
    (∀ y ∈ (node x l r).inorder, Q y) ↔
      Q x ∧ (∀ y ∈ l.inorder, Q y) ∧ ∀ y ∈ r.inorder, Q y := by
  simp only [inorder_node, List.mem_append, List.mem_cons]
  exact ⟨fun h => ⟨h x (Or.inr (Or.inl rfl)), fun y hy => h y (Or.inl hy),
      fun y hy => h y (Or.inr (Or.inr hy))⟩,
    fun ⟨hx, hl, hr⟩ y hy => hy.elim (hl y) fun hy => hy.elim (fun heq => heq ▸ hx) (hr y)⟩

@[simp] theorem map_nil (f : α → β) : (nil : BinaryTree α).map f = nil := rfl

@[simp] theorem map_node (f : α → β) (x : α) (l r : BinaryTree α) :
    (node x l r).map f = node (f x) (l.map f) (r.map f) := rfl

theorem inorder_map (f : α → β) (t : BinaryTree α) :
    (t.map f).inorder = t.inorder.map f := by
  induction t with
  | nil => rfl
  | node x l r ihl ihr => simp [BinaryTree.map, ihl, ihr]

end BinaryTree

namespace Cartesian

open BinaryTree

universe u v w

variable {α : Type u} {K : Type v} {P : Type w}

/-! ### Search trees on keys, heaps on priorities -/

section IsTreap

variable (key : α → K) (pry : α → P) (h : K → P)

/-- The keys from left to right. -/
def keys (t : BinaryTree α) : List K := t.inorder.map key

@[simp] theorem keys_nil : keys key nil = [] := rfl

@[simp] theorem keys_node (x : α) (l r : BinaryTree α) :
    keys key (node x l r) = keys key l ++ key x :: keys key r := by simp [keys]

/-- No key on the left is above that of the root, and none on the right below. -/
def IsSearchTree [LE K] : BinaryTree α → Prop
  | nil => True
  | node x l r =>
      (∀ k ∈ keys key l, k ≤ key x) ∧ (∀ k ∈ keys key r, key x ≤ k) ∧
      IsSearchTree l ∧ IsSearchTree r

theorem isSearchTree_node [LE K] {x : α} {l r : BinaryTree α} :
    IsSearchTree key (node x l r) ↔
      (∀ k ∈ keys key l, k ≤ key x) ∧ (∀ k ∈ keys key r, key x ≤ k) ∧
      IsSearchTree key l ∧ IsSearchTree key r := Iff.rfl

variable [LinearOrder K] [LinearOrder P]

/-- Sorted by key, with priorities that fall from parent to child and are given by the
keys. -/
def IsTreap : BinaryTree α → Prop
  | nil => True
  | node x l r =>
      pry x = h (key x) ∧
      (∀ k ∈ keys key l, k < key x ∧ h k < h (key x)) ∧
      (∀ k ∈ keys key r, key x < k ∧ h k < h (key x)) ∧
      IsTreap l ∧ IsTreap r

variable {key pry h}

@[simp] theorem isTreap_nil : IsTreap key pry h nil := trivial

theorem isTreap_node {x : α} {l r : BinaryTree α} :
    IsTreap key pry h (node x l r) ↔
      pry x = h (key x) ∧
      (∀ k ∈ keys key l, k < key x ∧ h k < h (key x)) ∧
      (∀ k ∈ keys key r, key x < k ∧ h k < h (key x)) ∧
      IsTreap key pry h l ∧ IsTreap key pry h r := Iff.rfl

omit [LinearOrder K] in
theorem keys_map {β : Type*} {key' : β → K} {g : α → β} (hkey : ∀ x, key' (g x) = key x)
    (t : BinaryTree α) : keys key' (t.map g) = keys key t := by
  simp [keys, inorder_map, hkey]

theorem isSearchTree_map {β : Type*} {key' : β → K} {g : α → β}
    (hkey : ∀ x, key' (g x) = key x) {t : BinaryTree α} :
    IsSearchTree key' (t.map g) ↔ IsSearchTree key t := by
  induction t with
  | nil => exact Iff.rfl
  | node x l r ihl ihr =>
      rw [map_node, isSearchTree_node, isSearchTree_node, keys_map hkey, keys_map hkey, hkey]
      exact and_congr_right' (and_congr_right' (and_congr ihl ihr))

theorem IsTreap.search {t : BinaryTree α} (ht : IsTreap key pry h t) : IsSearchTree key t := by
  induction t with
  | nil => trivial
  | node x l r ihl ihr =>
      obtain ⟨-, hl, hr, htl, htr⟩ := ht
      exact ⟨fun k hk => (hl k hk).1.le, fun k hk => (hr k hk).1.le, ihl htl, ihr htr⟩

/-- The root has the highest priority. -/
theorem IsTreap.le_root {x : α} {l r : BinaryTree α} (ht : IsTreap key pry h (node x l r))
    {k : K} (hk : k ∈ keys key (node x l r)) : h k ≤ h (key x) := by
  obtain ⟨-, hl, hr, -, -⟩ := ht
  rw [keys_node] at hk
  rcases List.mem_append.mp hk with hk | hk
  · exact (hl k hk).2.le
  · rcases List.mem_cons.mp hk with rfl | hk
    · exact le_rfl
    · exact (hr k hk).2.le

theorem IsTreap.sorted {t : BinaryTree α} (ht : IsTreap key pry h t) :
    (keys key t).Pairwise (· < ·) := by
  induction t with
  | nil => exact List.Pairwise.nil
  | node x l r ihl ihr =>
      obtain ⟨-, hl, hr, htl, htr⟩ := ht
      rw [keys_node, List.pairwise_append, List.pairwise_cons]
      refine ⟨ihl htl, ⟨fun k hk => (hr k hk).1, ihr htr⟩, ?_⟩
      intro a ha b hb
      rcases List.mem_cons.mp hb with rfl | hb
      · exact (hl a ha).1
      · exact (hl a ha).1.trans (hr b hb).1

theorem IsTreap.prio {t : BinaryTree α} (ht : IsTreap key pry h t) :
    ∀ x ∈ t.inorder, pry x = h (key x) := by
  induction t with
  | nil => simp
  | node x l r ihl ihr =>
      obtain ⟨hx, -, -, htl, htr⟩ := ht
      intro y hy
      rcases List.mem_append.mp hy with hy | hy
      · exact ihl htl y hy
      · rcases List.mem_cons.mp hy with rfl | hy
        · exact hx
        · exact ihr htr y hy

/--
**A treap is determined by its in-order list.**  The root is the one element of
highest priority, so two trees over one list break it at the same place.
-/
theorem IsTreap.ext : ∀ {t s : BinaryTree α}, IsTreap key pry h t → IsTreap key pry h s →
    t.inorder = s.inorder → t = s := by
  intro t
  induction t with
  | nil =>
      intro s _ _ heq
      cases s with
      | nil => rfl
      | node y l' r' => simp at heq
  | node x l r ihl ihr =>
      intro s ht hs heq
      cases s with
      | nil => simp at heq
      | node y l' r' =>
          obtain ⟨-, hl, hr, htl, htr⟩ := ht
          obtain ⟨-, hl', hr', hsl, hsr⟩ := hs
          rw [inorder_node, inorder_node] at heq
          have hkey : ∀ {z : α} {u : BinaryTree α}, z ∈ u.inorder → key z ∈ keys key u :=
            fun hz => List.mem_map_of_mem hz
          rcases List.append_eq_append_iff.mp heq with ⟨m, hm, hm'⟩ | ⟨m, hm, hm'⟩
          · cases m with
            | nil =>
                obtain ⟨rfl, hright⟩ := List.cons.inj hm'
                rw [ihl htl hsl (by simpa using hm.symm), ihr htr hsr hright]
            | cons z m =>
                -- `x` lies in `l'` and `y` in `r`, so each root outranks the other.
                obtain ⟨rfl, hrest⟩ := List.cons.inj hm'
                have hx := hl' _ (hkey (show x ∈ l'.inorder by rw [hm]; simp))
                have hy := hr _ (hkey (show y ∈ r.inorder by rw [hrest]; simp))
                exact absurd (hx.2.trans hy.2) (lt_irrefl _)
          · cases m with
            | nil =>
                obtain ⟨rfl, hright⟩ := List.cons.inj hm'
                rw [ihl htl hsl (by simpa using hm), ihr htr hsr hright.symm]
            | cons z m =>
                obtain ⟨rfl, hrest⟩ := List.cons.inj hm'
                have hy := hl _ (hkey (show y ∈ l.inorder by rw [hm]; simp))
                have hx := hr' _ (hkey (show x ∈ r'.inorder by rw [hrest]; simp))
                exact absurd (hx.2.trans hy.2) (lt_irrefl _)

/-- **A treap is determined by the set of its elements**, since the order sorts them. -/
theorem IsTreap.eq_of_mem_iff {t s : BinaryTree α} (ht : IsTreap key pry h t)
    (hs : IsTreap key pry h s) (hmem : ∀ x, x ∈ t.inorder ↔ x ∈ s.inorder) : t = s := by
  have hsort : ∀ {u : BinaryTree α}, IsTreap key pry h u →
      u.inorder.Pairwise fun x y => key x < key y := fun hu => List.pairwise_map.mp hu.sorted
  have hnodup : ∀ {u : BinaryTree α}, IsTreap key pry h u → u.inorder.Nodup := fun hu =>
    (hsort hu).imp fun hlt heq => by rw [heq] at hlt; exact lt_irrefl _ hlt
  refine ht.ext hs ?_
  refine List.Perm.eq_of_pairwise ?_ (hsort ht) (hsort hs)
    ((List.perm_ext_iff_of_nodup (hnodup ht) (hnodup hs)).mpr hmem)
  intro x y _ _ hxy hyx
  exact absurd (hxy.trans hyx) (lt_irrefl _)

/-- Relabelling the elements without touching keys and priorities keeps a treap. -/
theorem IsTreap.map {β : Type*} {key' : β → K} {pry' : β → P} {g : α → β}
    (hkey : ∀ x, key' (g x) = key x) (hpry : ∀ x, pry' (g x) = pry x) {t : BinaryTree α}
    (ht : IsTreap key pry h t) : IsTreap key' pry' h (t.map g) := by
  induction t with
  | nil => trivial
  | node x l r ihl ihr =>
      obtain ⟨hx, hl, hr, htl, htr⟩ := ht
      refine isTreap_node.mpr ⟨by rw [hpry, hkey, hx], ?_, ?_, ihl htl, ihr htr⟩
      · rw [keys_map hkey, hkey]
        exact hl
      · rw [keys_map hkey, hkey]
        exact hr

end IsTreap

/-! ### Splitting at a key

A split goes down one path and passes its nodes through the hook.  What it does to the
keys does not depend on the hook, and the two parts of a treap are treaps, the keys up
to `k` in the first.
-/

section Split

variable [LinearOrder K] (f : α → α) (key : α → K) (k : K)

/-- Cut a tree in two at `k`, passing every node on the path through `f`. -/
def splitWith : BinaryTree α → BinaryTree α × BinaryTree α
  | nil => (nil, nil)
  | node x l r =>
      if k < key x then
        let (a, b) := splitWith l
        (a, node (f x) b r)
      else
        let (a, b) := splitWith r
        (node (f x) l a, b)

theorem numNodes_splitWith (t : BinaryTree α) :
    (splitWith f key k t).1.numNodes + (splitWith f key k t).2.numNodes = t.numNodes := by
  induction t with
  | nil => rfl
  | node x l r ihl ihr =>
      rw [splitWith]
      split
      · simp only [numNodes]; omega
      · simp only [numNodes]; omega

theorem height_splitWith (t : BinaryTree α) :
    (splitWith f key k t).1.height ≤ t.height ∧ (splitWith f key k t).2.height ≤ t.height := by
  induction t with
  | nil => exact ⟨le_rfl, le_rfl⟩
  | node x l r ihl ihr =>
      obtain ⟨hl₁, hl₂⟩ := ihl
      obtain ⟨hr₁, hr₂⟩ := ihr
      rw [splitWith]
      split
      · simp only [height]; omega
      · simp only [height]; omega

/-- Splitting without touching the nodes keeps them, in order. -/
theorem inorder_splitWith_id (t : BinaryTree α) :
    (splitWith id key k t).1.inorder ++ (splitWith id key k t).2.inorder = t.inorder := by
  induction t with
  | nil => rfl
  | node x l r ihl ihr =>
      rw [splitWith]
      split
      · simp [← ihl]
      · simp [← ihr]

variable {f key k}

theorem keys_splitWith (hkey : ∀ x, key (f x) = key x) (t : BinaryTree α) :
    keys key (splitWith f key k t).1 ++ keys key (splitWith f key k t).2 = keys key t := by
  induction t with
  | nil => rfl
  | node x l r ihl ihr =>
      rw [splitWith]
      split
      · simp [hkey, ← ihl]
      · simp [hkey, ← ihr]

theorem splitWith_of_lt {x : α} {l r : BinaryTree α} (hlt : k < key x) :
    splitWith f key k (node x l r)
      = ((splitWith f key k l).1, node (f x) (splitWith f key k l).2 r) := if_pos hlt

theorem splitWith_of_not_lt {x : α} {l r : BinaryTree α} (hlt : ¬ k < key x) :
    splitWith f key k (node x l r)
      = (node (f x) l (splitWith f key k r).1, (splitWith f key k r).2) := if_neg hlt

/-- Splitting does not see what is shown besides the key. -/
theorem splitWith_map {β : Type*} {f' : β → β} {key' : β → K} {g : α → β}
    (hkey : ∀ x, key' (g x) = key x) (hf : ∀ x, g (f x) = f' (g x)) (t : BinaryTree α) :
    splitWith f' key' k (t.map g)
      = ((splitWith f key k t).1.map g, (splitWith f key k t).2.map g) := by
  induction t with
  | nil => rfl
  | node x l r ihl ihr =>
      rw [BinaryTree.map, splitWith, splitWith, ihl, ihr, hkey]
      split
      · simp only [BinaryTree.map, hf]
      · simp only [BinaryTree.map, hf]

variable [LinearOrder P] {pry : α → P} {h : K → P}

theorem mem_keys_of_splitWith (hkey : ∀ x, key (f x) = key x) {t : BinaryTree α} {k' : K} :
    k' ∈ keys key t ↔
      k' ∈ keys key (splitWith f key k t).1 ∨ k' ∈ keys key (splitWith f key k t).2 := by
  rw [← keys_splitWith (k := k) hkey t, List.mem_append]

/-- The two halves are treaps, with the keys up to `k` on one side and above it on the other. -/
theorem IsTreap.splitWith (hkey : ∀ x, key (f x) = key x) (hpry : ∀ x, pry (f x) = pry x)
    {t : BinaryTree α} (ht : IsTreap key pry h t) :
    IsTreap key pry h (splitWith f key k t).1 ∧ IsTreap key pry h (splitWith f key k t).2 ∧
      (∀ a ∈ keys key (Cartesian.splitWith f key k t).1, a ≤ k) ∧
      (∀ b ∈ keys key (Cartesian.splitWith f key k t).2, k < b) := by
  induction t with
  | nil => simp [Cartesian.splitWith]
  | node x l r ihl ihr =>
      obtain ⟨hx, hl, hr, htl, htr⟩ := ht
      obtain ⟨hal, hbl, hlel, hltl⟩ := ihl htl
      obtain ⟨har, hbr, hler, hltr⟩ := ihr htr
      rw [Cartesian.splitWith]
      split
      · rename_i hlt
        refine ⟨hal, ?_, hlel, ?_⟩
        · refine isTreap_node.mpr ⟨by rw [hpry, hkey, hx], ?_, ?_, hbl, htr⟩
          · intro b hb
            rw [hkey]
            exact hl b ((mem_keys_of_splitWith hkey).mpr (Or.inr hb))
          · intro b hb
            rw [hkey]
            exact hr b hb
        · intro b hb
          rw [keys_node, hkey] at hb
          rcases List.mem_append.mp hb with hb | hb
          · exact hltl b hb
          · rcases List.mem_cons.mp hb with rfl | hb
            · exact hlt
            · exact hlt.trans (hr b hb).1
      · rename_i hge
        have hle : key x ≤ k := not_lt.mp hge
        refine ⟨?_, hbr, ?_, hltr⟩
        · refine isTreap_node.mpr ⟨by rw [hpry, hkey, hx], ?_, ?_, htl, har⟩
          · intro b hb
            rw [hkey]
            exact hl b hb
          · intro b hb
            rw [hkey]
            exact hr b ((mem_keys_of_splitWith hkey).mpr (Or.inl hb))
        · intro a ha
          rw [keys_node, hkey] at ha
          rcases List.mem_append.mp ha with ha | ha
          · exact ((hl a ha).1.trans_le hle).le
          · rcases List.mem_cons.mp ha with rfl | ha
            · exact hle
            · exact hler a ha

end Split

/-! ### Concatenating two trees

The higher root goes on top, so the recursion is on one tree or the other.  That the
result is a treap needs the keys of the first below those of the second.
-/

section Concat

variable [LinearOrder P] (f : α → α) (pry : α → P)

/-- Join two trees along the right spine of the first and the left spine of the second. -/
def concatWith : BinaryTree α → BinaryTree α → BinaryTree α
  | nil, t => t
  | node x l r, nil => node x l r
  | node x l r, node y l' r' =>
      if pry y < pry x then node (f x) l (concatWith r (node y l' r'))
      else node (f y) (concatWith (node x l r) l') r'
termination_by s t => s.numNodes + t.numNodes
decreasing_by all_goals simp only [numNodes]; omega

variable {f pry}

@[simp] theorem concatWith_nil_left (t : BinaryTree α) : concatWith f pry nil t = t := by
  rw [concatWith]

@[simp] theorem concatWith_nil_right (s : BinaryTree α) : concatWith f pry s nil = s := by
  cases s <;> rw [concatWith]

theorem concatWith_node (x y : α) (l r l' r' : BinaryTree α) :
    concatWith f pry (node x l r) (node y l' r')
      = if pry y < pry x then node (f x) l (concatWith f pry r (node y l' r'))
        else node (f y) (concatWith f pry (node x l r) l') r' := by
  rw [concatWith]

variable (f pry) in
theorem numNodes_concatWith (s t : BinaryTree α) :
    (concatWith f pry s t).numNodes = s.numNodes + t.numNodes := by
  induction s, t using concatWith.induct pry with
  | case1 t => simp [numNodes]
  | case2 x l r => simp [numNodes]
  | case3 x l r y l' r' hlt ih =>
      rw [concatWith_node, if_pos hlt]
      simp only [numNodes] at ih ⊢
      omega
  | case4 x l r y l' r' hlt ih =>
      rw [concatWith_node, if_neg hlt]
      simp only [numNodes] at ih ⊢
      omega

/-- What holds of all nodes and survives the hook holds of the joined tree. -/
theorem forall_mem_concatWith {Q : α → Prop} (hf : ∀ x, Q x → Q (f x)) {s t : BinaryTree α} :
    (∀ x ∈ s.inorder, Q x) → (∀ x ∈ t.inorder, Q x) →
      ∀ x ∈ (concatWith f pry s t).inorder, Q x := by
  induction s, t using concatWith.induct pry with
  | case1 t => intro _ ht; simpa using ht
  | case2 x l r => intro hs _; simpa using hs
  | case3 x l r y l' r' hlt ih =>
      intro hs ht
      obtain ⟨hx, hl, hr⟩ := forall_mem_inorder_node.mp hs
      rw [concatWith_node, if_pos hlt]
      exact forall_mem_inorder_node.mpr ⟨hf x hx, hl, ih hr ht⟩
  | case4 x l r y l' r' hlt ih =>
      intro hs ht
      obtain ⟨hy, hl', hr'⟩ := forall_mem_inorder_node.mp ht
      rw [concatWith_node, if_neg hlt]
      exact forall_mem_inorder_node.mpr ⟨hf y hy, ih hs hl', hr'⟩

variable {key : α → K}

theorem keys_concatWith (hkey : ∀ x, key (f x) = key x) (s t : BinaryTree α) :
    keys key (concatWith f pry s t) = keys key s ++ keys key t := by
  induction s, t using concatWith.induct pry with
  | case1 t => simp
  | case2 x l r => simp
  | case3 x l r y l' r' hlt ih =>
      rw [concatWith_node, if_pos hlt, keys_node, ih]
      simp [hkey]
  | case4 x l r y l' r' hlt ih =>
      rw [concatWith_node, if_neg hlt, keys_node, ih]
      simp [hkey]

variable [LinearOrder K] {h : K → P}

/-- Two treaps whose keys do not interleave make one.  The roots have different keys, and
so, with an injective `h`, different priorities. -/
theorem IsTreap.concatWith (hinj : Function.Injective h) (hkey : ∀ x, key (f x) = key x)
    (hpry : ∀ x, pry (f x) = pry x) {s t : BinaryTree α} :
    IsTreap key pry h s → IsTreap key pry h t →
      (∀ a ∈ keys key s, ∀ b ∈ keys key t, a < b) →
      IsTreap key pry h (concatWith f pry s t) := by
  induction s, t using Cartesian.concatWith.induct pry with
  | case1 t => intro _ ht _; simpa using ht
  | case2 x l r => intro hs _ _; simpa using hs
  | case3 x l r y l' r' hlt ih =>
      intro hs ht hsep
      obtain ⟨hx, hl, hr, hsl, hsr⟩ := isTreap_node.mp hs
      have hy := (isTreap_node.mp ht).1
      rw [concatWith_node, if_pos hlt]
      refine isTreap_node.mpr ⟨by rw [hpry, hkey, hx], ?_, ?_, hsl, ih hsr ht ?_⟩
      · intro a ha
        rw [hkey]
        exact hl a ha
      · intro b hb
        rw [keys_concatWith hkey] at hb
        rw [hkey]
        rcases List.mem_append.mp hb with hb | hb
        · exact hr b hb
        · refine ⟨hsep _ (by simp) b hb, (ht.le_root hb).trans_lt ?_⟩
          rw [← hx, ← hy]
          exact hlt
      · intro a ha b hb
        exact hsep a (by simp [ha]) b hb
  | case4 x l r y l' r' hlt ih =>
      intro hs ht hsep
      obtain ⟨hy, hl, hr, htl, htr⟩ := isTreap_node.mp ht
      have hx := (isTreap_node.mp hs).1
      -- Distinct keys have distinct priorities, so `y` outranks `x` strictly.
      have hxy : h (key x) < h (key y) := by
        refine lt_of_le_of_ne (by rw [← hx, ← hy]; exact not_lt.mp hlt) fun heq => ?_
        exact absurd (hinj heq) (hsep _ (by simp) _ (by simp)).ne
      rw [concatWith_node, if_neg hlt]
      refine isTreap_node.mpr ⟨by rw [hpry, hkey, hy], ?_, ?_, ih hs htl ?_, htr⟩
      · intro a ha
        rw [keys_concatWith hkey] at ha
        rw [hkey]
        rcases List.mem_append.mp ha with ha | ha
        · exact ⟨hsep a ha _ (by simp), (hs.le_root ha).trans_lt hxy⟩
        · exact hl a ha
      · intro b hb
        rw [hkey]
        exact hr b hb
      · intro a ha b hb
        exact hsep a ha b (by simp [hb])

end Concat

/-! ### Uniting two trees -/

section Union

variable [LinearOrder K] [LinearOrder P] (c : α → α → α) (key : α → K) (pry : α → P)

/-- Unite two trees; of two roots the one of higher priority stays on top, and two
nodes of one key become one by `c`. -/
def unionWith : BinaryTree α → BinaryTree α → BinaryTree α
  | nil, t => t
  | node x l r, nil => node x l r
  | node x l r, node y l' r' =>
      if key x = key y then node (c x y) (unionWith l l') (unionWith r r')
      else if pry y < pry x then
        node x (unionWith l (splitWith id key (key x) (node y l' r')).1)
          (unionWith r (splitWith id key (key x) (node y l' r')).2)
      else
        node y (unionWith (splitWith id key (key y) (node x l r)).1 l')
          (unionWith (splitWith id key (key y) (node x l r)).2 r')
termination_by s t => s.numNodes + t.numNodes
decreasing_by
  · simp only [numNodes]; omega
  · simp only [numNodes]; omega
  all_goals
    have hs := numNodes_splitWith id key (key y) (node x l r)
    have ht := numNodes_splitWith id key (key x) (node y l' r')
    simp only [numNodes] at *
    omega

variable {c key pry}

@[simp] theorem unionWith_nil_left (t : BinaryTree α) : unionWith c key pry nil t = t := by
  rw [unionWith]

@[simp] theorem unionWith_nil_right (s : BinaryTree α) : unionWith c key pry s nil = s := by
  cases s <;> rw [unionWith]

theorem unionWith_node (x y : α) (l r l' r' : BinaryTree α) :
    unionWith c key pry (node x l r) (node y l' r')
      = if key x = key y then
          node (c x y) (unionWith c key pry l l') (unionWith c key pry r r')
        else if pry y < pry x then
          node x (unionWith c key pry l (splitWith id key (key x) (node y l' r')).1)
            (unionWith c key pry r (splitWith id key (key x) (node y l' r')).2)
        else
          node y (unionWith c key pry (splitWith id key (key y) (node x l r)).1 l')
            (unionWith c key pry (splitWith id key (key y) (node x l r)).2 r') := by
  rw [unionWith]

/-- Uniting does not see what is shown besides the key and the priority. -/
theorem unionWith_map {β : Type*} {c' : β → β → β} {key' : β → K} {pry' : β → P} {g : α → β}
    (hkey : ∀ x, key' (g x) = key x) (hpry : ∀ x, pry' (g x) = pry x)
    (hc : ∀ x y, g (c x y) = c' (g x) (g y)) (s t : BinaryTree α) :
    unionWith c' key' pry' (s.map g) (t.map g) = (unionWith c key pry s t).map g := by
  have hsplit : ∀ (k : K) (u : BinaryTree α), splitWith id key' k (u.map g)
      = ((splitWith id key k u).1.map g, (splitWith id key k u).2.map g) :=
    fun k => splitWith_map hkey fun _ => rfl
  induction s, t using unionWith.induct key pry with
  | case1 t => simp [BinaryTree.map]
  | case2 x l r => simp [BinaryTree.map]
  | case3 x l r y l' r' heq ihl ihr =>
      rw [unionWith_node, if_pos heq, BinaryTree.map, BinaryTree.map, unionWith_node, hkey, hkey,
        if_pos heq, ihl, ihr, BinaryTree.map, hc]
  | case4 x l r y l' r' hne hlt ihl ihr =>
      have hy := hsplit (key x) (node y l' r')
      rw [BinaryTree.map] at hy
      rw [unionWith_node, if_neg hne, if_pos hlt, BinaryTree.map, BinaryTree.map, unionWith_node,
        hkey, hkey, hpry, hpry, if_neg hne, if_pos hlt, hy, ihl, ihr, BinaryTree.map]
  | case5 x l r y l' r' hne hlt ihl ihr =>
      have hx := hsplit (key y) (node x l r)
      rw [BinaryTree.map] at hx
      rw [unionWith_node, if_neg hne, if_neg hlt, BinaryTree.map, BinaryTree.map, unionWith_node,
        hkey, hkey, hpry, hpry, if_neg hne, if_neg hlt, hx, ihl, ihr, BinaryTree.map]

/-- What holds of all nodes and survives their becoming one holds of the united tree. -/
theorem forall_mem_unionWith {Q : α → Prop} (hc : ∀ x y, Q x → Q y → Q (c x y))
    {s t : BinaryTree α} (hs : ∀ x ∈ s.inorder, Q x) (ht : ∀ x ∈ t.inorder, Q x) :
    ∀ x ∈ (unionWith c key pry s t).inorder, Q x := by
  induction s, t using unionWith.induct key pry with
  | case1 t => simpa using ht
  | case2 x l r => simpa using hs
  | case3 x l r y l' r' heq ihl ihr =>
      obtain ⟨hx, hl, hr⟩ := forall_mem_inorder_node.mp hs
      obtain ⟨hy, hl', hr'⟩ := forall_mem_inorder_node.mp ht
      rw [unionWith_node, if_pos heq]
      exact forall_mem_inorder_node.mpr ⟨hc x y hx hy, ihl hl hl', ihr hr hr'⟩
  | case4 x l r y l' r' hne hlt ihl ihr =>
      obtain ⟨hx, hl, hr⟩ := forall_mem_inorder_node.mp hs
      rw [← inorder_splitWith_id key (key x) (node y l' r')] at ht
      rw [unionWith_node, if_neg hne, if_pos hlt]
      exact forall_mem_inorder_node.mpr ⟨hx, ihl hl fun z hz => ht z (by simp [hz]),
        ihr hr fun z hz => ht z (by simp [hz])⟩
  | case5 x l r y l' r' hne hlt ihl ihr =>
      obtain ⟨hy, hl', hr'⟩ := forall_mem_inorder_node.mp ht
      rw [← inorder_splitWith_id key (key y) (node x l r)] at hs
      rw [unionWith_node, if_neg hne, if_neg hlt]
      exact forall_mem_inorder_node.mpr ⟨hy, ihl (fun z hz => hs z (by simp [hz])) hl',
        ihr (fun z hz => hs z (by simp [hz])) hr'⟩

/-- No key is lost, and none is added. -/
theorem mem_keys_unionWith (hkey : ∀ x y, key x = key y → key (c x y) = key x)
    (s t : BinaryTree α) (k : K) :
    k ∈ keys key (unionWith c key pry s t) ↔ k ∈ keys key s ∨ k ∈ keys key t := by
  induction s, t using unionWith.induct key pry with
  | case1 t => simp
  | case2 x l r => simp
  | case3 x l r y l' r' heq ihl ihr =>
      rw [unionWith_node, if_pos heq]
      simp only [keys_node, List.mem_append, List.mem_cons, hkey x y heq, ihl, ihr, ← heq]
      grind
  | case4 x l r y l' r' hne hlt ihl ihr =>
      rw [unionWith_node, if_neg hne, if_pos hlt,
        mem_keys_of_splitWith (f := id) (k := key x) (show ∀ z, key (id z) = key z from fun _ => rfl)
          (t := node y l' r')]
      simp only [keys_node, List.mem_append, List.mem_cons, ihl, ihr]
      grind
  | case5 x l r y l' r' hne hlt ihl ihr =>
      rw [unionWith_node, if_neg hne, if_neg hlt,
        mem_keys_of_splitWith (f := id) (k := key y) (show ∀ z, key (id z) = key z from fun _ => rfl)
          (t := node x l r)]
      simp only [keys_node, List.mem_append, List.mem_cons, ihl, ihr]
      grind

variable {h : K → P}

/-- Splitting below a root of higher priority leaves nothing at that root's key. -/
theorem IsTreap.splitWith_lt {f : α → α} (hkey : ∀ x, key (f x) = key x)
    (hpry : ∀ x, pry (f x) = pry x) {t : BinaryTree α} {k : K}
    (ht : IsTreap key pry h t) (habove : ∀ a ∈ keys key t, h a < h k) :
    (∀ a ∈ keys key (Cartesian.splitWith f key k t).1, a < k ∧ h a < h k) ∧
      (∀ b ∈ keys key (Cartesian.splitWith f key k t).2, k < b ∧ h b < h k) := by
  obtain ⟨-, -, hle, hlt⟩ := ht.splitWith (k := k) hkey hpry
  refine ⟨fun a ha => ?_, fun b hb => ?_⟩
  · have hrank := habove a ((mem_keys_of_splitWith hkey).mpr (Or.inl ha))
    exact ⟨lt_of_le_of_ne (hle a ha) fun heq => hrank.ne (by rw [heq]), hrank⟩
  · exact ⟨hlt b hb, habove b ((mem_keys_of_splitWith hkey).mpr (Or.inr hb))⟩

/-- The two sides of a root are treaps by the facts about splitting, and they are below
the root because it has the highest priority of both trees. -/
theorem IsTreap.unionWith (hinj : Function.Injective h)
    (hkey : ∀ x y, key x = key y → key (c x y) = key x)
    (hpry : ∀ x y, key x = key y → pry x = pry y → pry (c x y) = pry x) {s t : BinaryTree α} :
    IsTreap key pry h s → IsTreap key pry h t → IsTreap key pry h (unionWith c key pry s t) := by
  induction s, t using Cartesian.unionWith.induct key pry with
  | case1 t => intro _ ht; simpa using ht
  | case2 x l r => intro hs _; simpa using hs
  | case3 x l r y l' r' heq ihl ihr =>
      intro hs ht
      obtain ⟨hx, hl, hr, hsl, hsr⟩ := isTreap_node.mp hs
      obtain ⟨hy, hl', hr', htl, htr⟩ := isTreap_node.mp ht
      have hk := hkey x y heq
      rw [unionWith_node, if_pos heq]
      refine isTreap_node.mpr ⟨?_, ?_, ?_, ihl hsl htl, ihr hsr htr⟩
      · rw [hk, hpry x y heq (by rw [hx, hy, heq]), hx]
      · intro a ha
        rw [hk]
        rcases (mem_keys_unionWith hkey _ _ _).mp ha with ha | ha
        · exact hl a ha
        · rw [heq]; exact hl' a ha
      · intro b hb
        rw [hk]
        rcases (mem_keys_unionWith hkey _ _ _).mp hb with hb | hb
        · exact hr b hb
        · rw [heq]; exact hr' b hb
  | case4 x l r y l' r' hne hlt ihl ihr =>
      intro hs ht
      obtain ⟨hx, hl, hr, hsl, hsr⟩ := isTreap_node.mp hs
      have hy := (isTreap_node.mp ht).1
      -- The root of `s` outranks all of `t`, and so both parts of it.
      obtain ⟨hta, htb, -, -⟩ :=
        ht.splitWith (f := id) (k := key x) (fun _ => rfl) (fun _ => rfl)
      obtain ⟨ha', hb'⟩ := ht.splitWith_lt (f := id) (k := key x) (fun _ => rfl) (fun _ => rfl)
        (fun a ha => (ht.le_root ha).trans_lt (by rw [← hx, ← hy]; exact hlt))
      rw [unionWith_node, if_neg hne, if_pos hlt]
      refine isTreap_node.mpr ⟨hx, ?_, ?_, ihl hsl hta, ihr hsr htb⟩
      · intro a ha
        rcases (mem_keys_unionWith hkey _ _ _).mp ha with ha | ha
        · exact hl a ha
        · exact ha' a ha
      · intro b hb
        rcases (mem_keys_unionWith hkey _ _ _).mp hb with hb | hb
        · exact hr b hb
        · exact hb' b hb
  | case5 x l r y l' r' hne hlt ihl ihr =>
      intro hs ht
      obtain ⟨hy, hl, hr, htl, htr⟩ := isTreap_node.mp ht
      have hx := (isTreap_node.mp hs).1
      -- With different keys the priorities are different, so that `y` outranks all of `s`.
      have hxy : h (key x) < h (key y) := by
        refine lt_of_le_of_ne (by rw [← hx, ← hy]; exact not_lt.mp hlt) fun heq => ?_
        exact hne (hinj heq)
      obtain ⟨hsa, hsb, -, -⟩ :=
        hs.splitWith (f := id) (k := key y) (fun _ => rfl) (fun _ => rfl)
      obtain ⟨ha', hb'⟩ := hs.splitWith_lt (f := id) (k := key y) (fun _ => rfl) (fun _ => rfl)
        (fun a ha => (hs.le_root ha).trans_lt hxy)
      rw [unionWith_node, if_neg hne, if_neg hlt]
      refine isTreap_node.mpr ⟨hy, ?_, ?_, ihl hsa htl, ihr hsb htr⟩
      · intro a ha
        rcases (mem_keys_unionWith hkey _ _ _).mp ha with ha | ha
        · exact ha' a ha
        · exact hl a ha
      · intro b hb
        rcases (mem_keys_unionWith hkey _ _ _).mp hb with hb | hb
        · exact hb' b hb
        · exact hr b hb

end Union

end Cartesian
