/-
What the treap functions do to the trees they are given.

`insertTree`, `deleteTree` and the rest are the updates with the store taken away: a
tree in, a tree out.  Two things are proved of them here.

  * They keep a treap a treap (`WellFormed.insertTree`, `WellFormed.deleteTree`).
  * On the multiset a tree stores they are insertion and removal of one occurrence.
    Removal needs the order and the heap: a key below the place where the search
    stops would not be found.
-/
import Mathlib.Data.Multiset.AddSub
import Mathlib.Data.Multiset.Filter
import Mathlib.Data.List.Sort
import Mathlib.Algebra.Order.Group.Multiset
import Mathlib.Tactic.Abel
import Contreap.Lib.Cartesian
import Contreap.Model.Treap

namespace Treap

open BinaryTree Cartesian PtrHeap

/-- What a node holds besides its links and its aggregate. -/
structure Datum where
  ver : Nat
  pry : UInt64
  key : UInt64
  val : UInt64
  deriving DecidableEq, Repr

namespace Datum

/-- The datum of a copy made for a version. -/
def copyAt (ver : Nat) (d : Datum) : Datum := { d with ver := ver }

@[simp] theorem copyAt_ver (ver : Nat) (d : Datum) : (d.copyAt ver).ver = ver := rfl
@[simp] theorem copyAt_pry (ver : Nat) (d : Datum) : (d.copyAt ver).pry = d.pry := rfl
@[simp] theorem copyAt_key (ver : Nat) (d : Datum) : (d.copyAt ver).key = d.key := rfl
@[simp] theorem copyAt_val (ver : Nat) (d : Datum) : (d.copyAt ver).val = d.val := rfl

/-- The datum of a copy made for a version, with its counter changed. -/
def recount (ver : Nat) (v : UInt64) (d : Datum) : Datum := { d with ver := ver, val := v }

@[simp] theorem recount_ver (ver : Nat) (v : UInt64) (d : Datum) : (d.recount ver v).ver = ver := rfl
@[simp] theorem recount_pry (ver : Nat) (v : UInt64) (d : Datum) : (d.recount ver v).pry = d.pry := rfl
@[simp] theorem recount_key (ver : Nat) (v : UInt64) (d : Datum) : (d.recount ver v).key = d.key := rfl
@[simp] theorem recount_val (ver : Nat) (v : UInt64) (d : Datum) : (d.recount ver v).val = v := rfl

/-- Everything but the version. -/
structure Shape where
  pry : UInt64
  key : UInt64
  val : UInt64
  deriving DecidableEq, Repr

/-- What is left of a datum without its version. -/
def shape (d : Datum) : Shape := ⟨d.pry, d.key, d.val⟩

end Datum

/-! ### The updates

Insertion and deletion go down by priority first and by key second, as in the source;
each has an equation for every branch.
-/

/-- `process_deploy` on trees. -/
def deployTree (ver : Nat) (pry key : UInt64) (t : BinaryTree Datum) : BinaryTree Datum :=
  node ⟨ver, pry, key, 1⟩ (splitWith (Datum.copyAt ver) Datum.key key t).1
    (splitWith (Datum.copyAt ver) Datum.key key t).2

/-- `search_insert` on trees. -/
def insertTree (ver : Nat) (pry key : UInt64) : BinaryTree Datum → BinaryTree Datum
  | nil => node ⟨ver, pry, key, 1⟩ nil nil
  | node d l r =>
      if pry < d.pry then
        if key < d.key then node (d.copyAt ver) (insertTree ver pry key l) r
        else node (d.copyAt ver) l (insertTree ver pry key r)
      else if d.key = key then node (d.recount ver (d.val + 1)) l r
      else deployTree ver pry key (node d l r)

/-- `process_concat` on trees. -/
def concatTree (ver : Nat) (l r : BinaryTree Datum) : BinaryTree Datum :=
  concatWith (Datum.copyAt ver) Datum.pry l r

/-- `search_delete` on trees. -/
def deleteTree (ver : Nat) (pry key : UInt64) : BinaryTree Datum → BinaryTree Datum
  | nil => nil
  | node d l r =>
      if pry < d.pry then
        if key < d.key then node (d.copyAt ver) (deleteTree ver pry key l) r
        else node (d.copyAt ver) l (deleteTree ver pry key r)
      else if d.key = key then
        if d.val = 1 then concatTree ver l r
        else node (d.recount ver (d.val - 1)) l r
      else node d l r

section
variable {ver : Nat} {pry key : UInt64} {d : Datum} {l r : BinaryTree Datum}

theorem insertTree_left (hpry : d.pry > pry) (hkey : key < d.key) :
    insertTree ver pry key (node d l r) = node (d.copyAt ver) (insertTree ver pry key l) r := by
  rw [insertTree, if_pos hpry, if_pos hkey]

theorem insertTree_right (hpry : d.pry > pry) (hkey : ¬ key < d.key) :
    insertTree ver pry key (node d l r) = node (d.copyAt ver) l (insertTree ver pry key r) := by
  rw [insertTree, if_pos hpry, if_neg hkey]

theorem insertTree_recount (hpry : ¬ d.pry > pry) (hkey : d.key = key) :
    insertTree ver pry key (node d l r) = node (d.recount ver (d.val + 1)) l r := by
  rw [insertTree, if_neg hpry, if_pos hkey]

theorem insertTree_deploy (hpry : ¬ d.pry > pry) (hkey : d.key ≠ key) :
    insertTree ver pry key (node d l r) = deployTree ver pry key (node d l r) := by
  rw [insertTree, if_neg hpry, if_neg hkey]

theorem deleteTree_left (hpry : d.pry > pry) (hkey : key < d.key) :
    deleteTree ver pry key (node d l r) = node (d.copyAt ver) (deleteTree ver pry key l) r := by
  rw [deleteTree, if_pos hpry, if_pos hkey]

theorem deleteTree_right (hpry : d.pry > pry) (hkey : ¬ key < d.key) :
    deleteTree ver pry key (node d l r) = node (d.copyAt ver) l (deleteTree ver pry key r) := by
  rw [deleteTree, if_pos hpry, if_neg hkey]

theorem deleteTree_concat (hpry : ¬ d.pry > pry) (hkey : d.key = key) (hval : d.val = 1) :
    deleteTree ver pry key (node d l r) = concatTree ver l r := by
  rw [deleteTree, if_neg hpry, if_pos hkey, if_pos hval]

theorem deleteTree_recount (hpry : ¬ d.pry > pry) (hkey : d.key = key) (hval : d.val ≠ 1) :
    deleteTree ver pry key (node d l r) = node (d.recount ver (d.val - 1)) l r := by
  rw [deleteTree, if_neg hpry, if_pos hkey, if_neg hval]

/-- The search stops where the key would stand if it were there. -/
theorem deleteTree_absent (hpry : ¬ d.pry > pry) (hkey : d.key ≠ key) :
    deleteTree ver pry key (node d l r) = node d l r := by
  rw [deleteTree, if_neg hpry, if_neg hkey]

end

/-! ### How many nodes there are

Each update adds one node to the tree at the most, which bounds how high a version can be.
-/

theorem numNodes_deployTree (ver : Nat) (pry key : UInt64) (t : BinaryTree Datum) :
    (deployTree ver pry key t).numNodes = t.numNodes + 1 := by
  rw [deployTree, numNodes, numNodes_splitWith]

/-- One node more at the most. -/
theorem numNodes_insertTree_le (ver : Nat) (pry key : UInt64) (t : BinaryTree Datum) :
    (insertTree ver pry key t).numNodes ≤ t.numNodes + 1 := by
  induction t with
  | nil => exact Nat.le_refl 1
  | node d l r ihl ihr =>
      rw [insertTree]
      split
      · split
        · simp only [numNodes]
          omega
        · simp only [numNodes]
          omega
      · split
        · exact Nat.le_succ _
        · exact (numNodes_deployTree ver pry key _).le

/-- Joining keeps the nodes, and copies take the place of what they copy. -/
theorem numNodes_deleteTree_le (ver : Nat) (pry key : UInt64) (t : BinaryTree Datum) :
    (deleteTree ver pry key t).numNodes ≤ t.numNodes := by
  induction t with
  | nil => exact Nat.le_refl 0
  | node d l r ihl ihr =>
      rw [deleteTree]
      split
      · split
        · simp only [numNodes]
          omega
        · simp only [numNodes]
          omega
      · split
        · split
          · rw [concatTree, numNodes_concatWith]
            exact Nat.le_succ _
          · exact Nat.le_refl _
        · exact Nat.le_refl _

/-- Of two nodes of one key the second stays, with the counters added. -/
def addVal (x y : Datum) : Datum := { y with val := y.val + x.val }

/-- `merge` on trees. -/
def mergeTree (s t : BinaryTree Datum) : BinaryTree Datum := unionWith addVal Datum.key Datum.pry s t

/-! ### The multiset a tree stores

The counters are words, so inserting a key adds an element only if its counter has room.
-/

/-- A key as often as its counter says. -/
def contents : BinaryTree Datum → Multiset UInt64
  | nil => 0
  | node d l r => contents l + Multiset.replicate d.val.toNat d.key + contents r

@[simp] theorem contents_nil : contents nil = 0 := rfl

@[simp] theorem contents_node (d : Datum) (l r : BinaryTree Datum) :
    contents (node d l r)
      = contents l + Multiset.replicate d.val.toNat d.key + contents r := rfl

theorem mem_keys_of_mem_contents {t : BinaryTree Datum} {k : UInt64} :
    k ∈ contents t → k ∈ keys Datum.key t := by
  induction t with
  | nil => simp
  | node d l r ihl ihr =>
      intro hk
      rw [contents_node, Multiset.mem_add, Multiset.mem_add] at hk
      rw [keys_node, List.mem_append, List.mem_cons]
      rcases hk with (hk | hk) | hk
      · exact Or.inl (ihl hk)
      · exact Or.inr (Or.inl (Multiset.eq_of_mem_replicate hk))
      · exact Or.inr (Or.inr (ihr hk))

theorem contents_splitWith {f : Datum → Datum} (hkey : ∀ d, (f d).key = d.key)
    (hval : ∀ d, (f d).val = d.val) (k : UInt64) (t : BinaryTree Datum) :
    contents (splitWith f Datum.key k t).1 + contents (splitWith f Datum.key k t).2
      = contents t := by
  induction t with
  | nil => rfl
  | node d l r ihl ihr =>
      rw [splitWith]
      split
      · simp only [contents_node, hkey, hval, ← ihl]
        abel
      · simp only [contents_node, hkey, hval, ← ihr]
        abel

theorem contents_concatTree (ver : Nat) (s t : BinaryTree Datum) :
    contents (concatTree ver s t) = contents s + contents t := by
  unfold concatTree
  induction s, t using concatWith.induct Datum.pry with
  | case1 t => simp
  | case2 x l r => simp
  | case3 x l r y l' r' hlt ih =>
      rw [concatWith_node, if_pos hlt, contents_node, ih]
      simp only [contents_node, Datum.copyAt_key, Datum.copyAt_val]
      abel
  | case4 x l r y l' r' hlt ih =>
      rw [concatWith_node, if_neg hlt, contents_node, ih]
      simp only [contents_node, Datum.copyAt_key, Datum.copyAt_val]
      abel

theorem contents_deployTree (ver : Nat) (pry key : UInt64) (t : BinaryTree Datum) :
    contents (deployTree ver pry key t) = key ::ₘ contents t := by
  rw [deployTree, contents_node,
    ← contents_splitWith (Datum.copyAt_key ver) (Datum.copyAt_val ver) key t,
    ← Multiset.singleton_add]
  simp only [UInt64.toNat_one, Multiset.replicate_one]
  abel

theorem one_ne_zero_word : (1 : UInt64) ≠ 0 := by decide

/-- A counter that has room goes up by one. -/
theorem toNat_succ {v : UInt64} (hv : v.toNat + 1 < 2 ^ 64) : (v + 1).toNat = v.toNat + 1 := by
  rw [UInt64.toNat_add, UInt64.toNat_one, Nat.mod_eq_of_lt hv]

/-- The cases are those of the function.  Deploying splits the tree at a key that is not
in it. -/
theorem contents_insertTree (ver : Nat) (pry key : UInt64) {t : BinaryTree Datum}
    (hroom : (contents t).card + 1 < 2 ^ 64) :
    contents (insertTree ver pry key t) = key ::ₘ contents t := by
  induction t with
  | nil => rfl
  | node d l r ihl ihr =>
      have hcard : (contents (node d l r)).card
          = (contents l).card + d.val.toNat + (contents r).card := by simp
      rw [insertTree]
      split
      · split
        · rw [contents_node, ihl (by omega)]
          simp
        · rw [contents_node, ihr (by omega)]
          simp
      · split
        · rename_i hkey
          rw [contents_node, contents_node]
          simp only [Datum.recount_key, Datum.recount_val,
            toNat_succ (show d.val.toNat + 1 < 2 ^ 64 by omega),
            Multiset.replicate_succ, hkey]
          simp
        · exact contents_deployTree ver pry key _

/-! ### Well-formed trees

The heap order is on priorities that are a function of the key.  With an injective hash
there are no ties, so that it is clear which root goes on top.
-/

/-- A treap on the priority hash whose counters are positive. -/
structure WellFormed (hash : UInt64 → UInt64) (t : BinaryTree Datum) : Prop where
  treap : IsTreap Datum.key Datum.pry hash t
  pos : ∀ d ∈ t.inorder, d.val ≠ 0

variable {hash : UInt64 → UInt64}

theorem wellFormed_nil : WellFormed hash nil := ⟨trivial, by simp⟩

theorem wellFormed_node {d : Datum} {l r : BinaryTree Datum} :
    WellFormed hash (node d l r) ↔
      d.pry = hash d.key ∧ d.val ≠ 0 ∧
      (∀ k ∈ keys Datum.key l, k < d.key ∧ hash k < hash d.key) ∧
      (∀ k ∈ keys Datum.key r, d.key < k ∧ hash k < hash d.key) ∧
      WellFormed hash l ∧ WellFormed hash r := by
  constructor
  · rintro ⟨⟨hp, hl, hr, hwl, hwr⟩, hpos⟩
    exact ⟨hp, hpos d (by simp), hl, hr, ⟨hwl, fun e he => hpos e (by simp [he])⟩,
      ⟨hwr, fun e he => hpos e (by simp [he])⟩⟩
  · rintro ⟨hp, hv, hl, hr, hwl, hwr⟩
    refine ⟨⟨hp, hl, hr, hwl.treap, hwr.treap⟩, fun e he => ?_⟩
    rcases List.mem_append.mp he with he | he
    · exact hwl.pos e he
    · rcases List.mem_cons.mp he with rfl | he
      · exact hv
      · exact hwr.pos e he

theorem mem_splitWith_val {f : Datum → Datum} (hval : ∀ d, (f d).val = d.val) {k : UInt64}
    {t : BinaryTree Datum} (hpos : ∀ d ∈ t.inorder, d.val ≠ 0) :
    (∀ d ∈ (splitWith f Datum.key k t).1.inorder, d.val ≠ 0) ∧
      (∀ d ∈ (splitWith f Datum.key k t).2.inorder, d.val ≠ 0) := by
  induction t with
  | nil => exact ⟨by simp [splitWith], by simp [splitWith]⟩
  | node x l r ihl ihr =>
      obtain ⟨hal, hbl⟩ := ihl fun d hd => hpos d (by simp [hd])
      obtain ⟨har, hbr⟩ := ihr fun d hd => hpos d (by simp [hd])
      have hx : (f x).val ≠ 0 := by rw [hval]; exact hpos x (by simp)
      rw [splitWith]
      split
      · refine ⟨hal, fun d hd => ?_⟩
        rcases List.mem_append.mp hd with hd | hd
        · exact hbl d hd
        · rcases List.mem_cons.mp hd with rfl | hd
          · exact hx
          · exact hpos d (by simp [hd])
      · refine ⟨fun d hd => ?_, hbr⟩
        rcases List.mem_append.mp hd with hd | hd
        · exact hpos d (by simp [hd])
        · rcases List.mem_cons.mp hd with rfl | hd
          · exact hx
          · exact har d hd

theorem WellFormed.splitWith {f : Datum → Datum} (hkey : ∀ d, (f d).key = d.key)
    (hpry : ∀ d, (f d).pry = d.pry) (hval : ∀ d, (f d).val = d.val) (k : UInt64)
    {t : BinaryTree Datum} (ht : WellFormed hash t) :
    WellFormed hash (splitWith f Datum.key k t).1 ∧
      WellFormed hash (splitWith f Datum.key k t).2 := by
  obtain ⟨ha, hb, -, -⟩ := ht.treap.splitWith (k := k) hkey hpry
  obtain ⟨hva, hvb⟩ := mem_splitWith_val hval (k := k) ht.pos
  exact ⟨⟨ha, hva⟩, ⟨hb, hvb⟩⟩

/-- The copies have the priorities and counters of what they copy. -/
theorem WellFormed.concatTree (hinj : Function.Injective hash) (ver : Nat)
    {s t : BinaryTree Datum} (hs : WellFormed hash s) (ht : WellFormed hash t)
    (hsep : ∀ a ∈ keys Datum.key s, ∀ b ∈ keys Datum.key t, a < b) :
    WellFormed hash (concatTree ver s t) := by
  refine ⟨hs.treap.concatWith hinj (Datum.copyAt_key ver) (Datum.copyAt_pry ver) ht.treap hsep, ?_⟩
  have hs' := hs.pos
  have ht' := ht.pos
  clear hs ht hsep
  unfold Treap.concatTree
  induction s, t using concatWith.induct Datum.pry with
  | case1 t => simpa using ht'
  | case2 x l r => simpa using hs'
  | case3 x l r y l' r' hlt ih =>
      rw [concatWith_node, if_pos hlt]
      have hrec := ih (fun d hd => hs' d (by simp [hd])) ht'
      intro d hd
      rcases List.mem_append.mp hd with hd | hd
      · exact hs' d (by simp [hd])
      · rcases List.mem_cons.mp hd with rfl | hd
        · exact hs' x (by simp)
        · exact hrec d hd
  | case4 x l r y l' r' hlt ih =>
      rw [concatWith_node, if_neg hlt]
      have hrec := ih hs' (fun d hd => ht' d (by simp [hd]))
      intro d hd
      rcases List.mem_append.mp hd with hd | hd
      · exact hrec d hd
      · rcases List.mem_cons.mp hd with rfl | hd
        · exact ht' y (by simp)
        · exact ht' d (by simp [hd])

/-- A node placed above a tree all of whose priorities are lower. -/
theorem WellFormed.deployTree (ver : Nat) (key : UInt64) {t : BinaryTree Datum}
    (ht : WellFormed hash t) (hlow : ∀ k ∈ keys Datum.key t, hash k < hash key) :
    WellFormed hash (deployTree ver (hash key) key t) := by
  obtain ⟨hwa, hwb⟩ := ht.splitWith (Datum.copyAt_key ver) (Datum.copyAt_pry ver)
    (Datum.copyAt_val ver) key
  obtain ⟨ha, hb⟩ := ht.treap.splitWith_lt (Datum.copyAt_key ver) (Datum.copyAt_pry ver) hlow
  exact wellFormed_node.mpr ⟨rfl, one_ne_zero_word, ha, hb, hwa, hwb⟩

/-! ### Keys

Which keys a tree has after an update is needed for the order below the new or the copied
roots.
-/

theorem mem_keys_deployTree {ver : Nat} {pry key k : UInt64} {t : BinaryTree Datum} :
    k ∈ keys Datum.key (deployTree ver pry key t) ↔ k = key ∨ k ∈ keys Datum.key t := by
  rw [deployTree, keys_node, List.mem_append, List.mem_cons,
    mem_keys_of_splitWith (k := key) (Datum.copyAt_key ver) (t := t)]
  grind

theorem mem_keys_insertTree {ver : Nat} {pry key k : UInt64} {t : BinaryTree Datum}
    (hk : k ∈ keys Datum.key (insertTree ver pry key t)) :
    k = key ∨ k ∈ keys Datum.key t := by
  induction t with
  | nil => simpa [insertTree] using hk
  | node d l r ihl ihr =>
      rw [insertTree] at hk
      split at hk
      · split at hk
        · simp only [keys_node, List.mem_append, List.mem_cons, Datum.copyAt_key] at hk ⊢
          grind
        · simp only [keys_node, List.mem_append, List.mem_cons, Datum.copyAt_key] at hk ⊢
          grind
      · split at hk
        · exact Or.inr (by simpa using hk)
        · exact mem_keys_deployTree.mp hk

/-- The new node outranks what is below it, where it is deployed, and is outranked by what
is above. -/
theorem WellFormed.insertTree (hinj : Function.Injective hash) (ver : Nat) (key : UInt64)
    {t : BinaryTree Datum} (ht : WellFormed hash t)
    (hroom : (contents t).card + 1 < 2 ^ 64) :
    WellFormed hash (insertTree ver (hash key) key t) := by
  induction t with
  | nil => exact wellFormed_node.mpr ⟨rfl, one_ne_zero_word, by simp, by simp,
      wellFormed_nil, wellFormed_nil⟩
  | node d l r ihl ihr =>
      have hcard : (contents (node d l r)).card
          = (contents l).card + d.val.toNat + (contents r).card := by simp
      obtain ⟨hp, hv, hl, hr, hwl, hwr⟩ := wellFormed_node.mp ht
      rw [Treap.insertTree]
      split
      · rename_i hlt
        rw [hp] at hlt
        split
        · rename_i hkey
          refine wellFormed_node.mpr ⟨hp, hv, ?_, hr, ihl hwl (by omega), hwr⟩
          intro k hk
          rcases mem_keys_insertTree hk with rfl | hk
          · exact ⟨hkey, hlt⟩
          · exact hl k hk
        · rename_i hkey
          -- Priorities differ, so the keys do.
          have hne : d.key ≠ key := fun heq => by rw [heq] at hlt; exact lt_irrefl _ hlt
          refine wellFormed_node.mpr ⟨hp, hv, hl, ?_, hwl, ihr hwr (by omega)⟩
          intro k hk
          rcases mem_keys_insertTree hk with rfl | hk
          · exact ⟨lt_of_le_of_ne (not_lt.mp hkey) hne, hlt⟩
          · exact hr k hk
      · split
        · refine wellFormed_node.mpr ⟨hp, ?_, hl, hr, hwl, hwr⟩
          intro hzero
          have := toNat_succ (v := d.val) (by omega)
          rw [Datum.recount_val] at hzero
          rw [hzero] at this
          simp at this
        · rename_i hge hne
          refine ht.deployTree ver key fun k hk => (ht.treap.le_root hk).trans_lt ?_
          refine lt_of_le_of_ne (by rw [← hp]; exact not_lt.mp hge) fun heq => hne (hinj heq)

theorem mem_keys_deleteTree {ver : Nat} {pry key k : UInt64} {t : BinaryTree Datum}
    (hk : k ∈ keys Datum.key (deleteTree ver pry key t)) : k ∈ keys Datum.key t := by
  induction t with
  | nil => exact hk
  | node d l r ihl ihr =>
      rw [deleteTree] at hk
      split at hk
      · split at hk
        · simp only [keys_node, List.mem_append, List.mem_cons, Datum.copyAt_key] at hk ⊢
          grind
        · simp only [keys_node, List.mem_append, List.mem_cons, Datum.copyAt_key] at hk ⊢
          grind
      · split at hk
        · split at hk
          · rw [concatTree, keys_concatWith (Datum.copyAt_key ver)] at hk
            simp only [keys_node, List.mem_append, List.mem_cons] at hk ⊢
            grind
          · simpa using hk
        · exact hk

/-- Where the key is found with a counter of one its subtrees are joined, which have no
keys between them. -/
theorem WellFormed.deleteTree (hinj : Function.Injective hash) (ver : Nat) (key : UInt64)
    {t : BinaryTree Datum} (ht : WellFormed hash t) :
    WellFormed hash (deleteTree ver (hash key) key t) := by
  induction t with
  | nil => exact ht
  | node d l r ihl ihr =>
      obtain ⟨hp, hv, hl, hr, hwl, hwr⟩ := wellFormed_node.mp ht
      rw [Treap.deleteTree]
      split
      · split
        · exact wellFormed_node.mpr
            ⟨hp, hv, fun k hk => hl k (mem_keys_deleteTree hk), hr, ihl hwl, hwr⟩
        · exact wellFormed_node.mpr
            ⟨hp, hv, hl, fun k hk => hr k (mem_keys_deleteTree hk), hwl, ihr hwr⟩
      · split
        · split
          · exact hwl.concatTree hinj ver hwr fun a ha b hb => (hl a ha).1.trans (hr b hb).1
          · rename_i hone
            refine wellFormed_node.mpr ⟨hp, fun hzero => hone ?_, hl, hr, hwl, hwr⟩
            exact sub_eq_zero.mp hzero
        · exact ht

/-! ### Deletion on the multiset

A search may stop before it has come to a leaf, at the first node that the key outranks.
That the key is not below follows from the heap order.
-/

/-- A key that outranks the root is not in the tree. -/
theorem WellFormed.notMem_of_root_lt {d : Datum} {l r : BinaryTree Datum} {key : UInt64}
    (ht : WellFormed hash (node d l r)) (hlt : hash d.key < hash key) :
    key ∉ contents (node d l r) := fun hmem =>
  absurd ((ht.treap.le_root (mem_keys_of_mem_contents hmem)).trans_lt hlt) (lt_irrefl _)

/-- If the search stops at a node of lower priority the key is not there, because it would
outrank that node. -/
theorem contents_deleteTree (hinj : Function.Injective hash) (ver : Nat) (key : UInt64)
    {t : BinaryTree Datum} (ht : WellFormed hash t) :
    contents (deleteTree ver (hash key) key t) = (contents t).erase key := by
  induction t with
  | nil => rfl
  | node d l r ihl ihr =>
      obtain ⟨hp, hv, hl, hr, hwl, hwr⟩ := wellFormed_node.mp ht
      have hdmem : key ≠ d.key → key ∉ Multiset.replicate d.val.toNat d.key :=
        fun hne hmem => hne (Multiset.eq_of_mem_replicate hmem)
      rw [deleteTree]
      split
      · rename_i hlt
        rw [hp] at hlt
        have hne : key ≠ d.key := fun heq => by rw [heq] at hlt; exact lt_irrefl _ hlt
        split
        · rename_i hkey
          have hnr : key ∉ contents r := fun hmem =>
            absurd ((hr key (mem_keys_of_mem_contents hmem)).1.trans hkey) (lt_irrefl _)
          rw [contents_node, contents_node, ihl hwl, Multiset.erase_add_left_neg _ hnr,
            Multiset.erase_add_left_neg _ (hdmem hne)]
          rfl
        · rename_i hkey
          have hnl : key ∉ contents l := fun hmem =>
            hkey (hl key (mem_keys_of_mem_contents hmem)).1
          rw [contents_node, contents_node, ihr hwr, Multiset.erase_add_right_neg]
          · rfl
          · simp only [Multiset.mem_add, not_or]
            exact ⟨hnl, hdmem hne⟩
      · rename_i hge
        split
        · rename_i hkey
          subst hkey
          have hnl : d.key ∉ contents l := fun hmem =>
            absurd (hl _ (mem_keys_of_mem_contents hmem)).1 (lt_irrefl _)
          have hnr : d.key ∉ contents r := fun hmem =>
            absurd (hr _ (mem_keys_of_mem_contents hmem)).1 (lt_irrefl _)
          rw [contents_node, Multiset.erase_add_left_neg _ hnr,
            Multiset.erase_add_right_neg _ hnl]
          split
          · rename_i hone
            rw [contents_concatTree, hone]
            simp
          · have hpos : 1 ≤ d.val := by
              rw [UInt64.le_iff_toNat_le, UInt64.toNat_one]
              exact Nat.one_le_iff_ne_zero.mpr fun h => hv (UInt64.toNat_inj.mp h)
            have hval : d.val.toNat = (d.val - 1).toNat + 1 := by
              rw [UInt64.toNat_sub_of_le _ _ hpos, UInt64.toNat_one]
              rw [UInt64.le_iff_toNat_le, UInt64.toNat_one] at hpos
              omega
            rw [contents_node, hval, Multiset.replicate_succ, Multiset.erase_cons_head]
            rfl
        · rename_i hne
          have hlt : hash d.key < hash key :=
            lt_of_le_of_ne (by rw [← hp]; exact not_lt.mp hge) fun heq => hne (hinj heq)
          rw [Multiset.erase_of_notMem (ht.notMem_of_root_lt hlt)]

end Treap
