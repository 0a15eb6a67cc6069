/-
The updates on a store do to the trees it shows what the updates on trees do.

An update allocates and never writes to a cell that existed, so the tree it is given
is still there afterwards and whatever else the store showed is too.  Each function
has one statement: given a tree, enough fuel and the set of addresses the tree may
use, it returns, the old cells are as they were, and the pointer it returns shows the
updated tree in the same set extended by fresh addresses.

The set is what keeps the argument local.  A node is allocated before its subtree is
computed and linked afterwards; taking its address out of the set for the recursive
call is what says that the call neither reads it nor builds on it.
-/
import Contreap.Proofs.Treap.Tree

namespace Treap

open BinaryTree Cartesian PtrHeap

/-! ### Reading a store

The aggregate is left out of view, so that augmenting changes nothing here.
-/

/-- What a node holds besides its links and its aggregate. -/
def Node.datum (n : Node) : Datum := ⟨n.ver, n.pry, n.key, n.val⟩

/-- What is seen of a node: its datum. -/
def layout : Layout Node Datum := ⟨Node.lch, Node.rch, fun _ n => n.datum⟩

@[simp] theorem layout_lch (n : Node) : layout.lch n = n.lch := rfl
@[simp] theorem layout_rch (n : Node) : layout.rch n = n.rch := rfl
@[simp] theorem layout_shown (a : Addr) (n : Node) : layout.shown a n = n.datum := rfl

@[simp] theorem datum_ver (n : Node) : n.datum.ver = n.ver := rfl
@[simp] theorem datum_pry (n : Node) : n.datum.pry = n.pry := rfl
@[simp] theorem datum_key (n : Node) : n.datum.key = n.key := rfl
@[simp] theorem datum_val (n : Node) : n.datum.val = n.val := rfl

/-- The store only gained cells, and their aggregates have not been computed. -/
structure Grows (s s' : Store) : Prop where
  preserves : Heap.Preserves s s'
  fresh : ∀ a n, s.size ≤ a → s'.get? a = some n → n.aug = augUninitialized

namespace Grows

variable {s s' s'' : Store} {a : Addr}

theorem refl (s : Store) : Grows s s :=
  ⟨.refl s, fun _ _ ha hn => absurd (Heap.lt_size_of_get? hn) (Nat.not_lt.mpr ha)⟩

theorem trans (h : Grows s s') (h' : Grows s' s'') : Grows s s'' := by
  refine ⟨h.preserves.trans h'.preserves, fun a n ha hn => ?_⟩
  by_cases hlt : a < s'.size
  · exact h.fresh a n ha (h'.preserves.same a hlt ▸ hn)
  · exact h'.fresh a n (Nat.not_lt.mp hlt) hn

theorem alloc (s : Store) {n : Node} (hn : n.aug = augUninitialized) : Grows s (s.alloc n).1 := by
  refine ⟨.alloc s n, fun a m ha hm => ?_⟩
  have hlt := Heap.lt_size_of_get? hm
  rw [Heap.size_alloc] at hlt
  obtain rfl : a = s.size := Nat.le_antisymm (Nat.le_of_lt_succ hlt) ha
  rw [Heap.get?_alloc_self] at hm
  rw [← Option.some.inj hm, hn]

/-- Writing to a fresh cell, but for its aggregate. -/
theorem modify (h : Grows s s') (ha : s.size ≤ a) {f : Node → Node}
    (hf : ∀ n, (f n).aug = n.aug) : Grows s (s'.modify a f) := by
  refine ⟨h.preserves.modify ha f, fun b n hb hn => ?_⟩
  by_cases hba : b = a
  · subst hba
    obtain ⟨m, hm⟩ := Heap.get?_of_lt (h := s') (a := b) (by
      have := Heap.lt_size_of_get? hn
      rwa [Heap.size_modify] at this)
    rw [Heap.get?_modify_self hm] at hn
    rw [← Option.some.inj hn, hf, h.fresh b m hb hm]
  · rw [Heap.get?_modify_of_ne hba] at hn
    exact h.fresh b n hb hn

theorem setLch (h : Grows s s') (ha : s.size ≤ a) (p : Ptr) : Grows s (setLch s' a p) :=
  h.modify ha fun _ => rfl

theorem setRch (h : Grows s s') (ha : s.size ≤ a) (p : Ptr) : Grows s (setRch s' a p) :=
  h.modify ha fun _ => rfl

theorem setVal (h : Grows s s') (ha : s.size ≤ a) (v : UInt64) : Grows s (setVal s' a v) :=
  h.modify ha fun _ => rfl

end Grows

/-! ### A node placed above its subtrees

A new node is allocated first and linked later.  In between its cell is in no tree.
-/

variable {s s' : Store} {S : Set Addr} {p : Ptr} {a : Addr} {n : Node} {t l r : BinaryTree Datum}

/-- Everything shown before uses no address that is allocated next. -/
theorem Rep.off_fresh (hp : Rep layout s S p t) : Rep layout s (S \ {s.size}) p t :=
  hp.allocated.mono fun a ha => ⟨ha.1, fun heq => by
    rw [Set.mem_singleton_iff] at heq
    exact Nat.lt_irrefl _ (heq ▸ ha.2)⟩

theorem off_fresh_of_le (hS : ∀ a, s.size ≤ a → a ∈ S) (hsize : s'.size = s.size + 1) :
    ∀ a, s'.size ≤ a → a ∈ S \ {s.size} := by
  intro a ha
  rw [hsize] at ha
  refine ⟨hS a (Nat.le_of_succ_le ha), fun heq => ?_⟩
  rw [Set.mem_singleton_iff] at heq
  exact Nat.not_succ_le_self _ (heq ▸ ha)

theorem get?_setLch (hn : s.get? a = some n) (q : Ptr) :
    (setLch s a q).get? a = some { n with lch := q } := Heap.get?_modify_self hn

theorem get?_setRch (hn : s.get? a = some n) (q : Ptr) :
    (setRch s a q).get? a = some { n with rch := q } := Heap.get?_modify_self hn

theorem get?_setVal (hn : s.get? a = some n) (v : UInt64) :
    (setVal s a v).get? a = some { n with val := v } := Heap.get?_modify_self hn

@[simp] theorem size_setLch (q : Ptr) : (setLch s a q).size = s.size := Heap.size_modify
@[simp] theorem size_setRch (q : Ptr) : (setRch s a q).size = s.size := Heap.size_modify
@[simp] theorem size_setVal (v : UInt64) : (setVal s a v).size = s.size := Heap.size_modify

/-- Linking the left subtree of a node whose right one is in place. -/
theorem Rep.placeLch {q : Ptr} (ha : a ∈ S) (hn : s.get? a = some n)
    (hl : Rep layout s (S \ {a}) q l) (hr : Rep layout s (S \ {a}) n.rch r) :
    Rep layout (setLch s a q) S (some a) (node n.datum l r) := by
  have hoff : a ∉ S \ {a} := fun h => h.2 rfl
  have hl' : Rep layout (setLch s a q) S q l := (hl.write hoff _).mono Set.sdiff_subset
  have hr' : Rep layout (setLch s a q) S n.rch r := (hr.write hoff _).mono Set.sdiff_subset
  exact Rep.node (L := layout) (x := { n with lch := q }) ha (get?_setLch hn q) hl' hr'

/-- Linking the right subtree of a node whose left one is in place. -/
theorem Rep.placeRch {q : Ptr} (ha : a ∈ S) (hn : s.get? a = some n)
    (hl : Rep layout s (S \ {a}) n.lch l) (hr : Rep layout s (S \ {a}) q r) :
    Rep layout (setRch s a q) S (some a) (node n.datum l r) := by
  have hoff : a ∉ S \ {a} := fun h => h.2 rfl
  have hl' : Rep layout (setRch s a q) S n.lch l := (hl.write hoff _).mono Set.sdiff_subset
  have hr' : Rep layout (setRch s a q) S q r := (hr.write hoff _).mono Set.sdiff_subset
  exact Rep.node (L := layout) (x := { n with rch := q }) ha (get?_setRch hn q) hl' hr'

/-- Both links of a node are set one after the other. -/
theorem Rep.placeBoth {ql qr : Ptr} (ha : a ∈ S) (hn : s.get? a = some n)
    (hl : Rep layout s (S \ {a}) ql l) (hr : Rep layout s (S \ {a}) qr r) :
    Rep layout (setRch (setLch s a ql) a qr) S (some a) (node n.datum l r) := by
  have hoff : a ∉ S \ {a} := fun h => h.2 rfl
  exact Rep.placeRch (n := { n with lch := ql }) ha (get?_setLch hn ql) (hl.write hoff _)
    (hr.write hoff _)

/-! ### A copy with one link taken over

Every step of a search begins this way: the node is copied, the link the search does
not follow is taken from the original, and the other one is filled in later.
-/

/-- The store once the copy is made and one of its links is set. -/
def copyWith (s : Store) (n : Node) (ver : Nat) (right : Bool) : Store :=
  if right then setRch (makeWeakCopy s n ver).1 s.size n.rch
  else setLch (makeWeakCopy s n ver).1 s.size n.lch

theorem grows_copyWith (s : Store) (n : Node) (ver : Nat) (right : Bool) :
    Grows s (copyWith s n ver right) := by
  have halloc : Grows s (makeWeakCopy s n ver).1 := .alloc s rfl
  cases right
  · exact halloc.setLch (Nat.le_refl _) _
  · exact halloc.setRch (Nat.le_refl _) _

@[simp] theorem size_copyWith (s : Store) (n : Node) (ver : Nat) (right : Bool) :
    (copyWith s n ver right).size = s.size + 1 := by
  cases right <;> simp [copyWith, makeWeakCopy]

theorem get?_copyWith (s : Store) (n : Node) (ver : Nat) (right : Bool) :
    (copyWith s n ver right).get? s.size = some
      ⟨ver, n.pry, n.key, n.val, augUninitialized,
        if right then none else n.lch, if right then n.rch else none⟩ := by
  cases right
  · exact get?_setLch Heap.get?_alloc_self _
  · exact get?_setRch Heap.get?_alloc_self _

/-- What the recursive call is given: its subtree, off the address of the copy. -/
theorem Rep.into_copyWith (hp : Rep layout s S p t) (n : Node) (ver : Nat) (right : Bool) :
    Rep layout (copyWith s n ver right) (S \ {s.size}) p t :=
  (Rep.off_fresh hp).preserved (grows_copyWith s n ver right).preserves

/-- The copy once the recursive call has returned the subtree for its left link. -/
theorem copyWith_placeLch {ver : Nat} {q : Ptr} (hS : ∀ a, s.size ≤ a → a ∈ S)
    (hgrow : Grows (copyWith s n ver true) s') (hl : Rep layout s' (S \ {s.size}) q l)
    (hr : Rep layout s S n.rch r) :
    Grows s (setLch s' s.size q) ∧
      Rep layout (setLch s' s.size q) S (some s.size) (node (n.datum.copyAt ver) l r) := by
  have hgrows := (grows_copyWith s n ver true).trans hgrow
  refine ⟨hgrows.setLch (Nat.le_refl _) q, ?_⟩
  have hn := hgrow.preserves.get? (get?_copyWith s n ver true)
  exact Rep.placeLch (hS _ (Nat.le_refl _)) hn hl
    ((Rep.off_fresh hr).preserved hgrows.preserves)

/-- The copy once the recursive call has returned the subtree for its right link. -/
theorem copyWith_placeRch {ver : Nat} {q : Ptr} (hS : ∀ a, s.size ≤ a → a ∈ S)
    (hgrow : Grows (copyWith s n ver false) s') (hl : Rep layout s S n.lch l)
    (hr : Rep layout s' (S \ {s.size}) q r) :
    Grows s (setRch s' s.size q) ∧
      Rep layout (setRch s' s.size q) S (some s.size) (node (n.datum.copyAt ver) l r) := by
  have hgrows := (grows_copyWith s n ver false).trans hgrow
  refine ⟨hgrows.setRch (Nat.le_refl _) q, ?_⟩
  have hn := hgrow.preserves.get? (get?_copyWith s n ver false)
  exact Rep.placeRch (hS _ (Nat.le_refl _)) hn
    ((Rep.off_fresh hl).preserved hgrows.preserves) hr

/-! ### `split_copy` and `process_deploy` -/

/-- The copy is allocated before the call below it, whose result is linked afterwards. -/
theorem splitCopy_spec (ver : Nat) (key : UInt64) :
    ∀ {t : BinaryTree Datum} {fuel : Nat} {s : Store} {S : Set Addr} {p : Ptr},
      (∀ a, s.size ≤ a → a ∈ S) → Rep layout s S p t → t.height < fuel →
      ∃ s' tL tR, splitCopy fuel s ver p key = some (s', tL, tR) ∧ Grows s s' ∧
        Rep layout s' S tL (splitWith (Datum.copyAt ver) Datum.key key t).1 ∧
        Rep layout s' S tR (splitWith (Datum.copyAt ver) Datum.key key t).2 := by
  intro t
  induction t with
  | nil =>
      intro fuel s S p _ hp hfuel
      obtain ⟨fuel, rfl⟩ := Nat.exists_eq_succ_of_ne_zero (Nat.ne_of_gt hfuel)
      rw [hp.of_nil]
      exact ⟨s, none, none, rfl, .refl s, .nil, .nil⟩
  | node d l r ihl ihr =>
      intro fuel s S p hS hp hfuel
      obtain ⟨fuel, rfl⟩ := Nat.exists_eq_succ_of_ne_zero (Nat.ne_of_gt (Nat.zero_lt_of_lt hfuel))
      obtain ⟨a, n, rfl, -, hn, rfl, hl, hr⟩ := hp.of_node
      simp only [height] at hfuel
      have hS' : ∀ right a, (copyWith s n ver right).size ≤ a → a ∈ S \ {s.size} :=
        fun right => off_fresh_of_le hS (size_copyWith s n ver right)
      by_cases hkey : key < n.key
      · obtain ⟨s', tL, lch, hrun, hgrow, hL, hR⟩ := ihl (hS' true)
          (Rep.into_copyWith hl n ver true) (show l.height < fuel by omega)
        obtain ⟨hgrows, hrep⟩ := copyWith_placeLch hS hgrow hR hr
        refine ⟨setLch s' s.size lch, tL, some s.size, ?_, hgrows, ?_, ?_⟩
        · simp only [splitCopy, hn, Option.bind_eq_bind, Option.bind_some, if_pos hkey]
          exact Option.bind_eq_some_iff.mpr ⟨_, hrun, rfl⟩
        · rw [splitWith_of_lt (show key < (layout.shown a n).key from hkey)]
          exact (hL.write (fun h => h.2 rfl) _).mono Set.sdiff_subset
        · rw [splitWith_of_lt (show key < (layout.shown a n).key from hkey)]
          exact hrep
      · obtain ⟨s', rch, tR, hrun, hgrow, hL, hR⟩ := ihr (hS' false)
          (Rep.into_copyWith hr n ver false) (show r.height < fuel by omega)
        obtain ⟨hgrows, hrep⟩ := copyWith_placeRch hS hgrow hl hL
        refine ⟨setRch s' s.size rch, some s.size, tR, ?_, hgrows, ?_, ?_⟩
        · simp only [splitCopy, hn, Option.bind_eq_bind, Option.bind_some, if_neg hkey]
          exact Option.bind_eq_some_iff.mpr ⟨_, hrun, rfl⟩
        · rw [splitWith_of_not_lt (show ¬ key < (layout.shown a n).key from hkey)]
          exact hrep
        · rw [splitWith_of_not_lt (show ¬ key < (layout.shown a n).key from hkey)]
          exact (hR.write (fun h => h.2 rfl) _).mono Set.sdiff_subset

theorem processDeploy_spec (ver : Nat) (pry key : UInt64) {fuel : Nat}
    (hS : ∀ a, s.size ≤ a → a ∈ S) (hp : Rep layout s S p t) (hfuel : t.height < fuel) :
    ∃ s' q, processDeploy fuel s ver p pry key = some (s', q) ∧ Grows s s' ∧
      Rep layout s' S q (deployTree ver pry key t) := by
  have halloc : Grows s (makeNode s ver pry key).1 := .alloc s rfl
  obtain ⟨s', lch, rch, hrun, hgrow, hl, hr⟩ := splitCopy_spec ver key
    (off_fresh_of_le hS Heap.size_alloc) ((Rep.off_fresh hp).preserved halloc.preserves) hfuel
  have hnew : s'.get? s.size = some ⟨ver, pry, key, 1, augUninitialized, none, none⟩ :=
    hgrow.preserves.get? Heap.get?_alloc_self
  have hle : s.size ≤ s.size := Nat.le_refl _
  exact ⟨_, some s.size, Option.bind_eq_some_iff.mpr ⟨_, hrun, rfl⟩,
    ((halloc.trans hgrow).setLch hle lch).setRch hle rch, Rep.placeBoth (hS _ hle) hnew hl hr⟩

/-! ### `search_insert` -/

/-- A copy with its counter set and both links taken over. -/
theorem recount_spec (ver : Nat) (v : UInt64) (hS : ∀ a, s.size ≤ a → a ∈ S)
    (hl : Rep layout s S n.lch l) (hr : Rep layout s S n.rch r) :
    let s' := setRch (setLch (setVal (makeWeakCopy s n ver).1 s.size v) s.size n.lch) s.size n.rch
    Grows s s' ∧ Rep layout s' S (some s.size) (node (n.datum.recount ver v) l r) := by
  have hle : s.size ≤ s.size := Nat.le_refl _
  have hgrow : Grows s (setVal (makeWeakCopy s n ver).1 s.size v) :=
    (Grows.alloc s (n := ⟨ver, n.pry, n.key, n.val, augUninitialized, none, none⟩) rfl).setVal hle v
  refine ⟨(hgrow.setLch hle _).setRch hle _, ?_⟩
  exact Rep.placeBoth (hS _ hle) (get?_setVal Heap.get?_alloc_self v)
    ((Rep.off_fresh hl).preserved hgrow.preserves) ((Rep.off_fresh hr).preserved hgrow.preserves)

/-- By induction on the tree, with the copy on the way down and the link on the way up. -/
theorem searchInsert_spec (ver : Nat) (pry key : UInt64) :
    ∀ {t : BinaryTree Datum} {fuel : Nat} {s : Store} {S : Set Addr} {p : Ptr},
      (∀ a, s.size ≤ a → a ∈ S) → Rep layout s S p t → t.height < fuel →
      ∃ s' q, searchInsert fuel s ver p pry key = some (s', q) ∧ Grows s s' ∧
        Rep layout s' S q (insertTree ver pry key t) := by
  intro t
  induction t with
  | nil =>
      intro fuel s S p hS hp hfuel
      obtain ⟨fuel, rfl⟩ := Nat.exists_eq_succ_of_ne_zero (Nat.ne_of_gt hfuel)
      rw [hp.of_nil]
      exact ⟨_, some s.size, rfl, .alloc s rfl,
        .node (L := layout) (hS _ (Nat.le_refl _)) Heap.get?_alloc_self .nil .nil⟩
  | node d l r ihl ihr =>
      intro fuel s S p hS hp hfuel
      obtain ⟨fuel, rfl⟩ := Nat.exists_eq_succ_of_ne_zero (Nat.ne_of_gt (Nat.zero_lt_of_lt hfuel))
      have hdeploy := processDeploy_spec ver pry key hS hp hfuel
      obtain ⟨a, n, rfl, -, hn, rfl, hl, hr⟩ := hp.of_node
      simp only [height] at hfuel
      have hS' : ∀ right a, (copyWith s n ver right).size ≤ a → a ∈ S \ {s.size} :=
        fun right => off_fresh_of_le hS (size_copyWith s n ver right)
      simp only [searchInsert, hn, Option.bind_eq_bind, Option.bind_some]
      by_cases hpry : n.pry > pry
      · simp only [if_pos hpry]
        by_cases hkey : key < n.key
        · simp only [if_pos hkey]
          obtain ⟨s', lch, hrun, hgrow, hq⟩ := ihl (hS' true)
            (Rep.into_copyWith hl n ver true) (show l.height < fuel by omega)
          rw [insertTree_left (d := layout.shown a n) hpry hkey]
          exact ⟨setLch s' s.size lch, some s.size, Option.bind_eq_some_iff.mpr ⟨_, hrun, rfl⟩,
            copyWith_placeLch hS hgrow hq hr⟩
        · simp only [if_neg hkey]
          obtain ⟨s', rch, hrun, hgrow, hq⟩ := ihr (hS' false)
            (Rep.into_copyWith hr n ver false) (show r.height < fuel by omega)
          rw [insertTree_right (d := layout.shown a n) hpry hkey]
          exact ⟨setRch s' s.size rch, some s.size, Option.bind_eq_some_iff.mpr ⟨_, hrun, rfl⟩,
            copyWith_placeRch hS hgrow hl hq⟩
      · simp only [if_neg hpry]
        by_cases hkey : n.key = key
        · simp only [if_pos hkey]
          rw [insertTree_recount (d := layout.shown a n) hpry hkey]
          exact ⟨_, some s.size, rfl, recount_spec ver (n.val + 1) hS hl hr⟩
        · simp only [if_neg hkey]
          rw [insertTree_deploy (d := layout.shown a n) hpry hkey]
          exact hdeploy

/-! ### `process_concat` and `search_delete` -/

/-- Either root may come out on top, and the other tree is left as it is. -/
theorem processConcat_spec (ver : Nat) :
    ∀ {l r : BinaryTree Datum} {fuel : Nat} {s : Store} {S : Set Addr} {p q : Ptr},
      (∀ a, s.size ≤ a → a ∈ S) → Rep layout s S p l → Rep layout s S q r →
      l.height + r.height < fuel →
      ∃ s' p', processConcat fuel s ver p q = some (s', p') ∧ Grows s s' ∧
        Rep layout s' S p' (concatTree ver l r) := by
  intro l r
  unfold concatTree
  induction l, r using concatWith.induct Datum.pry with
  | case1 t =>
      intro fuel s S p q _ hp hq hfuel
      obtain ⟨fuel, rfl⟩ := Nat.exists_eq_succ_of_ne_zero (Nat.ne_of_gt (Nat.zero_lt_of_lt hfuel))
      rw [hp.of_nil, concatWith_nil_left]
      exact ⟨s, q, rfl, .refl s, hq⟩
  | case2 x l r =>
      intro fuel s S p q _ hp hq hfuel
      obtain ⟨fuel, rfl⟩ := Nat.exists_eq_succ_of_ne_zero (Nat.ne_of_gt (Nat.zero_lt_of_lt hfuel))
      obtain ⟨a, n, rfl, -⟩ := hp.of_node
      rw [hq.of_nil, concatWith_nil_right]
      exact ⟨s, some a, rfl, .refl s, hp⟩
  | case3 x l r y l' r' hlt ih =>
      intro fuel s S p q hS hp hq hfuel
      obtain ⟨fuel, rfl⟩ := Nat.exists_eq_succ_of_ne_zero (Nat.ne_of_gt (Nat.zero_lt_of_lt hfuel))
      obtain ⟨a, n, rfl, -, hn, rfl, hl, hr⟩ := hp.of_node
      have hq' := hq
      obtain ⟨b, m, rfl, -, hm, rfl, -, -⟩ := hq'.of_node
      obtain ⟨s', rch, hrun, hgrow, hrep⟩ := ih
        (off_fresh_of_le hS (size_copyWith s n ver false))
        (Rep.into_copyWith hr n ver false) (Rep.into_copyWith hq n ver false)
        (show r.height + (node (layout.shown b m) l' r').height < fuel by
          simp only [height] at hfuel ⊢; omega)
      obtain ⟨hgrows, hplaced⟩ := copyWith_placeRch hS hgrow hl hrep
      rw [concatWith_node, if_pos hlt]
      refine ⟨_, some s.size, ?_, hgrows, hplaced⟩
      simp only [processConcat, hn, hm, Option.bind_eq_bind, Option.bind_some,
        if_pos (show n.pry > m.pry from hlt)]
      exact Option.bind_eq_some_iff.mpr ⟨_, hrun, rfl⟩
  | case4 x l r y l' r' hlt ih =>
      intro fuel s S p q hS hp hq hfuel
      obtain ⟨fuel, rfl⟩ := Nat.exists_eq_succ_of_ne_zero (Nat.ne_of_gt (Nat.zero_lt_of_lt hfuel))
      have hp' := hp
      obtain ⟨a, n, rfl, -, hn, rfl, -, -⟩ := hp'.of_node
      obtain ⟨b, m, rfl, -, hm, rfl, hl, hr⟩ := hq.of_node
      obtain ⟨s', lch, hrun, hgrow, hrep⟩ := ih
        (off_fresh_of_le hS (size_copyWith s m ver true))
        (Rep.into_copyWith hp m ver true) (Rep.into_copyWith hl m ver true)
        (show (node (layout.shown a n) l r).height + l'.height < fuel by
          simp only [height] at hfuel ⊢; omega)
      obtain ⟨hgrows, hplaced⟩ := copyWith_placeLch hS hgrow hrep hr
      rw [concatWith_node, if_neg hlt]
      refine ⟨_, some s.size, ?_, hgrows, hplaced⟩
      simp only [processConcat, hn, hm, Option.bind_eq_bind, Option.bind_some,
        if_neg (show ¬ n.pry > m.pry from hlt)]
      exact Option.bind_eq_some_iff.mpr ⟨_, hrun, rfl⟩

/-- By induction on the tree.  Below the node of the key, it is `process_concat` or a
copy. -/
theorem searchDelete_spec (ver : Nat) (pry key : UInt64) :
    ∀ {t : BinaryTree Datum} {fuel : Nat} {s : Store} {S : Set Addr} {p : Ptr},
      (∀ a, s.size ≤ a → a ∈ S) → Rep layout s S p t → t.height < fuel →
      ∃ s' q, searchDelete fuel s ver p pry key = some (s', q) ∧ Grows s s' ∧
        Rep layout s' S q (deleteTree ver pry key t) := by
  intro t
  induction t with
  | nil =>
      intro fuel s S p _ hp hfuel
      obtain ⟨fuel, rfl⟩ := Nat.exists_eq_succ_of_ne_zero (Nat.ne_of_gt hfuel)
      rw [hp.of_nil]
      exact ⟨s, none, rfl, .refl s, .nil⟩
  | node d l r ihl ihr =>
      intro fuel s S p hS hp hfuel
      obtain ⟨fuel, rfl⟩ := Nat.exists_eq_succ_of_ne_zero (Nat.ne_of_gt (Nat.zero_lt_of_lt hfuel))
      have hkeep := hp
      obtain ⟨a, n, rfl, -, hn, rfl, hl, hr⟩ := hp.of_node
      simp only [height] at hfuel
      have hS' : ∀ right a, (copyWith s n ver right).size ≤ a → a ∈ S \ {s.size} :=
        fun right => off_fresh_of_le hS (size_copyWith s n ver right)
      simp only [searchDelete, hn, Option.bind_eq_bind, Option.bind_some]
      by_cases hpry : n.pry > pry
      · simp only [if_pos hpry]
        by_cases hkey : key < n.key
        · simp only [if_pos hkey]
          obtain ⟨s', lch, hrun, hgrow, hq⟩ := ihl (hS' true)
            (Rep.into_copyWith hl n ver true) (show l.height < fuel by omega)
          rw [deleteTree_left (d := layout.shown a n) hpry hkey]
          exact ⟨setLch s' s.size lch, some s.size, Option.bind_eq_some_iff.mpr ⟨_, hrun, rfl⟩,
            copyWith_placeLch hS hgrow hq hr⟩
        · simp only [if_neg hkey]
          obtain ⟨s', rch, hrun, hgrow, hq⟩ := ihr (hS' false)
            (Rep.into_copyWith hr n ver false) (show r.height < fuel by omega)
          rw [deleteTree_right (d := layout.shown a n) hpry hkey]
          exact ⟨setRch s' s.size rch, some s.size, Option.bind_eq_some_iff.mpr ⟨_, hrun, rfl⟩,
            copyWith_placeRch hS hgrow hl hq⟩
      · simp only [if_neg hpry]
        by_cases hkey : n.key = key
        · simp only [if_pos hkey]
          by_cases hval : n.val = 1
          · simp only [if_pos hval]
            rw [deleteTree_concat (d := layout.shown a n) hpry hkey hval]
            have hlb : l.height ≤ s.size := hl.height_le
            have hrb : r.height ≤ s.size := hr.height_le
            have hroom : l.height + r.height < recursionBound s + recursionBound s := by
              unfold recursionBound
              omega
            exact processConcat_spec ver hS hl hr hroom
          · simp only [if_neg hval]
            rw [deleteTree_recount (d := layout.shown a n) hpry hkey hval]
            exact ⟨_, some s.size, rfl, recount_spec ver (n.val - 1) hS hl hr⟩
        · simp only [if_neg hkey]
          rw [deleteTree_absent (d := layout.shown a n) hpry hkey]
          exact ⟨s, some a, rfl, .refl s, hkeep⟩

end Treap
