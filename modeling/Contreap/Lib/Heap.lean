/-
A heap of linked nodes, and what it means for a pointer to show a tree.

Cells are allocated at fresh addresses and never move; a pointer is an address or
null.  A `Layout` says how a cell is read: where its two links are, and what of it is
shown.  `Rep L h S p t` is then the finite unfolding of the links from `p`: the heap
shows the tree `t` there, in cells whose addresses lie in `S`.  What a cell shows may
depend on its address, so one predicate serves both readings of a heap, by value and
with the addresses in view.

Programs that only allocate are followed by `Preserves`: every cell that existed is
as it was, and a tree shown before is shown after (`Rep.preserved`).  A write outside
`S` does not disturb a tree inside it (`Rep.write`); a write inside one is followed
with the addresses in view (`Rep.frame`).

The links of a tree that is shown never run in a circle, so a recursion that follows
them is bounded by the number of cells (`Rep.height_le`).  The cells it reaches along
them are all the cells the tree takes up (`Rep.reached`).
-/
import Mathlib.Data.Tree.Basic
import Mathlib.Data.Fintype.Card
import Mathlib.Data.Set.Basic
import Contreap.Lib.Cartesian

namespace PtrHeap

open BinaryTree

universe u v w

/-- The place of a cell. -/
abbrev Addr := Nat

/-- A nullable pointer. -/
abbrev Ptr := Option Addr

/-- Cells that are never given back. -/
structure Heap (α : Type u) where
  cells : Array α

namespace Heap

variable {α : Type u}

/-- How many cells there are. -/
def size (h : Heap α) : Nat := h.cells.size

/-- The cell at an address, if there is one. -/
def get? (h : Heap α) (a : Addr) : Option α := h.cells[a]?

/-- Place a new cell at a fresh address. -/
def alloc (h : Heap α) (x : α) : Heap α × Addr := (⟨h.cells.push x⟩, h.cells.size)

/-- Overwrite one cell. -/
def modify (h : Heap α) (a : Addr) (f : α → α) : Heap α := ⟨h.cells.modify a f⟩

variable {h h' : Heap α} {a b : Addr} {x y : α} {f : α → α}

theorem lt_size_of_get? (hx : h.get? a = some x) : a < h.size :=
  (Array.getElem?_eq_some_iff.mp hx).1

theorem get?_of_lt (ha : a < h.size) : ∃ x, h.get? a = some x :=
  ⟨_, Array.getElem?_eq_getElem ha⟩

theorem get?_of_size_le (ha : h.size ≤ a) : h.get? a = none :=
  Array.getElem?_eq_none ha

@[simp] theorem alloc_snd : (h.alloc x).2 = h.size := rfl

@[simp] theorem size_alloc : (h.alloc x).1.size = h.size + 1 := Array.size_push ..

@[simp] theorem get?_alloc_self : (h.alloc x).1.get? h.size = some x :=
  Array.getElem?_push_size

theorem get?_alloc_of_lt (ha : a < h.size) : (h.alloc x).1.get? a = h.get? a := by
  have hne : a ≠ h.cells.size := Nat.ne_of_lt ha
  simp [alloc, get?, Array.getElem?_push, hne]

@[simp] theorem size_modify : (h.modify a f).size = h.size := Array.size_modify ..

theorem get?_modify_self (hx : h.get? a = some x) : (h.modify a f).get? a = some (f x) := by
  simp only [get?] at hx
  simp [modify, get?, Array.getElem?_modify, hx]

theorem get?_modify_of_ne (hne : b ≠ a) : (h.modify a f).get? b = h.get? b := by
  simp [modify, get?, Array.getElem?_modify, hne.symm]

/-! ### Cells that stay as they were

Most functions only allocate.  For these it is enough to say that no cell there was is
any different: every tree shown before is shown afterwards.
-/

/-- Every cell of `h` is the same in `h'`, which may have more. -/
structure Preserves (h h' : Heap α) : Prop where
  size_le : h.size ≤ h'.size
  same : ∀ a < h.size, h'.get? a = h.get? a

theorem Preserves.refl (h : Heap α) : Preserves h h := ⟨le_rfl, fun _ _ => rfl⟩

theorem Preserves.trans {h'' : Heap α} (h₁ : Preserves h h') (h₂ : Preserves h' h'') :
    Preserves h h'' :=
  ⟨h₁.size_le.trans h₂.size_le, fun a ha =>
    (h₂.same a (ha.trans_le h₁.size_le)).trans (h₁.same a ha)⟩

theorem Preserves.alloc (h : Heap α) (x : α) : Preserves h (h.alloc x).1 :=
  ⟨by rw [size_alloc]; exact Nat.le_succ _, fun _ ha => get?_alloc_of_lt ha⟩

/-- Writing to a cell that did not exist is no change to those that did. -/
theorem Preserves.modify (hp : Preserves h h') (ha : h.size ≤ a) (f : α → α) :
    Preserves h (h'.modify a f) :=
  ⟨by rw [size_modify]; exact hp.size_le, fun b hb => by
    rw [get?_modify_of_ne (Nat.ne_of_lt (hb.trans_le ha)), hp.same b hb]⟩

theorem Preserves.get? (hp : Preserves h h') (hx : h.get? a = some x) : h'.get? a = some x := by
  rw [hp.same a (lt_size_of_get? hx), hx]

/-! ### What holds of every cell -/

/-- Every cell has a property. -/
def Every (P : α → Prop) (h : Heap α) : Prop := ∀ a x, h.get? a = some x → P x

theorem Every.alloc {P : α → Prop} (hall : h.Every P) (hx : P x) : (h.alloc x).1.Every P := by
  intro a y hy
  by_cases ha : a = h.size
  · subst ha
    rw [get?_alloc_self] at hy
    exact Option.some.inj hy ▸ hx
  · have hle := lt_size_of_get? hy
    rw [size_alloc] at hle
    rw [get?_alloc_of_lt (lt_of_le_of_ne (Nat.le_of_lt_succ hle) ha)] at hy
    exact hall a y hy

/-- A write that keeps a property of every cell keeps it wherever the write is. -/
theorem Every.modify {P : α → Prop} (hall : h.Every P) (hf : ∀ x, P x → P (f x)) :
    (h.modify b f).Every P := by
  intro a y hy
  by_cases ha : a = b
  · subst ha
    cases hx : h.get? a with
    | none =>
        have hlt := lt_size_of_get? hy
        rw [size_modify] at hlt
        exact absurd hlt (Nat.not_lt.mpr (Array.getElem?_eq_none_iff.mp hx))
    | some x =>
        rw [get?_modify_self hx] at hy
        exact Option.some.inj hy ▸ hf x (hall a x hx)
  · rw [get?_modify_of_ne ha] at hy
    exact hall a y hy

end Heap

/-! ### The tree a pointer shows -/

/-- How a cell is read: its two links, and what it shows at its address. -/
structure Layout (α : Type u) (β : Type v) where
  lch : α → Ptr
  rch : α → Ptr
  shown : Addr → α → β

namespace Layout

variable {α : Type u} {β : Type v} {γ : Type w}

/-- Show less of every cell. -/
def map (L : Layout α β) (g : β → γ) : Layout α γ := ⟨L.lch, L.rch, fun a x => g (L.shown a x)⟩

end Layout

section Rep

variable {α : Type u} {β : Type v} {γ : Type w}

/-- **The tree a pointer shows**, with all its cells in a set of addresses. -/
inductive Rep (L : Layout α β) (h : Heap α) (S : Set Addr) : Ptr → BinaryTree β → Prop
  | nil : Rep L h S none nil
  | node {a : Addr} {x : α} {l r : BinaryTree β} (ha : a ∈ S) (hx : h.get? a = some x)
      (hl : Rep L h S (L.lch x) l) (hr : Rep L h S (L.rch x) r) :
      Rep L h S (some a) (node (L.shown a x) l r)

/-- The tree a pointer shows, wherever its cells are. -/
abbrev Shows (L : Layout α β) (h : Heap α) (p : Ptr) (t : BinaryTree β) : Prop :=
  Rep L h Set.univ p t

variable {L : Layout α β} {h h' : Heap α} {S T : Set Addr} {p : Ptr} {t : BinaryTree β}

theorem Rep.of_none (hp : Rep L h S none t) : t = BinaryTree.nil := by
  cases hp
  rfl

theorem Rep.of_nil (hp : Rep L h S p BinaryTree.nil) : p = none := by
  cases hp
  rfl

theorem Rep.of_some {a : Addr} (hp : Rep L h S (some a) t) :
    ∃ x l r, a ∈ S ∧ h.get? a = some x ∧ t = BinaryTree.node (L.shown a x) l r ∧
      Rep L h S (L.lch x) l ∧ Rep L h S (L.rch x) r := by
  cases hp with
  | node ha hx hl hr => exact ⟨_, _, _, ha, hx, rfl, hl, hr⟩

theorem Rep.of_node {d : β} {l r : BinaryTree β} (hp : Rep L h S p (BinaryTree.node d l r)) :
    ∃ a x, p = some a ∧ a ∈ S ∧ h.get? a = some x ∧ L.shown a x = d ∧
      Rep L h S (L.lch x) l ∧ Rep L h S (L.rch x) r := by
  cases hp with
  | node ha hx hl hr => exact ⟨_, _, rfl, ha, hx, rfl, hl, hr⟩

theorem Rep.mono (hST : S ⊆ T) (hp : Rep L h S p t) : Rep L h T p t := by
  induction hp with
  | nil => exact .nil
  | node ha hx _ _ ihl ihr => exact .node (hST ha) hx ihl ihr

theorem Rep.shows (hp : Rep L h S p t) : Shows L h p t := hp.mono (Set.subset_univ S)

/-- A pointer shows at most one tree. -/
theorem Rep.unique {s : BinaryTree β} (hp : Rep L h S p t) : Rep L h T p s → t = s := by
  induction hp generalizing s with
  | nil => exact fun hq => hq.of_none.symm
  | node _ hx _ _ ihl ihr =>
      intro hq
      obtain ⟨y, l', r', -, hy, rfl, hl', hr'⟩ := hq.of_some
      obtain rfl : _ = y := Option.some.inj (hx.symm.trans hy)
      rw [ihl hl', ihr hr']

/-- A tree whose cells show the same, with the same links, is still shown. -/
theorem Rep.congr (hp : Rep L h S p t)
    (hsame : ∀ a x, a ∈ S → h.get? a = some x → L.shown a x ∈ t.inorder →
      ∃ y, h'.get? a = some y ∧ L.lch y = L.lch x ∧ L.rch y = L.rch x ∧
        L.shown a y = L.shown a x) :
    Rep L h' S p t := by
  induction hp with
  | nil => exact .nil
  | @node a x l r ha hx _ _ ihl ihr =>
      obtain ⟨y, hy, hyl, hyr, hys⟩ := hsame a x ha hx (by simp)
      rw [← hys]
      refine .node ha hy (hyl ▸ ihl ?_) (hyr ▸ ihr ?_)
      · exact fun b z hb hz hmem => hsame b z hb hz (by simp [hmem])
      · exact fun b z hb hz hmem => hsame b z hb hz (by simp [hmem])

/-- A tree lies in any set that holds its cells. -/
theorem Rep.within (hp : Rep L h S p t)
    (hmem : ∀ a x, h.get? a = some x → L.shown a x ∈ t.inorder → a ∈ T) : Rep L h T p t := by
  induction hp with
  | nil => exact .nil
  | node _ hx _ _ ihl ihr =>
      refine .node (hmem _ _ hx (by simp)) hx (ihl ?_) (ihr ?_)
      · exact fun b y hy hin => hmem b y hy (by simp [hin])
      · exact fun b y hy hin => hmem b y hy (by simp [hin])

theorem Rep.preserved (hp : Rep L h S p t) (hpres : Heap.Preserves h h') : Rep L h' S p t :=
  hp.congr fun _ x _ hx _ => ⟨x, hpres.get? hx, rfl, rfl, rfl⟩

/-- A write outside the cells of a tree. -/
theorem Rep.write {a : Addr} (hp : Rep L h S p t) (ha : a ∉ S) (f : α → α) :
    Rep L (h.modify a f) S p t := by
  refine hp.congr fun b x hb hx _ => ⟨x, ?_, rfl, rfl, rfl⟩
  have hne : b ≠ a := fun heq => ha (heq ▸ hb)
  rw [Heap.get?_modify_of_ne hne, hx]

/-- The cells of a tree exist. -/
theorem Rep.allocated (hp : Rep L h S p t) : Rep L h (S ∩ {a | a < h.size}) p t := by
  induction hp with
  | nil => exact .nil
  | node ha hx _ _ ihl ihr => exact .node ⟨ha, Heap.lt_size_of_get? hx⟩ hx ihl ihr

/-- With the addresses in view: a tree none of whose cells is touched is still shown. -/
theorem Rep.frame (addr : β → Addr) (haddr : ∀ a x, addr (L.shown a x) = a)
    (hp : Rep L h S p t) (hsame : ∀ d ∈ t.inorder, h'.get? (addr d) = h.get? (addr d)) :
    Rep L h' S p t :=
  hp.congr fun a x _ hx hmem => ⟨x, by
    have := hsame _ hmem
    rwa [haddr, hx] at this, rfl, rfl, rfl⟩

theorem Rep.map (g : β → γ) (hp : Rep L h S p t) : Rep (L.map g) h S p (t.map g) := by
  induction hp with
  | nil => exact .nil
  | node ha hx _ _ ihl ihr => exact .node (L := L.map g) ha hx ihl ihr

/-- A tree shown with less in view is one shown with more, with less in view. -/
theorem Rep.of_map {g : β → γ} {s : BinaryTree γ} (hp : Rep (L.map g) h S p s) :
    ∃ t, Rep L h S p t ∧ t.map g = s := by
  induction hp with
  | nil => exact ⟨_, .nil, rfl⟩
  | node ha hx _ _ ihl ihr =>
      obtain ⟨l, hl, rfl⟩ := ihl
      obtain ⟨r, hr, rfl⟩ := ihr
      exact ⟨_, .node ha hx hl hr, rfl⟩

/-! ### Links do not run in a circle

A pointer that shows a tree shows a finite one, so that recursion along the links ends.
The number of cells bounds its depth, which is where the fuel of such a recursion comes
from.
-/

theorem Rep.exists_height (hp : Rep L h S p t) :
    ∀ i, 1 ≤ i → i ≤ t.height → ∃ a s, Rep L h S (some a) s ∧ s.height = i := by
  induction hp with
  | nil => intro i h1 h2; simp only [height] at h2; omega
  | @node a x l r ha hx hl hr ihl ihr =>
      intro i h1 h2
      by_cases htop : i = (BinaryTree.node (L.shown a x) l r).height
      · exact ⟨a, _, .node ha hx hl hr, htop.symm⟩
      · simp only [height] at h2 htop
        rcases Nat.le_total l.height r.height with hle | hle
        · exact ihr i h1 (by omega)
        · exact ihl i h1 (by omega)

/--
**A tree that is shown is no higher than the heap is large.**  Trees of different
heights sit at different addresses, because an address shows one tree.
-/
theorem Rep.height_le (hp : Rep L h S p t) : t.height ≤ h.size := by
  have hex : ∀ i : Fin t.height, ∃ a : Fin h.size, ∃ s,
      Rep L h S (some a.val) s ∧ s.height = i.val + 1 := by
    intro i
    obtain ⟨a, s, hs, hheight⟩ := hp.exists_height (i.val + 1) (by omega) (by omega)
    obtain ⟨x, l, r, -, hx, -, -, -⟩ := hs.of_some
    exact ⟨⟨a, Heap.lt_size_of_get? hx⟩, s, hs, hheight⟩
  choose place hplace using hex
  have hinj : Function.Injective place := by
    intro i j hij
    obtain ⟨s, hs, hsi⟩ := hplace i
    obtain ⟨s', hs', hsj⟩ := hplace j
    rw [← hij] at hs'
    have := hs.unique hs'
    subst this
    exact Fin.ext (by omega)
  simpa using Fintype.card_le_of_injective place hinj

/-! ### The cells a pointer reaches -/

/-- Some links lead from the pointer to the cell. -/
inductive Reaches (L : Layout α β) (h : Heap α) : Ptr → Addr → Prop
  | here (a : Addr) : Reaches L h (some a) a
  | left {a b : Addr} {x : α} (hx : h.get? a = some x) (hb : Reaches L h (L.lch x) b) :
      Reaches L h (some a) b
  | right {a b : Addr} {x : α} (hx : h.get? a = some x) (hb : Reaches L h (L.rch x) b) :
      Reaches L h (some a) b

theorem Rep.reached (hp : Rep L h S p t) : Rep L h {a | Reaches L h p a} p t := by
  induction hp with
  | nil => exact .nil
  | node _ hx _ _ ihl ihr =>
      exact .node (.here _) hx (ihl.mono fun _ hb => .left hx hb)
        (ihr.mono fun _ hb => .right hx hb)

/-- What is reached depends on the links only. -/
theorem Reaches.congr {a : Addr} (ha : Reaches L h p a)
    (hsame : ∀ b x, h.get? b = some x →
      ∃ y, h'.get? b = some y ∧ L.lch y = L.lch x ∧ L.rch y = L.rch x) :
    Reaches L h' p a := by
  induction ha with
  | here a => exact .here a
  | left hx _ ih =>
      obtain ⟨y, hy, hl, -⟩ := hsame _ _ hx
      exact .left hy (hl.symm ▸ ih)
  | right hx _ ih =>
      obtain ⟨y, hy, -, hr⟩ := hsame _ _ hx
      exact .right hy (hr.symm ▸ ih)

/-- A walk of `n` links from a pointer down to an address. -/
inductive Walk (L : Layout α β) (h : Heap α) (p : Ptr) : Nat → Addr → Prop
  | here {a : Addr} (hp : p = some a) : Walk L h p 0 a
  | down {n : Nat} {a b : Addr} {x : α} (hw : Walk L h p n a) (hx : h.get? a = some x)
      (hb : L.lch x = some b ∨ L.rch x = some b) : Walk L h p (n + 1) b

/-- Only the cells that are linked matter to a walk, and of these the links. -/
theorem Walk.congr {a : Addr} {n : Nat} (hw : Walk L h p n a)
    (hsame : ∀ b x, h.get? b = some x → (L.lch x ≠ none ∨ L.rch x ≠ none) →
      ∃ y, h'.get? b = some y ∧ L.lch y = L.lch x ∧ L.rch y = L.rch x) :
    Walk L h' p n a := by
  induction hw with
  | here hp => exact .here hp
  | down _ hx hb ih =>
      obtain ⟨y, hy, hl, hr⟩ := hsame _ _ hx (hb.imp (by simp [·]) (by simp [·]))
      exact .down ih hy (by rwa [hl, hr])

end Rep

end PtrHeap
