/-
Augmenting the tree of a new version.

`augment_parallel` descends into the nodes that have no `vstat` yet and stops at the
others.  These are the subtrees the new version shares with earlier ones, and nothing in
them is written.  When it returns every node has a `vstat` (`stamped_augTree`); and if the
aggregates of the shared subtrees were what they should be, all of them are
(`augmented_augTree`).
-/
import Contreap.Proofs.Pam.Update

namespace Pam

open BinaryTree Cartesian PtrHeap

/-! ### The tree that is left -/

/-- The version of the aggregate at the root, `0` where there is none. -/
def rootVstat : Tree → Nat
  | nil => 0
  | node d _ _ => d.vstat.getD 0

/-- The aggregate at the root, `0` for the empty tree. -/
def rootAug : Tree → UInt64
  | nil => 0
  | node d _ _ => d.aug

/-- The aggregates of a node, from those of its children. -/
def Datum.augment (d : Datum) (l r : Tree) : Datum :=
  { d with
    aug := rootAug l + d.vals.last.val + rootAug r
    vstat := some (max d.vals.last.ver (max (rootVstat l) (rootVstat r))) }

/-- Every node that has no aggregate gets one, from below. -/
def augTree : Tree → Tree
  | nil => nil
  | node d l r =>
      match d.vstat with
      | some _ => node d l r
      | none => node (d.augment (augTree l) (augTree r)) (augTree l) (augTree r)

theorem augTree_of_some {d : Datum} {l r : Tree} (hd : d.vstat ≠ none) :
    augTree (node d l r) = node d l r := by
  cases hv : d.vstat with
  | none => exact absurd hv hd
  | some v => rw [augTree, hv]

theorem augTree_of_none {d : Datum} {l r : Tree} (hd : d.vstat = none) :
    augTree (node d l r) = node (d.augment (augTree l) (augTree r)) (augTree l) (augTree r) := by
  rw [augTree, hd]

/-- A tree all of whose nodes have been augmented. -/
def Stamped (t : Tree) : Prop := ∀ d ∈ t.inorder, d.vstat ≠ none

theorem stamped_nil : Stamped nil := fun _ hd => by cases hd

theorem stamped_node {d : Datum} {l r : Tree} :
    Stamped (node d l r) ↔ d.vstat ≠ none ∧ Stamped l ∧ Stamped r := forall_mem_inorder_node

/-! ### `augment_parallel` -/

section
variable {D : Division Datum} (hD : ∀ d, D.raw d ↔ d.vstat = none) {s : Store} {p : Ptr}
  {S : Set Addr} {t : Tree}

/-- The assertion holds: a child that has just been augmented has a `vstat`. -/
theorem subtreeVstat_eq (hp : Rep layout s S p (augTree t)) :
    subtreeVstat s p = some (rootVstat (augTree t)) := by
  cases t with
  | nil =>
      rw [show p = none from hp.of_nil]
      rfl
  | node d l r =>
      have hroot : ∃ e l' r', augTree (node d l r) = node e l' r' ∧ e.vstat ≠ none := by
        by_cases hd : d.vstat = none
        · exact ⟨_, _, _, augTree_of_none hd, Option.some_ne_none _⟩
        · exact ⟨_, _, _, augTree_of_some hd, hd⟩
      obtain ⟨e, l', r', heq, he⟩ := hroot
      rw [heq] at hp ⊢
      obtain ⟨a, n, rfl, -, hn, rfl, -⟩ := hp.of_node
      obtain ⟨v, hv⟩ := Option.ne_none_iff_exists'.mp he
      simp only [subtreeVstat, hn, Option.bind_some, rootVstat, hv, Option.getD_some]
      exact hv

include hD

/-- Nodes of the shared part are not written, since the recursion stops at them. -/
theorem augment_spec :
    ∀ {t : Tree} {fuel : Nat} {s : Store} {p : Ptr} {W : Set Addr},
      Owns linked D s W p t → t.height < fuel →
      ∃ s', augmentParallel fuel s p = some (s', rootAug (augTree t)) ∧ Changes W s s' ∧
        s'.size = s.size ∧ Rep layout s' (W ∪ {a | a < D.base}) p (augTree t) := by
  intro t
  induction t with
  | nil =>
      intro fuel s p W hp hfuel
      obtain ⟨fuel, rfl⟩ := succ_of_lt hfuel
      rw [hp.of_nil]
      exact ⟨s, rfl, .refl W s, rfl, .nil⟩
  | node d l r ihl ihr =>
      intro fuel s p W hp hfuel
      obtain ⟨fuel, rfl⟩ := succ_of_lt hfuel
      have hrep := hp.rep
      have hp' := hp
      obtain ⟨a, n, A, B, rfl, hn, rfl, hl, hr, hAB, hA, hB, -, haA, haB, haW⟩ := hp'.of_node
      cases hv : n.vstat with
      | some v =>
          rw [augTree_of_some (show (linked.shown a n).vstat ≠ none by
            rw [show (linked.shown a n).vstat = some v from hv]; exact Option.some_ne_none v)]
          refine ⟨s, ?_, .refl W s, rfl, hrep⟩
          simp only [augmentParallel, hn, Option.bind_eq_bind, Option.bind_some, hv]
          rfl
      | none =>
          have haW := haW ((hD _).mpr hv)
          have ha := (hp.lt a haW).1
          simp only [height] at hfuel
          obtain ⟨s₁, hrun₁, hch₁, hsize₁, hrep₁⟩ :=
            ihl (p := n.lch) hl (show l.height < fuel by omega)
          have hr₁ := hr.keep (hch₁.keeps (fun b hb => (hl.lt b hb).1) hAB)
          obtain ⟨s₂, hrun₂, hch₂, hsize₂, hrep₂⟩ :=
            ihr (p := n.rch) hr₁ (show r.height < fuel by omega)
          have hkeep : Keeps D A s₁ s₂ := hch₂.keeps (fun b hb => (hr.lt b hb).1) hAB.symm
          have hrep₁' := hkeep.rep (L := linked) hrep₁
          have hn₂ : s₂.get? a = some n := hch₂.get? haB (hch₁.get? haA hn)
          rw [augTree_of_none (show (linked.shown a n).vstat = none from hv)]
          have hl₃ := fun f => ((Keeps.refl (D := D) A s₂).modify ha haA f).rep (L := linked) hrep₁'
          have hr₃ := fun f => ((Keeps.refl (D := D) B s₂).modify ha haB f).rep (L := linked) hrep₂
          refine ⟨setAug s₂ a (n.toDatum.augment (augTree l) (augTree r)).aug
            (max n.vals.last.ver (max (rootVstat (augTree l)) (rootVstat (augTree r)))),
            ?_, ?_, ?_, ?_⟩
          · simp only [augmentParallel, hn, Option.bind_eq_bind, Option.bind_some, hv, hrun₁, hrun₂,
              subtreeVstat_eq hrep₁', subtreeVstat_eq hrep₂]
            rfl
          · exact (((hch₁.mono hA).trans hch₂ fun _ h => Or.inl (hB h)).modify (Or.inl haW) _)
          · rw [setAug, Heap.size_modify, hsize₂, hsize₁]
          · refine Rep.node (L := layout)
              (x := { n with
                aug := (n.toDatum.augment (augTree l) (augTree r)).aug
                vstat := (n.toDatum.augment (augTree l) (augTree r)).vstat })
              (Or.inl haW) (Heap.get?_modify_self hn₂) ((hl₃ _).mono ?_) ((hr₃ _).mono ?_)
            · exact Set.union_subset_union_left _ hA
            · exact Set.union_subset_union_left _ hB

end

/-! ### Aggregates -/

/-- The latest of the last versions. -/
def lastVersion : Tree → Nat
  | nil => 0
  | node d l r => max d.vals.last.ver (max (lastVersion l) (lastVersion r))

/-- The sum of the last values. -/
def total : Tree → UInt64
  | nil => 0
  | node d l r => total l + d.vals.last.val + total r

/-- Every aggregate is what it should be. -/
def Augmented : Tree → Prop
  | nil => True
  | node d l r => d.vstat = some (lastVersion (node d l r)) ∧ d.aug = total (node d l r) ∧
      Augmented l ∧ Augmented r

theorem Augmented.root {t : Tree} (ht : Augmented t) :
    rootVstat t = lastVersion t ∧ rootAug t = total t := by
  cases t with
  | nil => exact ⟨rfl, rfl⟩
  | node d l r =>
      obtain ⟨hv, ha, -, -⟩ := ht
      exact ⟨by rw [rootVstat, hv]; rfl, ha⟩

/-! ### What is shared is kept -/

/-- The cells below `base` are shared, in trees that have been augmented. -/
def stampedBelow (base : Addr) : Division Datum where
  base := base
  raw d := d.vstat = none
  kept := Stamped
  left _ _ _ h := (stamped_node.mp h).2.1
  right _ _ _ h := (stamped_node.mp h).2.2
  not_raw _ _ _ h := (stamped_node.mp h).1

/-- The cells below `base` are shared, in trees whose aggregates are in order. -/
def augmentedBelow (base : Addr) : Division Datum where
  base := base
  raw d := d.vstat = none
  kept := Augmented
  left _ _ _ h := h.2.2.1
  right _ _ _ h := h.2.2.2
  not_raw _ _ _ h hraw := by
    rw [h.1] at hraw
    cases hraw

theorem stamped_augTree {base : Addr} {t : Tree} (ht : (stampedBelow base).Capped t) :
    Stamped (augTree t) := by
  induction ht with
  | nil => exact stamped_nil
  | @kept t ht =>
      cases t with
      | nil => exact stamped_nil
      | node d l r =>
          rw [augTree_of_some (stamped_node.mp ht).1]
          exact ht
  | raw hx _ _ ihl ihr =>
      rw [augTree_of_none hx]
      exact stamped_node.mpr ⟨Option.some_ne_none _, ihl, ihr⟩

/-- Each new node is computed from children that are in order. -/
theorem augmented_augTree {base : Addr} {t : Tree} (ht : (augmentedBelow base).Capped t) :
    Augmented (augTree t) := by
  induction ht with
  | nil => trivial
  | @kept t ht =>
      cases t with
      | nil => trivial
      | node d l r =>
          rw [augTree_of_some (by rw [ht.1]; exact Option.some_ne_none _)]
          exact ht
  | raw hx _ _ ihl ihr =>
      obtain ⟨hvl, hal⟩ := ihl.root
      obtain ⟨hvr, har⟩ := ihr.root
      rw [augTree_of_none hx]
      refine ⟨?_, ?_, ihl, ihr⟩
      · rw [Datum.augment, hvl, hvr]
        rfl
      · rw [Datum.augment, hal, har]
        rfl

/-- Augmenting changes nothing but aggregates. -/
theorem augTree_map {β : Type*} (G : Datum → β)
    (hG : ∀ d v a, G { d with vstat := v, aug := a } = G d) (t : Tree) :
    (augTree t).map G = t.map G := by
  induction t with
  | nil => rfl
  | node d l r ihl ihr =>
      by_cases hd : d.vstat = none
      · rw [augTree_of_none hd, map_node, map_node, ihl, ihr]
        exact congrArg (fun g => node g _ _) (hG d _ _)
      · rw [augTree_of_some hd]

end Pam
