/-
Versions do not grow on the way down.

Every copy an update makes lies on the path from the root, and carries the version of
the update; what hangs off the path is older.  So the version of a node bounds the
versions of everything below it, and a subtree whose root is finished is finished
throughout.  Over a sequence of calls with increasing versions it holds of the tree of
each (`rootsAfter_spec`).
-/
import Contreap.Proofs.Treap.Update

namespace Treap

open BinaryTree Cartesian PtrHeap

/-- A call of `search_insert` or `search_delete`. -/
inductive Call
  | insert (ver : Nat) (pry key : UInt64)
  | delete (ver : Nat) (pry key : UInt64)
  deriving DecidableEq, Repr

/-- The version it is for. -/
def Call.ver : Call → Nat
  | .insert ver _ _ => ver
  | .delete ver _ _ => ver

/-- It is made on a root of the store. -/
def Call.run (s : Store) (t : Ptr) : Call → Option (Store × Ptr)
  | .insert ver pry key => searchInsert (recursionBound s) s ver t pry key
  | .delete ver pry key => searchDelete (recursionBound s) s ver t pry key

/-- The roots of the versions the calls make, one after the other. -/
def rootsAfter (s : Store) (t : Ptr) : List Call → Option (Store × List Ptr)
  | [] => some (s, [])
  | c :: cs => do
      let (s, t) ← c.run s t
      let (s, ts) ← rootsAfter s t cs
      some (s, t :: ts)

/-- No version above `v` at the root, and none above its parent's further down. -/
def VerBound : Nat → BinaryTree Datum → Prop
  | _, nil => True
  | v, node d l r => d.ver ≤ v ∧ VerBound d.ver l ∧ VerBound d.ver r

variable {v ver : Nat} {pry key : UInt64} {d : Datum} {s t l r : BinaryTree Datum}

@[simp] theorem verBound_nil : VerBound v nil := trivial

theorem VerBound.mono {w : Nat} (h : VerBound v t) (hvw : v ≤ w) : VerBound w t := by
  cases t with
  | nil => trivial
  | node d l r => exact ⟨h.1.trans hvw, h.2⟩

theorem VerBound.ver_le (h : VerBound v t) : ∀ e ∈ t.inorder, e.ver ≤ v := by
  induction t generalizing v with
  | nil => simp
  | node d l r ihl ihr =>
      obtain ⟨hd, hl, hr⟩ := h
      exact forall_mem_inorder_node.mpr
        ⟨hd, fun e he => (ihl hl e he).trans hd, fun e he => (ihr hr e he).trans hd⟩

/-- A tree of one version. -/
theorem verBound_of_forall (h : ∀ e ∈ t.inorder, e.ver = v) : VerBound v t := by
  induction t with
  | nil => trivial
  | node d l r ihl ihr =>
      obtain ⟨hd, hl, hr⟩ := forall_mem_inorder_node.mp h
      exact ⟨hd.le, hd.symm ▸ ihl hl, hd.symm ▸ ihr hr⟩

/-- A copy stands above what the original stood above. -/
theorem VerBound.copyAt (h : VerBound v (node d l r)) (hv : v ≤ ver) :
    VerBound ver l ∧ VerBound ver r :=
  ⟨h.2.1.mono (h.1.trans hv), h.2.2.mono (h.1.trans hv)⟩

theorem VerBound.splitWith (key : UInt64) (h : VerBound v t) (hv : v ≤ ver) :
    VerBound ver (splitWith (Datum.copyAt ver) Datum.key key t).1 ∧
      VerBound ver (splitWith (Datum.copyAt ver) Datum.key key t).2 := by
  induction t generalizing v with
  | nil => exact ⟨trivial, trivial⟩
  | node d l r ihl ihr =>
      obtain ⟨hl, hr⟩ := h.copyAt hv
      obtain ⟨hd, hl', hr'⟩ := h
      obtain ⟨hal, hbl⟩ := ihl hl' (hd.trans hv)
      obtain ⟨har, hbr⟩ := ihr hr' (hd.trans hv)
      rw [Cartesian.splitWith]
      split
      · exact ⟨hal, Nat.le_refl ver, hbl, hr⟩
      · exact ⟨⟨Nat.le_refl ver, hl, har⟩, hbr⟩

theorem VerBound.concatTree (hs : VerBound v s) (ht : VerBound v t) (hv : v ≤ ver) :
    VerBound ver (concatTree ver s t) := by
  unfold Treap.concatTree
  induction s, t using concatWith.induct Datum.pry generalizing v with
  | case1 t => rw [concatWith_nil_left]; exact ht.mono hv
  | case2 x l r => rw [concatWith_nil_right]; exact hs.mono hv
  | case3 x l r y l' r' hlt ih =>
      rw [concatWith_node, if_pos hlt]
      obtain ⟨hl, -⟩ := hs.copyAt hv
      exact ⟨Nat.le_refl ver, hl, ih (hs.2.2.mono hs.1) ht hv⟩
  | case4 x l r y l' r' hlt ih =>
      rw [concatWith_node, if_neg hlt]
      obtain ⟨-, hr⟩ := ht.copyAt hv
      exact ⟨Nat.le_refl ver, ih hs (ht.2.1.mono ht.1) hv, hr⟩

theorem VerBound.deployTree (pry key : UInt64) (h : VerBound v t) (hv : v ≤ ver) :
    VerBound ver (deployTree ver pry key t) := by
  obtain ⟨ha, hb⟩ := h.splitWith key hv
  exact ⟨Nat.le_refl ver, ha, hb⟩

/-- The nodes on the path have the new version, which is no earlier than any below. -/
theorem VerBound.insertTree (pry key : UInt64) (h : VerBound v t) (hv : v ≤ ver) :
    VerBound ver (insertTree ver pry key t) := by
  induction t generalizing v with
  | nil => exact ⟨Nat.le_refl ver, trivial, trivial⟩
  | node d l r ihl ihr =>
      obtain ⟨hl, hr⟩ := h.copyAt hv
      have hwhole := h
      obtain ⟨hd, hl', hr'⟩ := h
      rw [Treap.insertTree]
      split
      · split
        · exact ⟨Nat.le_refl ver, ihl hl' (hd.trans hv), hr⟩
        · exact ⟨Nat.le_refl ver, hl, ihr hr' (hd.trans hv)⟩
      · split
        · exact ⟨Nat.le_refl ver, hl, hr⟩
        · exact hwhole.deployTree pry key hv

/-- Where the search stops without a copy, what is below is bounded as before. -/
theorem VerBound.deleteTree (pry key : UInt64) (h : VerBound v t) (hv : v ≤ ver) :
    VerBound ver (deleteTree ver pry key t) := by
  induction t generalizing v with
  | nil => exact trivial
  | node d l r ihl ihr =>
      obtain ⟨hl, hr⟩ := h.copyAt hv
      have hwhole := h
      obtain ⟨hd, hl', hr'⟩ := h
      rw [Treap.deleteTree]
      split
      · split
        · exact ⟨Nat.le_refl ver, ihl hl' (hd.trans hv), hr⟩
        · exact ⟨Nat.le_refl ver, hl, ihr hr' (hd.trans hv)⟩
      · split
        · split
          · exact hl'.concatTree hr' (hd.trans hv)
          · exact ⟨Nat.le_refl ver, hl, hr⟩
        · exact hwhole.mono hv

/-! ### Whose nodes an update returns

All its nodes are new or were there before, so whatever holds of its version and of
the versions it found holds of those it returns.
-/

section
variable {Q : Nat → Prop}

theorem forall_ver_splitWith (key : UInt64) (hver : Q ver) (ht : ∀ e ∈ t.inorder, Q e.ver) :
    (∀ e ∈ (Cartesian.splitWith (Datum.copyAt ver) Datum.key key t).1.inorder, Q e.ver) ∧
      ∀ e ∈ (Cartesian.splitWith (Datum.copyAt ver) Datum.key key t).2.inorder, Q e.ver := by
  induction t with
  | nil => exact ⟨by simp [Cartesian.splitWith], by simp [Cartesian.splitWith]⟩
  | node d l r ihl ihr =>
      obtain ⟨-, hl, hr⟩ := forall_mem_inorder_node.mp ht
      obtain ⟨hal, hbl⟩ := ihl hl
      obtain ⟨har, hbr⟩ := ihr hr
      rw [Cartesian.splitWith]
      split
      · exact ⟨hal, forall_mem_inorder_node.mpr ⟨hver, hbl, hr⟩⟩
      · exact ⟨forall_mem_inorder_node.mpr ⟨hver, hl, har⟩, hbr⟩

theorem forall_ver_concatTree (hver : Q ver) (hs : ∀ e ∈ s.inorder, Q e.ver)
    (ht : ∀ e ∈ t.inorder, Q e.ver) : ∀ e ∈ (concatTree ver s t).inorder, Q e.ver := by
  unfold concatTree
  induction s, t using concatWith.induct Datum.pry with
  | case1 t => rw [concatWith_nil_left]; exact ht
  | case2 x l r => rw [concatWith_nil_right]; exact hs
  | case3 x l r y l' r' hlt ih =>
      obtain ⟨-, hl, hr⟩ := forall_mem_inorder_node.mp hs
      rw [concatWith_node, if_pos hlt]
      exact forall_mem_inorder_node.mpr ⟨hver, hl, ih hr ht⟩
  | case4 x l r y l' r' hlt ih =>
      obtain ⟨-, hl', hr'⟩ := forall_mem_inorder_node.mp ht
      rw [concatWith_node, if_neg hlt]
      exact forall_mem_inorder_node.mpr ⟨hver, ih hs hl', hr'⟩

theorem forall_ver_deployTree (pry key : UInt64) (hver : Q ver) (ht : ∀ e ∈ t.inorder, Q e.ver) :
    ∀ e ∈ (deployTree ver pry key t).inorder, Q e.ver := by
  obtain ⟨ha, hb⟩ := forall_ver_splitWith key hver ht
  exact forall_mem_inorder_node.mpr ⟨hver, ha, hb⟩

theorem forall_ver_insertTree (pry key : UInt64) (hver : Q ver) (ht : ∀ e ∈ t.inorder, Q e.ver) :
    ∀ e ∈ (insertTree ver pry key t).inorder, Q e.ver := by
  induction t with
  | nil => exact forall_mem_inorder_node.mpr ⟨hver, by simp, by simp⟩
  | node d l r ihl ihr =>
      obtain ⟨-, hl, hr⟩ := forall_mem_inorder_node.mp ht
      rw [insertTree]
      split
      · split
        · exact forall_mem_inorder_node.mpr ⟨hver, ihl hl, hr⟩
        · exact forall_mem_inorder_node.mpr ⟨hver, hl, ihr hr⟩
      · split
        · exact forall_mem_inorder_node.mpr ⟨hver, hl, hr⟩
        · exact forall_ver_deployTree pry key hver ht

theorem forall_ver_deleteTree (pry key : UInt64) (hver : Q ver) (ht : ∀ e ∈ t.inorder, Q e.ver) :
    ∀ e ∈ (deleteTree ver pry key t).inorder, Q e.ver := by
  induction t with
  | nil => exact ht
  | node d l r ihl ihr =>
      obtain ⟨-, hl, hr⟩ := forall_mem_inorder_node.mp ht
      rw [deleteTree]
      split
      · split
        · exact forall_mem_inorder_node.mpr ⟨hver, ihl hl, hr⟩
        · exact forall_mem_inorder_node.mpr ⟨hver, hl, ihr hr⟩
      · split
        · split
          · exact forall_ver_concatTree hver hl hr
          · exact forall_mem_inorder_node.mpr ⟨hver, hl, hr⟩
        · exact ht

end

/-! ### Calls with increasing versions

The bound is kept when the calls have increasing versions, and then holds of every root.
-/

theorem Call.run_spec (c : Call) {s : Store} {p : Ptr} {t : BinaryTree Datum}
    (hp : Shows layout s p t) (hbound : VerBound v t) (hv : v ≤ c.ver) :
    ∃ s' q t', c.run s p = some (s', q) ∧ Heap.Preserves s s' ∧ Shows layout s' q t' ∧
      VerBound c.ver t' := by
  have hheight : t.height < recursionBound s := Nat.lt_succ_of_le hp.height_le
  have huniv : ∀ a, s.size ≤ a → a ∈ (Set.univ : Set Addr) := fun _ _ => Set.mem_univ _
  cases c with
  | insert ver pry key =>
      obtain ⟨s', q, hrun, hgrow, hq⟩ := searchInsert_spec ver pry key huniv hp hheight
      exact ⟨s', q, _, hrun, hgrow.preserves, hq, hbound.insertTree pry key hv⟩
  | delete ver pry key =>
      obtain ⟨s', q, hrun, hgrow, hq⟩ := searchDelete_spec ver pry key huniv hp hheight
      exact ⟨s', q, _, hrun, hgrow.preserves, hq, hbound.deleteTree pry key hv⟩

/-- **No tree of a version holds a later one, and none grows on the way down.** -/
theorem rootsAfter_spec :
    ∀ {cs : List Call} {s : Store} {p : Ptr} {t : BinaryTree Datum} {v : Nat},
      Shows layout s p t → VerBound v t → (∀ c ∈ cs, v ≤ c.ver) → (cs.map Call.ver).Pairwise (· < ·) →
      ∃ s' qs, rootsAfter s p cs = some (s', qs) ∧ Heap.Preserves s s' ∧
        List.Forall₂ (fun c q => ∃ t', Shows layout s' q t' ∧ VerBound c.ver t') cs qs := by
  intro cs
  induction cs with
  | nil =>
      intro s p t v _ _ _ _
      exact ⟨s, [], rfl, .refl s, .nil⟩
  | cons c cs ih =>
      intro s p t v hp hbound hle hinc
      obtain ⟨s₁, q, t', hrun, hpres, hq, hbound'⟩ := c.run_spec hp hbound (hle c (by simp))
      rw [List.map_cons, List.pairwise_cons] at hinc
      have hlater : ∀ c' ∈ cs, c.ver ≤ c'.ver := fun c' hc' =>
        (hinc.1 c'.ver (List.mem_map_of_mem hc')).le
      obtain ⟨s', qs, hrest, hpres', hall⟩ := ih hq hbound' hlater hinc.2
      refine ⟨s', q :: qs, ?_, hpres.trans hpres', .cons ⟨t', hq.preserved hpres', hbound'⟩ hall⟩
      simp only [rootsAfter, hrun, hrest, Option.bind_eq_bind, Option.bind_some]

end Treap
