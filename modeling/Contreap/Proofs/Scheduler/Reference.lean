/-
The versions a scheduler is to produce.

`versionTree` is the tree of each version when the operations are done one after the
other, on values.  Its versions never grow from parent to child, and `replay`, which
runs the sequential treap on a heap, shows exactly these trees.
-/
import Contreap.Model.Scheduler
import Contreap.Proofs.Treap.Update
import Contreap.Proofs.Treap.Versions

namespace Scheduler

open BinaryTree PtrHeap Treap

/-- One operation on a tree, as version `ver`. -/
def Op.tree (hash : UInt64 → UInt64) (ver : Nat) (t : BinaryTree Datum) : Op → BinaryTree Datum
  | .insertElem elem => insertTree ver (hash elem) elem t
  | .deleteElem elem => deleteTree ver (hash elem) elem t
  | .nop => t

/-- The tree of each version: one operation more than the version before, and no change
after the last one. -/
def versionTree (c : Config) (t₀ : BinaryTree Datum) : Nat → BinaryTree Datum
  | 0 => t₀
  | k + 1 =>
      match c.ops[k]? with
      | some op => op.tree c.hash (k + 1) (versionTree c t₀ k)
      | none => versionTree c t₀ k

variable {c : Config} {t t₀ : BinaryTree Datum} {s : Store} {p : Ptr} {op : Op} {k v : Nat}

theorem versionTree_succ (t₀ : BinaryTree Datum) (hop : c.ops[k]? = some op) :
    versionTree c t₀ (k + 1) = op.tree c.hash (k + 1) (versionTree c t₀ k) := by
  simp only [versionTree, hop]

theorem verBound_op (hash : UInt64 → UInt64) {ver : Nat} (hv : v ≤ ver) (ht : VerBound v t) :
    VerBound ver (op.tree hash ver t) := by
  cases op with
  | insertElem elem => exact ht.insertTree _ _ hv
  | deleteElem elem => exact ht.deleteTree _ _ hv
  | nop => exact ht.mono hv

theorem verBound_versionTree (h₀ : VerBound 0 t₀) : VerBound k (versionTree c t₀ k) := by
  induction k with
  | zero => exact h₀
  | succ k ih =>
      cases hop : c.ops[k]? with
      | none =>
          simp only [versionTree, hop]
          exact ih.mono (Nat.le_succ k)
      | some op =>
          rw [versionTree_succ t₀ hop]
          exact verBound_op c.hash (Nat.le_succ k) ih

/-- An operation adds one node at most. -/
theorem numNodes_versionTree_le (c : Config) (t₀ : BinaryTree Datum) (k : Nat) :
    (versionTree c t₀ k).numNodes ≤ t₀.numNodes + k := by
  induction k with
  | zero => exact Nat.le_refl _
  | succ k ih =>
      cases hop : c.ops[k]? with
      | none =>
          simp only [versionTree, hop]
          omega
      | some op =>
          rw [versionTree_succ t₀ hop]
          cases op with
          | insertElem elem =>
              have := numNodes_insertTree_le (k + 1) (c.hash elem) elem (versionTree c t₀ k)
              simp only [Op.tree]
              omega
          | deleteElem elem =>
              have := numNodes_deleteTree_le (k + 1) (c.hash elem) elem (versionTree c t₀ k)
              simp only [Op.tree]
              omega
          | nop =>
              simp only [Op.tree]
              omega

/-! ### The sequential treap produces them

On a heap, the operations show these trees one after the other.
-/

theorem apply_spec (op : Op) (hash : UInt64 → UInt64) (ver : Nat) (hp : Shows layout s p t) :
    ∃ s' q, op.apply hash s ver p = some (s', q) ∧ Shows layout s' q (op.tree hash ver t) := by
  have hS : ∀ a, s.size ≤ a → a ∈ (Set.univ : Set Addr) := fun a _ => Set.mem_univ a
  have hheight : t.height < recursionBound s := Nat.lt_succ_of_le hp.height_le
  cases op with
  | insertElem elem =>
      obtain ⟨s', q, hrun, -, hq⟩ := searchInsert_spec ver (hash elem) elem hS hp hheight
      exact ⟨s', q, hrun, hq⟩
  | deleteElem elem =>
      obtain ⟨s', q, hrun, -, hq⟩ := searchDelete_spec ver (hash elem) elem hS hp hheight
      exact ⟨s', q, hrun, hq⟩
  | nop => exact ⟨s, p, rfl, hp⟩

/-- There are no versions after the last operation. -/
theorem versionTree_of_le (hk : c.ops.length ≤ k) (n : Nat) :
    versionTree c t₀ (k + n) = versionTree c t₀ k := by
  induction n with
  | zero => rfl
  | succ n ih =>
      rw [← ih, show k + (n + 1) = k + n + 1 from rfl, versionTree,
        List.getElem?_eq_none (by omega)]

/-- The operations from position `k` on, starting from the tree of version `k`. -/
theorem replay_spec (c : Config) (t₀ : BinaryTree Datum) (n : Nat) :
    ∀ {s : Store} {p : Ptr} (k : Nat), Shows layout s p (versionTree c t₀ k) →
    ∃ s' q, replay c.hash s p k ((c.ops.drop k).take n) = some (s', q) ∧
      Shows layout s' q (versionTree c t₀ (k + n)) := by
  induction n with
  | zero =>
      intro s p k hp
      exact ⟨s, p, rfl, hp⟩
  | succ n ih =>
      intro s p k hp
      by_cases hk : k < c.ops.length
      · obtain ⟨s₁, q₁, hrun₁, hq₁⟩ := apply_spec c.ops[k] c.hash (k + 1) hp
        rw [← versionTree_succ t₀ (List.getElem?_eq_getElem hk)] at hq₁
        obtain ⟨s', q, hrun, hq⟩ := ih (k + 1) hq₁
        refine ⟨s', q, ?_, by rwa [show k + (n + 1) = k + 1 + n by omega]⟩
        rw [List.drop_eq_getElem_cons hk, List.take_succ_cons, replay, hrun₁, Option.bind_some]
        exact hrun
      · have hle : c.ops.length ≤ k := Nat.not_lt.mp hk
        refine ⟨s, p, ?_, ?_⟩
        · rw [List.drop_eq_nil_of_le hle, List.take_nil]
          rfl
        · rwa [versionTree_of_le hle]

/-! ### What they store

On multisets the operations are insertion and removal, as long as no counter overflows.
-/

/-- The multiset of elements after one operation. -/
def Op.effect (m : Multiset UInt64) : Op → Multiset UInt64
  | .insertElem elem => elem ::ₘ m
  | .deleteElem elem => m.erase elem
  | .nop => m

/-- The multiset of elements after a sequence of operations. -/
def stored (m : Multiset UInt64) (ops : List Op) : Multiset UInt64 := ops.foldl Op.effect m

theorem op_stored {hash : UInt64 → UInt64} (hinj : Function.Injective hash) (op : Op) (ver : Nat)
    (ht : WellFormed hash t) (hroom : (op.effect (contents t)).card < 2 ^ 64) :
    WellFormed hash (op.tree hash ver t) ∧
      contents (op.tree hash ver t) = op.effect (contents t) := by
  cases op with
  | insertElem elem =>
      rw [Op.effect, Multiset.card_cons] at hroom
      exact ⟨ht.insertTree hinj ver elem hroom, contents_insertTree ver (hash elem) elem hroom⟩
  | deleteElem elem =>
      exact ⟨ht.deleteTree hinj ver elem, contents_deleteTree hinj ver elem ht⟩
  | nop => exact ⟨ht, rfl⟩

/-- A version's tree is a treap of what the operations leave, if no multiset before it
reaches `2 ^ 64` elements. -/
theorem versionTree_stored (hinj : Function.Injective c.hash) (ht : WellFormed c.hash t₀) :
    ∀ k, (∀ i ≤ k, (stored (contents t₀) (c.ops.take i)).card < 2 ^ 64) →
      WellFormed c.hash (versionTree c t₀ k) ∧
        contents (versionTree c t₀ k) = stored (contents t₀) (c.ops.take k) := by
  intro k
  induction k with
  | zero => exact fun _ => ⟨ht, rfl⟩
  | succ k ih =>
      intro hroom
      obtain ⟨hwf, hcont⟩ := ih fun i hi => hroom i (Nat.le_succ_of_le hi)
      cases hop : c.ops[k]? with
      | none =>
          simp only [versionTree, hop, List.take_add_one, Option.toList_none, List.append_nil]
          exact ⟨hwf, hcont⟩
      | some op =>
          have hnext : stored (contents t₀) (c.ops.take (k + 1))
              = op.effect (stored (contents t₀) (c.ops.take k)) := by
            simp [stored, List.take_add_one, hop]
          have hlast := hroom (k + 1) (Nat.le_refl _)
          rw [hnext, ← hcont] at hlast
          rw [versionTree_succ t₀ hop, hnext, ← hcont]
          exact op_stored hinj op (k + 1) hwf hlast

end Scheduler
