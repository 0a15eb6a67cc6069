/-
Reading a version of the batched treap.

A node keeps the counter of its key at several versions, the earliest first; at a
version it counts what the last entry up to that version says, and nothing before the
first.  `find` reads the one node that has the key.  `range_estimate` adds up the nodes
in the range, and takes the aggregate for a subtree that lies in the range and has no
entry after the version, which is right where the aggregates are (`WellFormed`).

Sums are taken modulo `2 ^ 64`.
-/
import Mathlib.Data.UInt
import Mathlib.Algebra.BigOperators.Group.Finset.Piecewise
import Contreap.Proofs.Pam.Augment

namespace Pam

open BinaryTree Cartesian PtrHeap
open scoped UInt64.CommRing

variable {s : Store} {p : Ptr} {v w : Nat}

/-! ### The values of a node -/

/-- The entries are in the order of their versions. -/
def ValVers.Sorted (vs : ValVers) : Prop := vs.1.Pairwise fun x y => x.ver ≤ y.ver

namespace ValVers

theorem last_mem (vs : ValVers) : vs.last ∈ vs.1 := List.getLast_mem vs.2

theorem Sorted.ver_le_last {vs : ValVers} (hs : vs.Sorted) : ∀ x ∈ vs.1, x.ver ≤ vs.last.ver := by
  obtain ⟨l, hne⟩ := vs
  obtain ⟨init, e, rfl⟩ : ∃ init e, l = init ++ [e] := ⟨_, _, (List.dropLast_append_getLast hne).symm⟩
  intro x hx
  have hlast : ValVers.last ⟨init ++ [e], hne⟩ = e := List.getLast_append_singleton _
  rw [hlast]
  rcases List.mem_append.mp hx with hx | hx
  · exact (List.pairwise_append.mp hs).2.2 x hx e (List.mem_singleton.mpr rfl)
  · exact (List.mem_singleton.mp hx) ▸ le_rfl

theorem sorted_single (x : ValVer) : (single x).Sorted := List.pairwise_singleton _ x

end ValVers

theorem findValueFrom_eq_last (x : ValVer) (rest : List ValVer) (h : ∀ y ∈ rest, y.ver ≤ v) :
    findValueFrom v x rest = ((x :: rest).getLast (List.cons_ne_nil x rest)).val := by
  induction rest generalizing x with
  | nil => rfl
  | cons y rest ih =>
      rw [findValueFrom, if_neg (not_lt.mpr (h y (by simp))), ih y fun z hz => h z (by simp [hz]),
        List.getLast_cons (List.cons_ne_nil y rest)]

/-- From the last entry on a node counts what that says. -/
theorem findValue_eq_last {vs : ValVers} (h : ∀ x ∈ vs.1, x.ver ≤ v) :
    findValue vs v = vs.last.val := by
  obtain ⟨l, hne⟩ := vs
  cases l with
  | nil => exact absurd rfl hne
  | cons x rest =>
      have hx : ¬ v < x.ver := not_lt.mpr (h x (by simp))
      exact (if_neg hx).trans (findValueFrom_eq_last x rest fun y hy => h y (by simp [hy]))

/-! ### What a tree says at a version

The sum over a range is a sum over nodes, and also a sum over keys each of which is
looked up by itself.  The second form is the one in which two trees can be compared.
-/

/-- What `find` returns, on trees. -/
def findTree (v : Nat) (k : UInt64) (t : Tree) : UInt64 :=
  match find? Datum.key k t with
  | none => 0
  | some d => findValue d.vals v

/-- The sum over the keys that have a property. -/
def sumWhere (P : UInt64 → Prop) [DecidablePred P] (v : Nat) : Tree → UInt64
  | nil => 0
  | node d l r => sumWhere P v l + (if P d.key then findValue d.vals v else 0) + sumWhere P v r

/-- A key between two ends, both included. -/
def InRange (lo hi k : UInt64) : Prop := lo ≤ k ∧ k ≤ hi

/-- It is tested by two comparisons. -/
instance (lo hi : UInt64) : DecidablePred (InRange lo hi) := fun _ => instDecidableAnd

section
variable {P R : UInt64 → Prop} [DecidablePred P] [DecidablePred R]

theorem sumWhere_congr {t : Tree} (h : ∀ k ∈ keys Datum.key t, P k ↔ R k) :
    sumWhere P v t = sumWhere R v t := by
  induction t with
  | nil => rfl
  | node d l r ihl ihr =>
      rw [sumWhere, sumWhere, ihl fun k hk => h k (by simp [hk]), ihr fun k hk => h k (by simp [hk]),
        if_congr (h d.key (by simp)) rfl rfl]

theorem sumWhere_eq_zero {t : Tree} (h : ∀ k ∈ keys Datum.key t, ¬ P k) : sumWhere P v t = 0 := by
  induction t with
  | nil => rfl
  | node d l r ihl ihr =>
      rw [sumWhere, ihl fun k hk => h k (by simp [hk]), ihr fun k hk => h k (by simp [hk]),
        if_neg (h d.key (by simp))]
      rfl

variable {hash : UInt64 → UInt64}

theorem findTree_eq_zero {t : Tree} {k : UInt64} (hk : k ∉ keys Datum.key t) :
    findTree v k t = 0 := by
  rw [findTree, find?_eq_none hk]

/-- A key is in at most one of the two subtrees and the root. -/
theorem findTree_node {d : Datum} {l r : Tree} (ht : IsTreap Datum.key Datum.pry hash (node d l r))
    (k : UInt64) :
    findTree v k (node d l r)
      = findTree v k l + (if k = d.key then findValue d.vals v else 0) + findTree v k r := by
  obtain ⟨-, hl, hr, -, -⟩ := isTreap_node.mp ht
  have hnotl : d.key ≤ k → findTree v k l = 0 := fun hle =>
    findTree_eq_zero fun hk => (hl k hk).1.not_ge hle
  have hnotr : k ≤ d.key → findTree v k r = 0 := fun hle =>
    findTree_eq_zero fun hk => (hr k hk).1.not_ge hle
  rcases lt_trichotomy k d.key with hk | rfl | hk
  · rw [hnotr hk.le, if_neg hk.ne, add_zero, add_zero, findTree, find?_of_lt hk]
    rfl
  · rw [hnotl le_rfl, hnotr le_rfl, if_pos rfl, zero_add, add_zero, findTree, find?_root]
  · rw [hnotl hk.le, if_neg hk.ne', zero_add, zero_add, findTree, find?_of_gt hk]
    rfl

/-- On a search tree the sum can be taken over keys, each looked up by itself. -/
theorem sumWhere_eq_sum {t : Tree} (ht : IsTreap Datum.key Datum.pry hash t) (K : Finset UInt64)
    (hK : ∀ k ∈ keys Datum.key t, k ∈ K) :
    sumWhere P v t = ∑ k ∈ K with P k, findTree v k t := by
  induction t with
  | nil => exact (Finset.sum_eq_zero fun _ _ => rfl).symm
  | node d l r ihl ihr =>
      obtain ⟨-, -, -, htl, htr⟩ := isTreap_node.mp ht
      have hroot : ∑ k ∈ K with P k, (if k = d.key then findValue d.vals v else 0)
          = if P d.key then findValue d.vals v else 0 := by
        rw [Finset.sum_ite_eq' (K.filter P) d.key fun _ => findValue d.vals v]
        refine if_congr ?_ rfl rfl
        rw [Finset.mem_filter]
        exact and_iff_right (hK d.key (by simp))
      rw [sumWhere, ihl htl fun k hk => hK k (by simp [hk]), ihr htr fun k hk => hK k (by simp [hk]),
        Finset.sum_congr rfl fun k _ => findTree_node ht k, Finset.sum_add_distrib,
        Finset.sum_add_distrib, hroot]

end

/-! ### Trees of versions -/

/-- A tree as the operations leave it. -/
structure WellFormed (hash : UInt64 → UInt64) (t : Tree) : Prop where
  treap : IsTreap Datum.key Datum.pry hash t
  sorted : ∀ d ∈ t.inorder, d.vals.Sorted
  augmented : Augmented t

variable {hash : UInt64 → UInt64}

/-- From its latest version on a tree counts its last values. -/
theorem total_eq_sumWhere {t : Tree} (ht : ∀ d ∈ t.inorder, d.vals.Sorted)
    (hv : lastVersion t ≤ v) : sumWhere (fun _ => True) v t = total t := by
  induction t with
  | nil => rfl
  | node d l r ihl ihr =>
      obtain ⟨hd, hl, hr⟩ := forall_mem_inorder_node.mp ht
      rw [lastVersion, max_le_iff, max_le_iff] at hv
      rw [sumWhere, total, ihl hl hv.2.1, ihr hr hv.2.2, if_pos trivial,
        findValue_eq_last fun x hx => (hd.ver_le_last x hx).trans hv.1]

/-! ### `find` and `range_estimate` -/

/-- The fuel lasts, because the tree is no higher than the store is large. -/
theorem find_spec (k : UInt64) :
    ∀ {t : Tree} {fuel : Nat} {p : Ptr}, Shows layout s p t → t.height < fuel →
      find fuel s p v k = some (findTree v k t) := by
  intro t
  induction t with
  | nil =>
      intro fuel p hp hfuel
      obtain ⟨fuel, rfl⟩ := succ_of_lt hfuel
      rw [hp.of_nil]
      rfl
  | node d l r ihl ihr =>
      intro fuel p hp hfuel
      obtain ⟨fuel, rfl⟩ := succ_of_lt hfuel
      obtain ⟨a, n, rfl, -, hn, rfl, hl, hr⟩ := hp.of_node
      simp only [height] at hfuel
      simp only [find, hn, Option.bind_eq_bind, Option.bind_some]
      rcases lt_trichotomy k n.key with hk | rfl | hk
      · rw [if_neg hk.ne, if_pos hk, findTree, find?_of_lt (show k < (layout.shown a n).key from hk)]
        exact ihl (p := n.lch) hl (by omega)
      · rw [if_pos rfl, findTree, show find? Datum.key n.key (node (layout.shown a n) l r)
          = some (layout.shown a n) from find?_root (x := layout.shown a n)]
        rfl
      · rw [if_neg hk.ne', if_neg hk.not_gt, findTree,
          find?_of_gt (show (layout.shown a n).key < k from hk)]
        exact ihr (p := n.rch) hr (by omega)

/-- What a cover promises of the keys of the subtree. -/
def RangeCover.Promises (lo hi : UInt64) (d : RangeCover) (t : Tree) : Prop :=
  match d with
  | .openOpen => True
  | .openClose => ∀ k ∈ keys Datum.key t, k ≤ hi
  | .closeOpen => ∀ k ∈ keys Datum.key t, lo ≤ k
  | .closeClose => ∀ k ∈ keys Datum.key t, lo ≤ k ∧ k ≤ hi

section
variable {lo hi : UInt64} {c : RangeCover} {d : Datum} {l r : Tree}

theorem RangeCover.promises_node (h : c.Promises lo hi (node d l r)) :
    c.Promises lo hi l ∧ c.Promises lo hi r := by
  cases c with
  | openOpen => exact ⟨trivial, trivial⟩
  | openClose => exact ⟨fun k hk => h k (by simp [hk]), fun k hk => h k (by simp [hk])⟩
  | closeOpen => exact ⟨fun k hk => h k (by simp [hk]), fun k hk => h k (by simp [hk])⟩
  | closeClose => exact ⟨fun k hk => h k (by simp [hk]), fun k hk => h k (by simp [hk])⟩

/-- A root above the range: only the left subtree counts. -/
theorem sumWhere_above (hr : ∀ k ∈ keys Datum.key r, d.key ≤ k) (hhi : hi < d.key) :
    sumWhere (InRange lo hi) v (node d l r) = sumWhere (InRange lo hi) v l := by
  rw [sumWhere, sumWhere_eq_zero (t := r) fun k hk hin => ((hhi.trans_le (hr k hk)).trans_le hin.2).false,
    if_neg fun hin => (hhi.trans_le hin.2).false, add_zero, add_zero]

/-- A root below the range: only the right subtree counts. -/
theorem sumWhere_below (hl : ∀ k ∈ keys Datum.key l, k ≤ d.key) (hlo : lo > d.key) :
    sumWhere (InRange lo hi) v (node d l r) = sumWhere (InRange lo hi) v r := by
  rw [sumWhere, sumWhere_eq_zero (t := l) fun k hk hin => (((hl k hk).trans_lt hlo).trans_le hin.1).false,
    if_neg fun hin => (lt_of_lt_of_le hlo hin.1).false, zero_add, zero_add]

theorem sumWhere_inside (hlo : lo ≤ d.key) (hhi : d.key ≤ hi) :
    sumWhere (InRange lo hi) v (node d l r)
      = sumWhere (InRange lo hi) v l + findValue d.vals v + sumWhere (InRange lo hi) v r := by
  rw [sumWhere, if_pos ⟨hlo, hhi⟩]

end

/--
**`range_estimate` returns the sum over the range**, at every version.
-/
theorem rangeEstimate_spec (lo hi : UInt64) :
    ∀ {t : Tree} {fuel : Nat} {p : Ptr} {c : RangeCover}, Shows layout s p t →
      IsSearchTree Datum.key t → (∀ d ∈ t.inorder, d.vals.Sorted) → Augmented t →
      c.Promises lo hi t → t.height < fuel →
      rangeEstimate fuel s p v lo hi c = some (sumWhere (InRange lo hi) v t) := by
  intro t
  induction t with
  | nil =>
      intro fuel p c hp _ _ _ _ hfuel
      obtain ⟨fuel, rfl⟩ := succ_of_lt hfuel
      rw [hp.of_nil]
      rfl
  | node d l r ihl ihr =>
      intro fuel p c hp hsearch hsorted haug hprom hfuel
      obtain ⟨fuel, rfl⟩ := succ_of_lt hfuel
      obtain ⟨a, n, rfl, -, hn, rfl, hl, hr⟩ := hp.of_node
      rw [show layout.shown a n = n.toDatum from rfl] at hsearch hsorted haug hprom ⊢
      obtain ⟨hkl, hkr, hsl, hsr⟩ := hsearch
      obtain ⟨-, hvl, hvr⟩ := forall_mem_inorder_node.mp hsorted
      obtain ⟨hvstat, htotal, hal, har⟩ := id haug
      obtain ⟨hpl, hpr⟩ := RangeCover.promises_node hprom
      simp only [height] at hfuel
      have hleft : ∀ {c : RangeCover}, c.Promises lo hi l →
          rangeEstimate fuel s n.lch v lo hi c = some (sumWhere (InRange lo hi) v l) :=
        fun h => ihl hl hsl hvl hal h (by omega)
      have hright : ∀ {c : RangeCover}, c.Promises lo hi r →
          rangeEstimate fuel s n.rch v lo hi c = some (sumWhere (InRange lo hi) v r) :=
        fun h => ihr hr hsr hvr har h (by omega)
      have hkl' : ∀ k ∈ keys Datum.key l, k ≤ n.key := hkl
      have hkr' : ∀ k ∈ keys Datum.key r, n.key ≤ k := hkr
      simp only [rangeEstimate, hn, Option.bind_eq_bind, Option.bind_some]
      cases c with
      | openOpen =>
          by_cases hhi : hi < n.key
          · simp only [if_pos hhi]
            rw [hleft (c := .openOpen) trivial, sumWhere_above hkr' hhi]
          · by_cases hlo : lo > n.key
            · simp only [if_neg hhi, if_pos hlo]
              rw [hright (c := .openOpen) trivial, sumWhere_below hkl' hlo]
            · simp only [if_neg hhi, if_neg hlo]
              rw [hleft (c := .openClose) fun k hk => (hkl' k hk).trans (not_lt.mp hhi),
                hright (c := .closeOpen) fun k hk => (not_lt.mp hlo).trans (hkr' k hk),
                sumWhere_inside (not_lt.mp hlo) (not_lt.mp hhi)]
              rfl
      | openClose =>
          -- On this side the whole subtree is in the range, by what the cover promises.
          have hhi : n.key ≤ hi := hprom n.key (by simp)
          by_cases hlo : lo > n.key
          · simp only [if_pos hlo]
            rw [hright hpr, sumWhere_below hkl' hlo]
          · simp only [if_neg hlo]
            rw [hleft hpl,
              hright (c := .closeClose) fun k hk => ⟨(not_lt.mp hlo).trans (hkr' k hk), hpr k hk⟩,
              sumWhere_inside (not_lt.mp hlo) hhi]
            rfl
      | closeOpen =>
          have hlo : lo ≤ n.key := hprom n.key (by simp)
          by_cases hhi : hi < n.key
          · simp only [if_pos hhi]
            rw [hleft hpl, sumWhere_above hkr' hhi]
          · simp only [if_neg hhi]
            rw [hleft (c := .closeClose) fun k hk => ⟨hpl k hk, (hkl' k hk).trans (not_lt.mp hhi)⟩,
              hright hpr, sumWhere_inside hlo (not_lt.mp hhi)]
            rfl
      | closeClose =>
          have hin := hprom n.key (by simp)
          rw [show n.vstat = some (lastVersion (node n.toDatum l r)) from hvstat]
          by_cases hver : lastVersion (node n.toDatum l r) ≤ v
          · -- The aggregate is for all keys of the subtree, and all of them are in the range.
            rw [sumWhere_congr (P := InRange lo hi) (R := fun _ => True) fun k hk =>
              iff_true_intro (hprom k hk), total_eq_sumWhere hsorted hver]
            simp only [Option.any_some, decide_eq_true hver, if_true]
            exact congrArg some htotal
          · simp only [Option.any_some, decide_eq_false hver, Bool.false_eq_true, if_false]
            rw [hleft hpl, hright hpr, sumWhere_inside hin.1 hin.2]
            rfl

/-- The functions of the interface on a tree that is shown. -/
theorem interface_find {t : Tree} (hp : Shows layout s p t) (v : Nat) (k : UInt64) :
    Interface.find s p v k = some (findTree v k t) :=
  find_spec k hp (Nat.lt_succ_of_le hp.height_le)

theorem interface_rangeEstimate {t : Tree} (hp : Shows layout s p t) (ht : WellFormed hash t)
    (v : Nat) (lo hi : UInt64) :
    Interface.rangeEstimate s p v lo hi = some (sumWhere (InRange lo hi) v t) :=
  rangeEstimate_spec lo hi hp ht.treap.search ht.sorted ht.augmented trivial
    (Nat.lt_succ_of_le hp.height_le)

end Pam
