/-
A query that is interleaved with writers returns what it would return alone.

Of a tree that is summed throughout no thread changes anything any more, so that it is
the same tree in the store at every read.  `Worth` is what a pending part of a sum will
add, read off the tree it stands for, and `Aims` what a reader will return; both come
with a bound on the reads that are left.  A read keeps the aim and lowers the bound
(`Aims.step`), and a write keeps both, as long as it leaves the summed trees of finished
versions alone (`Aims.keep`).  Which versions are finished is a parameter.
-/
import Contreap.Model.Reader
import Contreap.Proofs.Treap.Query

namespace Treap

open BinaryTree Cartesian PtrHeap

variable {F F' : Nat → Prop} {s s' : Store} {p : Ptr} {l r : UInt64} {u : BinaryTree (Datum × UInt64)}
  {todo todo' : List Pending} {v w : UInt64} {n m : Nat} {k k' : Reader} {goal : Option UInt64}

/-- A pointer shows a tree that is summed throughout, of nodes of finished versions. -/
structure ShowsIn (F : Nat → Prop) (s : Store) (p : Ptr) (u : BinaryTree (Datum × UInt64)) :
    Prop where
  shows : Shows audited s p u
  summed : Summed u
  within : ∀ e ∈ u.inorder, F e.1.ver

/-- What is left of the trees of finished versions when other threads write. -/
structure Retains (F : Nat → Prop) (s : Store) (F' : Nat → Prop) (s' : Store) : Prop where
  finished : ∀ v, F v → F' v
  trees : ∀ p u, ShowsIn F s p u → Shows audited s' p u

theorem Retains.refl (F : Nat → Prop) (s : Store) : Retains F s F s :=
  ⟨fun _ h => h, fun _ _ h => h.shows⟩

theorem ShowsIn.keep (h : ShowsIn F s p u) (hs : Retains F s F' s') : ShowsIn F' s' p u :=
  ⟨hs.trees p u h, h.summed, fun e he => hs.finished _ (h.within e he)⟩

/-- The node a pointer shows, and the trees below it. -/
theorem ShowsIn.of_node {x : Datum × UInt64} {ul ur : BinaryTree (Datum × UInt64)}
    (h : ShowsIn F s p (node x ul ur)) :
    ∃ a n, p = some a ∧ s.get? a = some n ∧ x = (n.datum, n.aug) ∧ ShowsIn F s n.lch ul ∧
      ShowsIn F s n.rch ur := by
  obtain ⟨hshow, ⟨-, hsuml, hsumr⟩, hin⟩ := h
  obtain ⟨a, n, rfl, -, hn, rfl, hl, hr⟩ := hshow.of_node
  obtain ⟨-, hinl, hinr⟩ := forall_mem_inorder_node.mp hin
  exact ⟨a, n, rfl, hn, rfl, ⟨hl, hsuml, hinl⟩, ⟨hr, hsumr, hinr⟩⟩

/-! ### What is left to add

The calls that `range_estimate` has still to make, and the counters it adds when they
return, are a list; what they add up to does not depend on when they are made.
-/

/-- What is pending will add `v` in `n` reads at most: a subtree the sum over the range
inside it, as its cover promises, and a counter itself. -/
inductive Worth (F : Nat → Prop) (s : Store) (l r : UInt64) : Pending → UInt64 → Nat → Prop
  | subtree {t : Ptr} {d : RangeCover} {u : BinaryTree (Datum × UInt64)} (hu : ShowsIn F s t u)
      (hsearch : IsSearchTree Datum.key (map Prod.fst u)) (hprom : d.Promises l r (map Prod.fst u)) :
      Worth F s l r (.subtree t d) (sumRange l r (map Prod.fst u)) (3 * u.numNodes + 1)
  | counter {t : Addr} {x : Datum × UInt64} {ul ur : BinaryTree (Datum × UInt64)}
      (hu : ShowsIn F s (some t) (node x ul ur)) : Worth F s l r (.counter t) x.1.val 1

/-- The same for all that is pending. -/
inductive Worths (F : Nat → Prop) (s : Store) (l r : UInt64) : List Pending → UInt64 → Nat → Prop
  | nil : Worths F s l r [] 0 0
  | cons {c : Pending} {todo : List Pending} {v w : UInt64} {n m : Nat} (hc : Worth F s l r c v n)
      (hcs : Worths F s l r todo w m) : Worths F s l r (c :: todo) (v + w) (n + m)

theorem Worth.keep {c : Pending} (h : Worth F s l r c v n) (hs : Retains F s F' s') :
    Worth F' s' l r c v n := by
  cases h with
  | subtree hu hsearch hprom => exact .subtree (hu.keep hs) hsearch hprom
  | counter hu => exact .counter (hu.keep hs)

theorem Worth.pos {c : Pending} (h : Worth F s l r c v n) : 0 < n := by
  cases h with
  | subtree => exact Nat.succ_pos _
  | counter => exact Nat.one_pos

theorem Worths.keep (h : Worths F s l r todo v n) (hs : Retains F s F' s') :
    Worths F' s' l r todo v n := by
  induction h with
  | nil => exact .nil
  | cons hc _ ih => exact .cons (hc.keep hs) ih

theorem Worths.append (h : Worths F s l r todo v n) (h' : Worths F s l r todo' w m) :
    Worths F s l r (todo ++ todo') (v + w) (n + m) := by
  induction h with
  | nil =>
      rw [UInt64.zero_add, Nat.zero_add]
      exact h'
  | cons hc _ ih =>
      rw [UInt64.add_assoc, Nat.add_assoc]
      exact .cons hc ih

theorem Worth.one {c : Pending} (h : Worth F s l r c v n) : Worths F s l r [c] v n := by
  have hone := Worths.cons h .nil
  rwa [UInt64.add_zero] at hone

/-- Both subtrees and the counter between them. -/
theorem Worth.three {c c' c'' : Pending} {v₁ v₂ v₃ : UInt64} {n₁ n₂ n₃ : Nat}
    (h₁ : Worth F s l r c v₁ n₁) (h₂ : Worth F s l r c' v₂ n₂) (h₃ : Worth F s l r c'' v₃ n₃) :
    Worths F s l r [c, c', c''] (v₁ + v₃ + v₂) (n₁ + n₂ + n₃) := by
  have hall := Worths.cons h₁ (.cons h₂ h₃.one)
  rw [UInt64.add_comm v₂ v₃, ← UInt64.add_assoc, ← Nat.add_assoc] at hall
  exact hall

/-- **What a node adds is what the calls at it add.** -/
theorem Worth.split {t : Addr} {d : RangeCover} {x : Node}
    (h : Worth F s l r (.subtree (some t) d) v n) (hx : s.get? t = some x) :
    if d = .closeClose then v = x.aug
    else ∃ m < n, Worths F s l r (splitRange x t l r d) v m := by
  cases h with
  | @subtree _ _ u hu hsearch hprom =>
    cases u with
    | nil => cases hu.shows.of_nil
    | node e ul ur =>
      have hu' := hu
      obtain ⟨a, y, heq, hy, rfl, hl, hr⟩ := hu.of_node
      obtain rfl := Option.some.inj heq
      obtain rfl := Option.some.inj (hx.symm.trans hy)
      obtain ⟨hkl, hkr, htl, htr⟩ := hsearch
      have hkl' : ∀ k ∈ keys Datum.key (map Prod.fst ul), k ≤ x.key := hkl
      have hkr' : ∀ k ∈ keys Datum.key (map Prod.fst ur), x.key ≤ k := hkr
      have hsize : (node (x.datum, x.aug) ul ur).numNodes = ul.numNodes + ur.numNodes + 1 := rfl
      rw [map_node] at hprom ⊢
      rw [hsize]
      have hmid : Worth F s l r (.counter t) x.val 1 := .counter hu'
      -- Only one side of the node is in reach, or the node is in the range.
      have honeL : ∀ {d : RangeCover}, d.Promises l r (map Prod.fst ul) → r < x.key →
          ∃ m < 3 * (ul.numNodes + ur.numNodes + 1) + 1, Worths F s l r [.subtree x.lch d]
            (sumRange l r (node x.datum (map Prod.fst ul) (map Prod.fst ur))) m := by
        intro d hd hhi
        rw [sumRange_above hkr' hhi]
        exact ⟨_, by omega, (Worth.subtree hl htl hd).one⟩
      have honeR : ∀ {d : RangeCover}, d.Promises l r (map Prod.fst ur) → l > x.key →
          ∃ m < 3 * (ul.numNodes + ur.numNodes + 1) + 1, Worths F s l r [.subtree x.rch d]
            (sumRange l r (node x.datum (map Prod.fst ul) (map Prod.fst ur))) m := by
        intro d hd hlo
        rw [sumRange_below hkl' hlo]
        exact ⟨_, by omega, (Worth.subtree hr htr hd).one⟩
      have hboth : ∀ {d d' : RangeCover}, d.Promises l r (map Prod.fst ul) →
          d'.Promises l r (map Prod.fst ur) → l ≤ x.key → x.key ≤ r →
          ∃ m < 3 * (ul.numNodes + ur.numNodes + 1) + 1,
            Worths F s l r [.subtree x.lch d, .subtree x.rch d', .counter t]
              (sumRange l r (node x.datum (map Prod.fst ul) (map Prod.fst ur))) m := by
        intro d d' hd hd' hlo hhi
        rw [sumRange_inside hlo hhi]
        exact ⟨_, by omega, Worth.three (.subtree hl htl hd) (.subtree hr htr hd') hmid⟩
      cases d with
      | openOpen =>
          rw [if_neg (by simp)]
          unfold splitRange
          dsimp only
          by_cases hhi : r < x.key
          · rw [if_pos hhi]
            exact honeL (d := .openOpen) trivial hhi
          · by_cases hlo : l > x.key
            · rw [if_neg hhi, if_pos hlo]
              exact honeR (d := .openOpen) trivial hlo
            · rw [if_neg hhi, if_neg hlo]
              have hhi := not_lt.mp hhi
              have hlo := not_lt.mp hlo
              have hbelow : RangeCover.openClose.Promises l r (map Prod.fst ul) := fun k hk =>
                (hkl' k hk).trans hhi
              have habove : RangeCover.closeOpen.Promises l r (map Prod.fst ur) := fun k hk =>
                hlo.trans (hkr' k hk)
              exact hboth hbelow habove hlo hhi
      | openClose =>
          rw [if_neg (by simp)]
          unfold splitRange
          dsimp only
          have hhi : x.key ≤ r := hprom x.key (by simp)
          by_cases hlo : l > x.key
          · rw [if_pos hlo]
            exact honeR (RangeCover.promises_right hprom) hlo
          · rw [if_neg hlo]
            have hlo := not_lt.mp hlo
            have hin : RangeCover.closeClose.Promises l r (map Prod.fst ur) := fun k hk =>
              ⟨hlo.trans (hkr' k hk), RangeCover.promises_right hprom k hk⟩
            exact hboth (RangeCover.promises_left hprom) hin hlo hhi
      | closeOpen =>
          rw [if_neg (by simp)]
          unfold splitRange
          dsimp only
          have hlo : l ≤ x.key := hprom x.key (by simp)
          by_cases hhi : r < x.key
          · rw [if_pos hhi]
            exact honeL (RangeCover.promises_left hprom) hhi
          · rw [if_neg hhi]
            have hhi := not_lt.mp hhi
            have hin : RangeCover.closeClose.Promises l r (map Prod.fst ul) := fun k hk =>
              ⟨RangeCover.promises_left hprom k hk, (hkl' k hk).trans hhi⟩
            exact hboth hin (RangeCover.promises_right hprom) hlo hhi
      | closeClose =>
          rw [if_pos rfl, sumRange_eq_sumVal hprom]
          exact hu'.summed.1.symm

/-! ### What a reader returns -/

/-- The reader returns `goal`, or faults if there is none, with `n` reads at most. -/
def Aims (F : Nat → Prop) (s : Store) (goal : Option UInt64) (n : Nat) : Reader → Prop
  | .find t key => ∃ u, ShowsIn F s t u ∧ u.height < n ∧
      (find? Datum.key key (map Prod.fst u)).map Datum.val = goal
  | .estimate l r todo ret => ∃ v m, Worths F s l r todo v m ∧ m < n ∧ goal = some (ret + v)
  | .done ret => goal = some ret
  | .fault => goal = none

theorem Aims.keep (h : Aims F s goal n k) (hs : Retains F s F' s') : Aims F' s' goal n k := by
  cases k with
  | find t key =>
      obtain ⟨u, hu, hrest⟩ := h
      exact ⟨u, hu.keep hs, hrest⟩
  | estimate l r todo ret =>
      obtain ⟨v, m, hv, hrest⟩ := h
      exact ⟨v, m, hv.keep hs, hrest⟩
  | done ret => exact h
  | fault => exact h

/-- **A read keeps the aim, and there is one less to come.** -/
theorem Aims.step (h : Aims F s goal n k) :
    (∃ k' m, k.step s = some k' ∧ m < n ∧ Aims F s goal m k') ∨
      (∃ x, k = .done x ∧ goal = some x) ∨ k = .fault ∧ goal = none := by
  cases k with
  | find t key =>
      obtain ⟨u, hu, hlt, hgoal⟩ := h
      refine Or.inl ?_
      cases u with
      | nil =>
          obtain rfl : t = none := hu.shows.of_nil
          exact ⟨_, 0, rfl, by omega, hgoal.symm⟩
      | node e ul ur =>
          obtain ⟨a, x, rfl, hx, rfl, hl, hr⟩ := hu.of_node
          simp only [height] at hlt
          rw [map_node] at hgoal
          simp only [Reader.step, hx, Option.bind_eq_bind, Option.bind_some]
          rcases lt_trichotomy key x.key with hk | rfl | hk
          · rw [find?_of_lt (show key < x.datum.key from hk)] at hgoal
            rw [if_neg hk.ne, if_pos hk]
            exact ⟨_, n - 1, rfl, by omega, ul, hl, by omega, hgoal⟩
          · rw [if_pos rfl]
            refine ⟨_, 0, rfl, by omega, hgoal.symm.trans ?_⟩
            rw [show x.key = x.datum.key from rfl, find?_root]
            rfl
          · rw [find?_of_gt (show x.datum.key < key from hk)] at hgoal
            rw [if_neg hk.ne', if_neg hk.not_gt]
            exact ⟨_, n - 1, rfl, by omega, ur, hr, by omega, hgoal⟩
  | estimate l r todo ret =>
      obtain ⟨v, m, hv, hlt, hgoal⟩ := h
      refine Or.inl ?_
      cases hv with
      | nil =>
          rw [UInt64.add_zero] at hgoal
          exact ⟨_, 0, rfl, by omega, hgoal⟩
      | @cons c todo v w n₁ m₁ hc hcs =>
          have hgoal' : goal = some (ret + v + w) := by rw [hgoal, UInt64.add_assoc]
          cases c with
          | counter t =>
              cases hc with
              | counter hu =>
                obtain ⟨a, x, heq, hx, rfl, -, -⟩ := hu.of_node
                obtain rfl := Option.some.inj heq
                simp only [Reader.step, hx, Option.bind_eq_bind, Option.bind_some]
                exact ⟨_, n - 1, rfl, by omega, w, m₁, hcs, by omega, hgoal'⟩
          | subtree t d =>
              cases t with
              | none =>
                  cases hc with
                  | subtree hu _ _ =>
                    obtain rfl := hu.shows.of_none
                    refine ⟨_, n - 1, rfl, by omega, w, m₁, hcs, by simp only [numNodes] at hlt; omega, ?_⟩
                    rw [hgoal, map_nil]
                    simp [sumRange]
              | some t =>
                  -- The node is read.  Its aggregate is taken if the subtree is covered, and
                  -- otherwise what is to be done for it is put in its place.
                  obtain ⟨x, hx⟩ : ∃ x, s.get? t = some x := by
                    cases hc with
                    | subtree hu _ _ =>
                      obtain ⟨x, _, _, -, hx, -⟩ := hu.shows.of_some
                      exact ⟨x, hx⟩
                  have hsplit := hc.split hx
                  simp only [Reader.step, hx, Option.bind_eq_bind, Option.bind_some]
                  by_cases hd : d = .closeClose
                  · subst hd
                    rw [if_pos rfl] at hsplit ⊢
                    subst hsplit
                    have := hc.pos
                    exact ⟨_, n - 1, rfl, by omega, w, m₁, hcs, by omega, hgoal'⟩
                  · rw [if_neg hd] at hsplit ⊢
                    obtain ⟨m₂, hm₂, hsplit⟩ := hsplit
                    exact ⟨_, n - 1, rfl, by omega, v + w, m₂ + m₁, hsplit.append hcs, by omega, hgoal⟩
  | done ret => exact Or.inr (Or.inl ⟨ret, rfl, h⟩)
  | fault => exact Or.inr (Or.inr ⟨rfl, h⟩)

/-- What a query is to return: the sum over the range, or the counter of a key. -/
def target (t : BinaryTree Datum) (l r : UInt64) : Option UInt64 :=
  if l = r then (find? Datum.key l t).map Datum.val else some (sumRange l r t)

theorem aims_query (hu : ShowsIn F s p u) (hsearch : IsSearchTree Datum.key (map Prod.fst u))
    (l r : UInt64) :
    Aims F s (target (map Prod.fst u) l r) (3 * u.numNodes + 2) (Reader.query p l r) := by
  unfold Reader.query target
  by_cases hlr : l = r
  · rw [if_pos hlr, if_pos hlr]
    have := height_le_numNodes u
    exact ⟨u, hu, by omega, rfl⟩
  · rw [if_neg hlr, if_neg hlr]
    refine ⟨_, _, (Worth.subtree (d := .openOpen) hu hsearch trivial).one, Nat.lt_succ_self _, ?_⟩
    rw [UInt64.zero_add]

end Treap
