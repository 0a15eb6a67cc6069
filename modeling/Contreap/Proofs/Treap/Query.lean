/-
Aggregates, and the range query that reads them.

Trees share nodes, and `augment` writes into nodes that other trees contain.  What
makes this safe is that a node belongs to one subtree, so there is one value its
aggregate can have.  `Audited` says it of a store: a node whose aggregate has been
computed is the root of a tree all of whose aggregates are the sums they should be.
A store keeps this when it gains nodes (`Audited.grows`) and when it is augmented
(`augment_spec`), and what was summed before stays as it was (`Audits`).

`range_estimate` descends while an end of the range cuts the subtree and reads the
aggregate once neither does, which is why it is right on a sorted tree that is summed
throughout (`rangeEstimate_spec`).  All sums are taken modulo `2 ^ 64`; they are exact
as long as the tree stores fewer elements than that.
-/
import Contreap.Proofs.Treap.Update
import Contreap.Lib.Lookup

namespace Treap

open BinaryTree Cartesian PtrHeap

/-! ### Sums over a tree

Words are added modulo `2 ^ 64`, in any order.  Without overflow the sum over a range is
the number of elements in it.
-/

/-- The sum of the counters, modulo `2 ^ 64`. -/
def sumVal : BinaryTree Datum → UInt64
  | nil => 0
  | node d l r => sumVal l + d.val + sumVal r

/-- The sum over the keys from `lo` to `hi`. -/
def sumRange (lo hi : UInt64) : BinaryTree Datum → UInt64
  | nil => 0
  | node d l r =>
      sumRange lo hi l + (if lo ≤ d.key ∧ d.key ≤ hi then d.val else 0) + sumRange lo hi r

/-- A node's data together with its aggregate. -/
def audited : Layout Node (Datum × UInt64) :=
  ⟨Node.lch, Node.rch, fun _ n => (n.datum, n.aug)⟩

theorem audited_map : audited.map Prod.fst = layout := rfl

/-- Every aggregate is the sum over its subtree. -/
def Summed : BinaryTree (Datum × UInt64) → Prop
  | nil => True
  | node x l r => x.2 = sumVal (map Prod.fst (node x l r)) ∧ Summed l ∧ Summed r

theorem sumRange_eq_zero_of_gt {lo hi : UInt64} {t : BinaryTree Datum}
    (h : ∀ k ∈ keys Datum.key t, hi < k) : sumRange lo hi t = 0 := by
  induction t with
  | nil => rfl
  | node d l r ihl ihr =>
      have hd : ¬ (lo ≤ d.key ∧ d.key ≤ hi) := fun hin =>
        absurd ((h d.key (by simp)).trans_le hin.2) (lt_irrefl _)
      rw [sumRange, ihl fun k hk => h k (by simp [hk]), ihr fun k hk => h k (by simp [hk]),
        if_neg hd]
      rfl

theorem sumRange_eq_zero_of_lt {lo hi : UInt64} {t : BinaryTree Datum}
    (h : ∀ k ∈ keys Datum.key t, k < lo) : sumRange lo hi t = 0 := by
  induction t with
  | nil => rfl
  | node d l r ihl ihr =>
      have hd : ¬ (lo ≤ d.key ∧ d.key ≤ hi) := fun hin =>
        absurd ((h d.key (by simp)).trans_le hin.1) (lt_irrefl _)
      rw [sumRange, ihl fun k hk => h k (by simp [hk]), ihr fun k hk => h k (by simp [hk]),
        if_neg hd]
      rfl

theorem sumRange_eq_sumVal {lo hi : UInt64} {t : BinaryTree Datum}
    (h : ∀ k ∈ keys Datum.key t, lo ≤ k ∧ k ≤ hi) : sumRange lo hi t = sumVal t := by
  induction t with
  | nil => rfl
  | node d l r ihl ihr =>
      rw [sumRange, sumVal, ihl fun k hk => h k (by simp [hk]),
        ihr fun k hk => h k (by simp [hk]), if_pos (h d.key (by simp))]

/-- How many elements of a multiset lie in a range. -/
def countRange (lo hi : UInt64) (m : Multiset UInt64) : Nat :=
  m.countP fun k => lo ≤ k ∧ k ≤ hi

/-- With fewer than `2 ^ 64` elements the sum over a range does not overflow. -/
theorem toNat_sumRange (lo hi : UInt64) {t : BinaryTree Datum}
    (hroom : (contents t).card < 2 ^ 64) :
    (sumRange lo hi t).toNat = countRange lo hi (contents t) := by
  induction t with
  | nil => rfl
  | node d l r ihl ihr =>
      have hcard : (contents (node d l r)).card
          = (contents l).card + d.val.toNat + (contents r).card := by simp
      have hl := Multiset.countP_le_card (fun k => lo ≤ k ∧ k ≤ hi) (contents l)
      have hr := Multiset.countP_le_card (fun k => lo ≤ k ∧ k ≤ hi) (contents r)
      have hd : (if lo ≤ d.key ∧ d.key ≤ hi then d.val else 0).toNat
          = (Multiset.replicate d.val.toNat d.key).countP fun k => lo ≤ k ∧ k ≤ hi := by
        by_cases hin : lo ≤ d.key ∧ d.key ≤ hi
        · rw [if_pos hin, Multiset.countP_eq_card.mpr, Multiset.card_replicate]
          exact fun k hk => (Multiset.eq_of_mem_replicate hk) ▸ hin
        · rw [if_neg hin, Multiset.countP_eq_zero.mpr, UInt64.toNat_zero]
          exact fun k hk => (Multiset.eq_of_mem_replicate hk) ▸ hin
      have hdle := Multiset.countP_le_card (fun k => lo ≤ k ∧ k ≤ hi)
        (Multiset.replicate d.val.toNat d.key)
      rw [Multiset.card_replicate] at hdle
      have hsl := ihl (by omega)
      have hsr := ihr (by omega)
      unfold countRange at *
      rw [sumRange, contents_node, Multiset.countP_add, Multiset.countP_add, UInt64.toNat_add,
        UInt64.toNat_add, hsl, hsr, hd, Nat.mod_eq_of_lt, Nat.mod_eq_of_lt]
      · omega
      · omega

/-! ### Stores with their aggregates in order

Whether an aggregate is right depends on the tree below the node, and this is one tree,
whichever version reads it.
-/

/-- A node whose aggregate has been computed is the root of a summed tree. -/
def Audited (s : Store) : Prop :=
  ∀ a n, s.get? a = some n → n.aug ≠ augUninitialized →
    ∃ u, Shows audited s (some a) u ∧ Summed u

/-- Nothing but aggregates has changed. -/
structure OnlyAug (s s' : Store) : Prop where
  size : s'.size = s.size
  same : ∀ a n, s.get? a = some n → ∃ v, s'.get? a = some { n with aug := v }

/-- What augmenting a store in order does: besides, no tree that was summed before is any
different. -/
structure Audits (s s' : Store) : Prop extends OnlyAug s s' where
  summed : ∀ p u, Shows audited s p u → Summed u → Shows audited s' p u

variable {s s' : Store} {S : Set Addr} {p : Ptr} {a : Addr} {n : Node} {t : BinaryTree Datum}

theorem OnlyAug.refl (s : Store) : OnlyAug s s := ⟨rfl, fun _ n hn => ⟨n.aug, hn⟩⟩

theorem OnlyAug.trans {s'' : Store} (h : OnlyAug s s') (h' : OnlyAug s' s'') : OnlyAug s s'' := by
  refine ⟨h'.size.trans h.size, fun a n hn => ?_⟩
  obtain ⟨v, hv⟩ := h.same a n hn
  obtain ⟨w, hw⟩ := h'.same a _ hv
  exact ⟨w, hw⟩

/-- Trees are what they were, apart from their aggregates. -/
theorem Rep.onlyAug (hp : Rep layout s S p t) (h : OnlyAug s s') : Rep layout s' S p t := by
  refine hp.congr fun a n _ hn _ => ?_
  obtain ⟨v, hv⟩ := h.same a n hn
  exact ⟨_, hv, rfl, rfl, rfl⟩

theorem onlyAug_setAug (s : Store) (a : Addr) (v : UInt64) : OnlyAug s (setAug s a v) := by
  refine ⟨Heap.size_modify, fun b m hm => ?_⟩
  by_cases hba : b = a
  · subst hba
    exact ⟨_, Heap.get?_modify_self hm⟩
  · exact ⟨m.aug, (Heap.get?_modify_of_ne hba).trans hm⟩

theorem Audits.refl (s : Store) : Audits s s := ⟨.refl s, fun _ _ h _ => h⟩

theorem Audits.trans {s'' : Store} (h : Audits s s') (h' : Audits s' s'') : Audits s s'' :=
  ⟨h.toOnlyAug.trans h'.toOnlyAug, fun p u hu hsum => h'.summed p u (h.summed p u hu hsum) hsum⟩

theorem Rep.audits (hp : Rep layout s S p t) (h : Audits s s') : Rep layout s' S p t :=
  Rep.onlyAug hp h.toOnlyAug

theorem Audited.grows (ha : Audited s) (h : Grows s s') : Audited s' := by
  intro a n hn hne
  by_cases hlt : a < s.size
  · obtain ⟨u, hu, hsum⟩ := ha a n (by rwa [h.preserves.same a hlt] at hn) hne
    exact ⟨u, hu.preserved h.preserves, hsum⟩
  · exact absurd (h.fresh a n (Nat.not_lt.mp hlt) hn) hne

/-! ### `augment` -/

theorem get?_setAug (hn : s.get? a = some n) (v : UInt64) :
    (setAug s a v).get? a = some { n with aug := v } := Heap.get?_modify_self hn

/-- Storing the sum of a tree at its root changes no tree that was summed. -/
theorem audits_setAug {t : BinaryTree Datum} (hp : Shows layout s (some a) t) :
    Audits s (setAug s a (sumVal t)) := by
  refine ⟨onlyAug_setAug s a _, fun p u hu => ?_⟩
  induction hu with
  | nil => exact fun _ => .nil
  | @node b m l r hb hm hl hr ihl ihr =>
      intro hsum
      have hl' := ihl hsum.2.1
      have hr' := ihr hsum.2.2
      by_cases hba : b = a
      · subst hba
        -- The node on top is written, with the value it has to have.
        have hwhole : Shows layout s (some b) (map Prod.fst (node (audited.shown b m) l r)) :=
          Rep.map Prod.fst (Rep.node (L := audited) hb hm hl hr)
        have heq : t = _ := hp.unique hwhole
        have hval : m.aug = sumVal t := heq ▸ hsum.1
        have hcell : (setAug s b (sumVal t)).get? b = some m := by
          rw [get?_setAug hm, ← hval]
        exact .node (L := audited) hb hcell hl' hr'
      · exact .node (L := audited) hb ((Heap.get?_modify_of_ne hba).trans hm) hl' hr'

theorem Audits.shows (h : Audits s s') {u : BinaryTree (Datum × UInt64)}
    (hu : Shows audited s p u) (hsum : Summed u) : Shows audited s' p u := h.summed p u hu hsum

/--
**`augment` returns the sum over the tree and leaves it summed throughout.**  What it
writes changes no other tree: none that was summed, and of the others only aggregates.
-/
theorem augment_spec :
    ∀ {t : BinaryTree Datum} {fuel : Nat} {s : Store} {p : Ptr},
      Audited s → Shows layout s p t → t.height < fuel →
      ∃ s', augment fuel s p = some (s', sumVal t) ∧ Audits s s' ∧ Audited s' ∧
        ∃ u, Shows audited s' p u ∧ map Prod.fst u = t ∧ Summed u := by
  intro t
  induction t with
  | nil =>
      intro fuel s p haud hp hfuel
      obtain ⟨fuel, rfl⟩ := Nat.exists_eq_succ_of_ne_zero (Nat.ne_of_gt hfuel)
      rw [hp.of_nil]
      exact ⟨s, rfl, .refl s, haud, nil, .nil, rfl, trivial⟩
  | node d l r ihl ihr =>
      intro fuel s p haud hp hfuel
      obtain ⟨fuel, rfl⟩ := Nat.exists_eq_succ_of_ne_zero (Nat.ne_of_gt (Nat.zero_lt_of_lt hfuel))
      have hwhole := hp
      obtain ⟨a, n, rfl, -, hn, rfl, hl, hr⟩ := hp.of_node
      simp only [height] at hfuel
      simp only [augment, hn, Option.bind_eq_bind, Option.bind_some]
      by_cases haug : n.aug ≠ augUninitialized
      · obtain ⟨u, hu, hsum⟩ := haud a n hn haug
        have heq : map Prod.fst u = node (layout.shown a n) l r :=
          Rep.unique (L := layout) (hu.map Prod.fst) hwhole
        obtain ⟨m, ul, ur, -, hm, rfl, -, -⟩ := hu.of_some
        obtain rfl : n = m := Option.some.inj (hn.symm.trans hm)
        refine ⟨s, ?_, .refl s, haud, _, hu, heq, hsum⟩
        rw [if_pos haug, ← heq]
        exact congrArg (fun v => some (s, v)) hsum.1
      · obtain ⟨s₁, hrun₁, hs₁, haud₁, ul, hul, hml, hsuml⟩ :=
          ihl haud (p := n.lch) hl (show l.height < fuel by omega)
        obtain ⟨s₂, hrun₂, hs₂, haud₂, ur, hur, hmr, hsumr⟩ :=
          ihr haud₁ (p := n.rch) (Rep.audits hr hs₁) (show r.height < fuel by omega)
        have hs₁₂ := hs₁.trans hs₂
        have hset : Audits s₂ (setAug s₂ a (sumVal (node (layout.shown a n) l r))) :=
          audits_setAug (Rep.audits hwhole hs₁₂)
        obtain ⟨v, hn₂⟩ := hs₁₂.same a n hn
        have hcell : (setAug s₂ a (sumVal (node (layout.shown a n) l r))).get? a
            = some { n with aug := sumVal (node (layout.shown a n) l r) } :=
          get?_setAug hn₂ _
        have hnew : Shows audited (setAug s₂ a (sumVal (node (layout.shown a n) l r))) (some a)
            (node (n.datum, sumVal (node (layout.shown a n) l r)) ul ur) :=
          Rep.node (L := audited) (x := { n with aug := sumVal (node (layout.shown a n) l r) })
            (Set.mem_univ _) hcell (hset.shows (hs₂.shows hul hsuml) hsuml)
            (hset.shows hur hsumr)
        have hsum : Summed (node (n.datum, sumVal (node (layout.shown a n) l r)) ul ur) := by
          refine ⟨?_, hsuml, hsumr⟩
          rw [map_node, hml, hmr]
          rfl
        refine ⟨_, ?_, hs₁₂.trans hset, ?_, _, hnew, by rw [map_node, hml, hmr]; rfl, hsum⟩
        · rw [if_neg haug, hrun₁, Option.bind_some, hrun₂, Option.bind_some]
          rfl
        · intro b m hm hne
          by_cases hba : b = a
          · exact ⟨_, hba ▸ hnew, hsum⟩
          · rw [setAug, Heap.get?_modify_of_ne hba] at hm
            obtain ⟨u, hu, hsumu⟩ := haud₂ b m hm hne
            exact ⟨u, hset.shows hu hsumu, hsumu⟩

/-- On any tree at all `augment` returns, and writes nothing but aggregates. -/
theorem augment_total :
    ∀ {t : BinaryTree Datum} {fuel : Nat} {s : Store} {p : Ptr},
      Shows layout s p t → t.height < fuel →
      ∃ s' v, augment fuel s p = some (s', v) ∧ OnlyAug s s' := by
  intro t
  induction t with
  | nil =>
      intro fuel s p hp hfuel
      obtain ⟨fuel, rfl⟩ := Nat.exists_eq_succ_of_ne_zero (Nat.ne_of_gt hfuel)
      rw [hp.of_nil]
      exact ⟨s, 0, rfl, .refl s⟩
  | node d l r ihl ihr =>
      intro fuel s p hp hfuel
      obtain ⟨fuel, rfl⟩ := Nat.exists_eq_succ_of_ne_zero (Nat.ne_of_gt (Nat.zero_lt_of_lt hfuel))
      obtain ⟨a, n, rfl, -, hn, rfl, hl, hr⟩ := hp.of_node
      simp only [height] at hfuel
      simp only [augment, hn, Option.bind_eq_bind, Option.bind_some]
      by_cases haug : n.aug ≠ augUninitialized
      · exact ⟨s, n.aug, if_pos haug, .refl s⟩
      · obtain ⟨s₁, v₁, hrun₁, hs₁⟩ := ihl (p := n.lch) hl (show l.height < fuel by omega)
        obtain ⟨s₂, v₂, hrun₂, hs₂⟩ :=
          ihr (p := n.rch) (Rep.onlyAug hr hs₁) (show r.height < fuel by omega)
        refine ⟨_, v₁ + n.val + v₂, ?_, (hs₁.trans hs₂).trans (onlyAug_setAug s₂ a (v₁ + n.val + v₂))⟩
        rw [if_neg haug, hrun₁, Option.bind_some, hrun₂, Option.bind_some]

/-- **`augment` writes only to the nodes of its tree.** -/
theorem augment_frame :
    ∀ {t : BinaryTree Datum} {fuel : Nat} {s s' : Store} {p : Ptr} {v : UInt64},
      Rep layout s S p t → augment fuel s p = some (s', v) →
      OnlyAug s s' ∧ ∀ a, a ∉ S → s'.get? a = s.get? a := by
  intro t
  induction t with
  | nil =>
      intro fuel s s' p v hp hrun
      rw [hp.of_nil] at hrun
      cases fuel with
      | zero => cases hrun
      | succ fuel =>
          cases hrun
          exact ⟨.refl s, fun _ _ => rfl⟩
  | node d l r ihl ihr =>
      intro fuel s s' p v hp hrun
      obtain ⟨a, n, rfl, ha, hn, -, hl, hr⟩ := hp.of_node
      cases fuel with
      | zero => cases hrun
      | succ fuel =>
          simp only [augment, hn, Option.bind_eq_bind, Option.bind_some] at hrun
          split at hrun
          · cases hrun
            exact ⟨.refl s, fun _ _ => rfl⟩
          · obtain ⟨⟨s₁, v₁⟩, hrun₁, hrest⟩ := Option.bind_eq_some_iff.mp hrun
            obtain ⟨⟨s₂, v₂⟩, hrun₂, heq⟩ := Option.bind_eq_some_iff.mp hrest
            cases heq
            obtain ⟨hs₁, hsame₁⟩ := ihl hl hrun₁
            obtain ⟨hs₂, hsame₂⟩ := ihr (Rep.onlyAug hr hs₁) hrun₂
            refine ⟨(hs₁.trans hs₂).trans (onlyAug_setAug s₂ a _), fun b hb => ?_⟩
            have hba : b ≠ a := fun heq => hb (heq ▸ ha)
            exact (Heap.get?_modify_of_ne hba).trans ((hsame₂ b hb).trans (hsame₁ b hb))

/-! ### `range_estimate`

The cover says on which sides the subtree may reach beyond the range.  It is narrowed on
the way down, and where it is closed on both sides the aggregate is the sum.
-/

/-- What a cover promises of the keys of the subtree. -/
def RangeCover.Promises (lo hi : UInt64) (d : RangeCover) (t : BinaryTree Datum) : Prop :=
  match d with
  | .openOpen => True
  | .openClose => ∀ k ∈ keys Datum.key t, k ≤ hi
  | .closeOpen => ∀ k ∈ keys Datum.key t, lo ≤ k
  | .closeClose => ∀ k ∈ keys Datum.key t, lo ≤ k ∧ k ≤ hi

theorem RangeCover.promises_left {lo hi : UInt64} {c : RangeCover} {d : Datum}
    {l r : BinaryTree Datum} (h : c.Promises lo hi (node d l r)) : c.Promises lo hi l := by
  cases c with
  | openOpen => trivial
  | openClose => exact fun k hk => h k (by simp [hk])
  | closeOpen => exact fun k hk => h k (by simp [hk])
  | closeClose => exact fun k hk => h k (by simp [hk])

theorem RangeCover.promises_right {lo hi : UInt64} {c : RangeCover} {d : Datum}
    {l r : BinaryTree Datum} (h : c.Promises lo hi (node d l r)) : c.Promises lo hi r := by
  cases c with
  | openOpen => trivial
  | openClose => exact fun k hk => h k (by simp [hk])
  | closeOpen => exact fun k hk => h k (by simp [hk])
  | closeClose => exact fun k hk => h k (by simp [hk])

section
variable {lo hi : UInt64} {d : Datum} {l r : BinaryTree Datum}

/-- A root above the range: only the left subtree counts. -/
theorem sumRange_above (hr : ∀ k ∈ keys Datum.key r, d.key ≤ k) (hhi : hi < d.key) :
    sumRange lo hi (node d l r) = sumRange lo hi l := by
  rw [sumRange, sumRange_eq_zero_of_gt (t := r) fun k hk => hhi.trans_le (hr k hk),
    if_neg fun hin => absurd (hhi.trans_le hin.2) (lt_irrefl _)]
  simp

/-- A root below the range: only the right subtree counts. -/
theorem sumRange_below (hl : ∀ k ∈ keys Datum.key l, k ≤ d.key) (hlo : lo > d.key) :
    sumRange lo hi (node d l r) = sumRange lo hi r := by
  rw [sumRange, sumRange_eq_zero_of_lt (t := l) fun k hk => (hl k hk).trans_lt hlo,
    if_neg fun hin => absurd (lt_of_lt_of_le hlo hin.1) (lt_irrefl _)]
  simp

theorem sumRange_inside (hlo : lo ≤ d.key) (hhi : d.key ≤ hi) :
    sumRange lo hi (node d l r) = sumRange lo hi l + d.val + sumRange lo hi r := by
  rw [sumRange, if_pos ⟨hlo, hhi⟩]

end

/--
**`range_estimate` returns the sum over the range.**  The tree is sorted and summed,
and its keys keep what the cover promises.
-/
theorem rangeEstimate_spec (lo hi : UInt64) :
    ∀ {u : BinaryTree (Datum × UInt64)} {fuel : Nat} {p : Ptr} {c : RangeCover},
      Shows audited s p u → Summed u → IsSearchTree Datum.key (map Prod.fst u) →
      c.Promises lo hi (map Prod.fst u) → u.height < fuel →
      rangeEstimate fuel s p lo hi c = some (sumRange lo hi (map Prod.fst u)) := by
  intro u
  induction u with
  | nil =>
      intro fuel p c hp _ _ _ hfuel
      obtain ⟨fuel, rfl⟩ := Nat.exists_eq_succ_of_ne_zero (Nat.ne_of_gt hfuel)
      rw [hp.of_nil]
      rfl
  | node x l r ihl ihr =>
      intro fuel p c hp hsum hsearch hprom hfuel
      obtain ⟨fuel, rfl⟩ := Nat.exists_eq_succ_of_ne_zero (Nat.ne_of_gt (Nat.zero_lt_of_lt hfuel))
      obtain ⟨a, n, rfl, -, hn, rfl, hl, hr⟩ := hp.of_node
      obtain ⟨haug, hsuml, hsumr⟩ := hsum
      obtain ⟨hkl, hkr, htl, htr⟩ := hsearch
      simp only [height] at hfuel
      have hfl : l.height < fuel := by omega
      have hfr : r.height < fuel := by omega
      have hleft : ∀ {c : RangeCover}, c.Promises lo hi (map Prod.fst l) →
          rangeEstimate fuel s n.lch lo hi c = some (sumRange lo hi (map Prod.fst l)) :=
        fun h => ihl hl hsuml htl h hfl
      have hright : ∀ {c : RangeCover}, c.Promises lo hi (map Prod.fst r) →
          rangeEstimate fuel s n.rch lo hi c = some (sumRange lo hi (map Prod.fst r)) :=
        fun h => ihr hr hsumr htr h hfr
      have hkl' : ∀ k ∈ keys Datum.key (map Prod.fst l), k ≤ n.key := hkl
      have hkr' : ∀ k ∈ keys Datum.key (map Prod.fst r), n.key ≤ k := hkr
      rw [map_node] at hprom ⊢
      simp only [rangeEstimate, hn, Option.bind_eq_bind, Option.bind_some]
      cases c with
      | openOpen =>
          by_cases hhi : hi < n.key
          · simp only [if_pos hhi]
            rw [hleft (c := .openOpen) trivial, sumRange_above hkr' hhi]
          · by_cases hlo : lo > n.key
            · simp only [if_neg hhi, if_pos hlo]
              rw [hright (c := .openOpen) trivial, sumRange_below hkl' hlo]
            · simp only [if_neg hhi, if_neg hlo]
              rw [hleft (c := .openClose) fun k hk => (hkl' k hk).trans (not_lt.mp hhi),
                hright (c := .closeOpen) fun k hk => (not_lt.mp hlo).trans (hkr' k hk),
                sumRange_inside (not_lt.mp hlo) (not_lt.mp hhi)]
              rfl
      | openClose =>
          -- On this side the whole subtree is in the range, by what the cover promises.
          have hhi : n.key ≤ hi := hprom n.key (by simp [audited])
          by_cases hlo : lo > n.key
          · simp only [if_pos hlo]
            rw [hright (RangeCover.promises_right hprom), sumRange_below hkl' hlo]
          · simp only [if_neg hlo]
            rw [hleft (RangeCover.promises_left hprom),
              hright (c := .closeClose) fun k hk => ⟨(not_lt.mp hlo).trans (hkr' k hk),
                RangeCover.promises_right hprom k hk⟩,
              sumRange_inside (not_lt.mp hlo) hhi]
            rfl
      | closeOpen =>
          have hlo : lo ≤ n.key := hprom n.key (by simp [audited])
          by_cases hhi : hi < n.key
          · simp only [if_pos hhi]
            rw [hleft (RangeCover.promises_left hprom), sumRange_above hkr' hhi]
          · simp only [if_neg hhi]
            rw [hleft (c := .closeClose) fun k hk => ⟨RangeCover.promises_left hprom k hk,
                (hkl' k hk).trans (not_lt.mp hhi)⟩,
              hright (RangeCover.promises_right hprom), sumRange_inside hlo (not_lt.mp hhi)]
            rfl
      | closeClose =>
          simp only
          -- On both sides, so that the aggregate answers.
          rw [sumRange_eq_sumVal hprom]
          exact congrArg some haug

/-- The sum over a range, as a sum over the nodes that are in it. -/
theorem toNat_sumRange_mod (lo hi : UInt64) (t : BinaryTree Datum) :
    (sumRange lo hi t).toNat
      = ((t.inorder.filter fun d => lo ≤ d.key ∧ d.key ≤ hi).map fun d => d.val.toNat).sum % 2 ^ 64 := by
  induction t with
  | nil => rfl
  | node d l r ihl ihr =>
      have hroot : (if lo ≤ d.key ∧ d.key ≤ hi then d.val else 0).toNat
          = (([d].filter fun d => lo ≤ d.key ∧ d.key ≤ hi).map fun d => d.val.toNat).sum := by
        by_cases hin : lo ≤ d.key ∧ d.key ≤ hi
        · simp [hin]
        · simp [hin]
      rw [sumRange, UInt64.toNat_add, UInt64.toNat_add, ihl, ihr, hroot, inorder_node,
        List.append_cons, List.filter_append, List.filter_append, List.map_append, List.map_append,
        List.sum_append_nat, List.sum_append_nat]
      simp only [Nat.mod_add_mod, Nat.add_mod_mod]

/--
**A range query is exact.**  On every search tree whose aggregates are sums, and for any
two ends, it returns the sum modulo `2 ^ 64` over the nodes in the range.
-/
theorem rangeEstimate_exact {u : BinaryTree (Datum × UInt64)} (hp : Shows audited s p u)
    (hsum : Summed u) (hsearch : IsSearchTree Datum.key (map Prod.fst u)) (l r : UInt64) :
    ∃ x, rangeEstimateOpen s p l r = some x ∧
      x.toNat = (((map Prod.fst u).inorder.filter fun d => l ≤ d.key ∧ d.key ≤ r).map
        fun d => d.val.toNat).sum % 2 ^ 64 := by
  refine ⟨sumRange l r (map Prod.fst u), ?_, toNat_sumRange_mod l r _⟩
  exact rangeEstimate_spec l r hp hsum hsearch trivial (Nat.lt_succ_of_le hp.height_le)

/-- Two nodes of one key, which no treap has, both in the range. -/
theorem rangeEstimate_exact_twice :
    ∃ x, rangeEstimateOpen ⟨#[⟨0, 1, 5, 2, 2, none, none⟩, ⟨0, 9, 5, 3, 5, some 0, none⟩]⟩ (some 1)
        5 5 = some x ∧
      x.toNat = ((([(⟨0, 1, 5, 2⟩ : Datum), ⟨0, 9, 5, 3⟩]).filter fun d => 5 ≤ d.key ∧ d.key ≤ 5).map
        fun d => d.val.toNat).sum % 2 ^ 64 :=
  rangeEstimate_exact
    (u := node (⟨0, 9, 5, 3⟩, 5) (node (⟨0, 1, 5, 2⟩, 2) nil nil) nil)
    (.node (L := audited) (x := ⟨0, 9, 5, 3, 5, some 0, none⟩) (Set.mem_univ _) rfl
      (.node (L := audited) (x := ⟨0, 1, 5, 2, 2, none, none⟩) (Set.mem_univ _) rfl .nil .nil) .nil)
    ⟨by decide, ⟨by decide, trivial, trivial⟩, trivial⟩
    ⟨by simp, by simp, ⟨by simp, by simp, trivial, trivial⟩, trivial⟩ 5 5

/-! ### `find` -/

/-- The search comes to the node of the key, if there is one. -/
theorem find_spec (k : UInt64) :
    ∀ {t : BinaryTree Datum} {fuel : Nat} {p : Ptr}, Shows layout s p t → t.height < fuel →
      (find? Datum.key k t = none ∧ find fuel s p k = some none) ∨
      ∃ d a n, find? Datum.key k t = some d ∧ find fuel s p k = some (some a) ∧
        s.get? a = some n ∧ n.datum = d := by
  intro t
  induction t with
  | nil =>
      intro fuel p hp hfuel
      obtain ⟨fuel, rfl⟩ := Nat.exists_eq_succ_of_ne_zero (Nat.ne_of_gt hfuel)
      rw [hp.of_nil]
      exact Or.inl ⟨rfl, rfl⟩
  | node d l r ihl ihr =>
      intro fuel p hp hfuel
      obtain ⟨fuel, rfl⟩ := Nat.exists_eq_succ_of_ne_zero (Nat.ne_of_gt (Nat.zero_lt_of_lt hfuel))
      obtain ⟨a, n, rfl, -, hn, rfl, hl, hr⟩ := hp.of_node
      simp only [height] at hfuel
      simp only [find, hn, Option.bind_eq_bind, Option.bind_some]
      rcases lt_trichotomy k n.key with hk | rfl | hk
      · rw [if_neg hk.ne, if_pos hk, find?_of_lt (show k < (layout.shown a n).key from hk)]
        exact ihl (p := n.lch) hl (by omega)
      · refine Or.inr ⟨n.datum, a, n, ?_, if_pos rfl, hn, rfl⟩
        exact find?_root (x := layout.shown a n)
      · rw [if_neg hk.ne', if_neg hk.not_gt, find?_of_gt (show (layout.shown a n).key < k from hk)]
        exact ihr (p := n.rch) hr (by omega)

end Treap
