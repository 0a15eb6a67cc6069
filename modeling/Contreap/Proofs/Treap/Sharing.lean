/-
The order in which the versions of a store are augmented.

Trees share nodes, and `augment` writes to a node once: where it finds an aggregate it
takes it and goes no deeper.  That is right only if no sum is `0`, which would look like
a sum not yet taken, and if everything below a summed node is summed.  `Initialised`
says both of a store of complete trees, and is what `Audited` comes to on such a store.

What a call leaves behind is then a matter of which nodes it reaches: these hold their
sums, and no other has changed (`SumsAt`).  The nodes reached by a sequence of calls do
not depend on its order, nor on what is called twice.
-/
import Contreap.Proofs.Treap.Query

namespace Treap

open BinaryTree PtrHeap

variable {s s' s'' : Store} {S R R' : Set Addr} {p : Ptr} {a : Addr} {n : Node}
  {t : BinaryTree Datum} {u : BinaryTree (Datum × UInt64)}

/-! ### The sum over a tree -/

/-- The sum of the counters, without overflow. -/
def total (t : BinaryTree Datum) : Nat := (t.inorder.map fun d => d.val.toNat).sum

@[simp] theorem total_nil : total nil = 0 := rfl

@[simp] theorem total_node (d : Datum) (l r : BinaryTree Datum) :
    total (node d l r) = total l + d.val.toNat + total r := by
  unfold total
  rw [inorder_node, List.map_append, List.map_cons, List.sum_append_nat, List.sum_cons, Nat.add_assoc]

theorem toNat_sumVal (hfits : total t < 2 ^ 64) : (sumVal t).toNat = total t := by
  induction t with
  | nil => rfl
  | node d l r ihl ihr =>
      rw [total_node] at hfits ⊢
      have hl : (sumVal l).toNat = total l := ihl (by omega)
      have hr : (sumVal r).toNat = total r := ihr (by omega)
      rw [sumVal, UInt64.toNat_add, UInt64.toNat_add, hl, hr, Nat.mod_eq_of_lt, Nat.mod_eq_of_lt]
      · omega
      · omega

/-! ### Complete trees that share nodes -/

/-- Every node is the root of a tree, counts at least one, and has a sum that fits. -/
structure Complete (s : Store) : Prop where
  shows : ∀ a < s.size, ∃ t, Shows layout s (some a) t
  pos : ∀ a n, s.get? a = some n → n.val ≠ 0
  fits : ∀ a t, Shows layout s (some a) t → total t < 2 ^ 64

/-- Besides, an aggregate that is not zero is the sum over the subtree, and there is no
zero below it. -/
structure Initialised (s : Store) : Prop extends Complete s where
  sum : ∀ a n t, s.get? a = some n → n.aug ≠ augUninitialized → Shows layout s (some a) t →
    n.aug.toNat = total t
  closed : ∀ a n, s.get? a = some n → n.aug ≠ augUninitialized →
    ∀ b m, Reaches layout s (some a) b → s.get? b = some m → m.aug ≠ augUninitialized

theorem OnlyAug.symm (h : OnlyAug s s') : OnlyAug s' s := by
  refine ⟨h.size.symm, fun a n hn => ?_⟩
  obtain ⟨m, hm⟩ := Heap.get?_of_lt (h := s) (h.size ▸ Heap.lt_size_of_get? hn)
  obtain ⟨v, hv⟩ := h.same a m hm
  obtain rfl : n = _ := Option.some.inj (hn.symm.trans hv)
  exact ⟨m.aug, hm⟩

theorem OnlyAug.reaches (h : OnlyAug s s') (ha : Reaches layout s p a) : Reaches layout s' p a := by
  apply ha.congr
  intro b m hm
  obtain ⟨v, hv⟩ := h.same b m hm
  exact ⟨_, hv, rfl, rfl⟩

namespace Complete

theorem onlyAug (hc : Complete s) (h : OnlyAug s s') : Complete s' := by
  refine ⟨?_, ?_, ?_⟩
  · intro a ha
    obtain ⟨t, ht⟩ := hc.shows a (h.size ▸ ha)
    exact ⟨t, Rep.onlyAug ht h⟩
  · intro a n hn
    obtain ⟨v, hv⟩ := h.symm.same a n hn
    exact hc.pos a { n with aug := v } hv
  · intro a t ht
    exact hc.fits a t (Rep.onlyAug ht h.symm)

/-- No sum is zero. -/
theorem sumVal_ne_zero (hc : Complete s) (ht : Shows layout s (some a) t) : sumVal t ≠ 0 := by
  intro hzero
  have htotal := toNat_sumVal (hc.fits a t ht)
  obtain ⟨n, l, r, -, hn, rfl, -, -⟩ := ht.of_some
  have hval : n.val.toNat ≠ 0 := fun h => hc.pos a n hn (UInt64.toNat_inj.mp h)
  rw [hzero, total_node, UInt64.toNat_zero] at htotal
  simp only [layout_shown, datum_val] at htotal
  omega

end Complete

/-- In a summed tree every node reached is the root of one. -/
theorem Reaches.summed (ha : Reaches layout s p a) :
    ∀ {u : BinaryTree (Datum × UInt64)}, Shows audited s p u → Summed u →
      ∃ v, Shows audited s (some a) v ∧ Summed v := by
  induction ha with
  | here a => exact fun hu hsum => ⟨_, hu, hsum⟩
  | left hn _ ih =>
      intro u hu hsum
      obtain ⟨m, l, r, -, hm, rfl, hl, -⟩ := hu.of_some
      obtain rfl : _ = m := Option.some.inj (hn.symm.trans hm)
      exact ih hl hsum.2.1
  | right hn _ ih =>
      intro u hu hsum
      obtain ⟨m, l, r, -, hm, rfl, -, hr⟩ := hu.of_some
      obtain rfl : _ = m := Option.some.inj (hn.symm.trans hm)
      exact ih hr hsum.2.2

/-- The aggregate at the root of a summed tree. -/
theorem Summed.aug_eq (hsum : Summed u) (hu : Shows audited s (some a) u) (hn : s.get? a = some n) :
    n.aug = sumVal (map Prod.fst u) := by
  obtain ⟨m, l, r, -, hm, rfl, -, -⟩ := hu.of_some
  obtain rfl : n = m := Option.some.inj (hn.symm.trans hm)
  exact hsum.1

/-- Where every node reached holds its sum, the tree is summed. -/
theorem summed_of_reached (hu : Shows audited s p u)
    (hsum : ∀ b m w, Reaches layout s p b → s.get? b = some m → Shows layout s (some b) w →
      m.aug = sumVal w) : Summed u := by
  induction hu with
  | nil => trivial
  | @node b m l r hb hm hl hr ihl ihr =>
      have hwhole : Shows layout s (some b) (map Prod.fst (node (audited.shown b m) l r)) :=
        Rep.map Prod.fst (Rep.node (L := audited) hb hm hl hr)
      refine ⟨hsum b m _ (.here b) hm hwhole, ihl ?_, ihr ?_⟩
      · exact fun c k w hc => hsum c k w (.left hm hc)
      · exact fun c k w hc => hsum c k w (.right hm hc)

namespace Initialised

/-- What is initialised is the root of a summed tree. -/
theorem audited (h : Initialised s) : Audited s := by
  intro a n hn haug
  obtain ⟨t, ht⟩ := h.shows a (Heap.lt_size_of_get? hn)
  obtain ⟨u, hu, -⟩ := Rep.of_map (L := Treap.audited) (g := Prod.fst) (audited_map ▸ ht)
  refine ⟨u, hu, summed_of_reached hu ?_⟩
  intro b m w hb hm hw
  apply UInt64.toNat_inj.mp
  rw [h.sum b m w hm (h.closed a n hn haug b m hb hm) hw, toNat_sumVal (h.fits b w hw)]

end Initialised

/-- And the root of a summed tree is initialised, with everything below it. -/
theorem Complete.initialised (hc : Complete s) (haud : Audited s) : Initialised s := by
  refine { hc with sum := ?_, closed := ?_ }
  · intro a n t hn haug ht
    obtain ⟨u, hu, hsum⟩ := haud a n hn haug
    have heq : map Prod.fst u = t := Rep.unique (L := layout) (hu.map Prod.fst) ht
    rw [hsum.aug_eq hu hn, heq, toNat_sumVal (hc.fits a t ht)]
  · intro a n hn haug b m hb hm
    obtain ⟨u, hu, hsum⟩ := haud a n hn haug
    obtain ⟨v, hv, hsumv⟩ := Reaches.summed hb hu hsum
    rw [hsumv.aug_eq hv hm]
    exact hc.sumVal_ne_zero (hv.map Prod.fst)

/-! ### What a call leaves behind -/

/-- The nodes of `R` hold their sums, and nothing else has changed. -/
structure SumsAt (s : Store) (R : Set Addr) (s' : Store) : Prop extends OnlyAug s s' where
  inside : ∀ a ∈ R, ∀ n t, s.get? a = some n → Shows layout s (some a) t →
    s'.get? a = some { n with aug := sumVal t }
  outside : ∀ a ∉ R, s'.get? a = s.get? a

namespace SumsAt

theorem empty (s : Store) : SumsAt s ∅ s :=
  { OnlyAug.refl s with inside := fun _ ha => ha.elim, outside := fun _ _ => rfl }

theorem union (h : SumsAt s R s') (h' : SumsAt s' R' s'') : SumsAt s (R ∪ R') s'' := by
  refine { h.toOnlyAug.trans h'.toOnlyAug with inside := ?_, outside := ?_ }
  · intro a ha n t hn ht
    by_cases hlast : a ∈ R'
    · obtain ⟨v, hv⟩ := h.same a n hn
      exact h'.inside a hlast { n with aug := v } t hv (Rep.onlyAug ht h.toOnlyAug)
    · rw [h'.outside a hlast]
      exact h.inside a (ha.resolve_right hlast) n t hn ht
  · intro a ha
    rw [h'.outside a fun h => ha (Or.inr h), h.outside a fun h => ha (Or.inl h)]

/-- There is one store like that. -/
theorem unique (hc : Complete s) (h : SumsAt s R s') (h' : SumsAt s R s'') : s' = s'' := by
  have hcell : ∀ a, s'.get? a = s''.get? a := by
    intro a
    by_cases hin : a ∈ R
    · by_cases hlt : a < s.size
      · obtain ⟨n, hn⟩ := Heap.get?_of_lt hlt
        obtain ⟨t, ht⟩ := hc.shows a hlt
        rw [h.inside a hin n t hn ht, h'.inside a hin n t hn ht]
      · have hle : s.size ≤ a := Nat.not_lt.mp hlt
        rw [Heap.get?_of_size_le (h.size.trans_le hle), Heap.get?_of_size_le (h'.size.trans_le hle)]
    · rw [h.outside a hin, h'.outside a hin]
  cases s' with
  | mk cells =>
      cases s'' with
      | mk cells' => exact congrArg Heap.mk (Array.ext_getElem? hcell)

end SumsAt

/-- One call. -/
theorem augment_sumsAt (h : Initialised s) (ht : Shows layout s p t) :
    ∃ s' x, augment (recursionBound s) s p = some (s', x) ∧ x = sumVal t ∧ Initialised s' ∧
      SumsAt s {a | Reaches layout s p a} s' := by
  obtain ⟨s', hrun, hs', haud, u, hu, rfl, hsum⟩ :=
    augment_spec h.audited ht (Nat.lt_succ_of_le ht.height_le)
  obtain ⟨-, hsame⟩ := augment_frame ht.reached hrun
  refine ⟨s', _, hrun, rfl, (h.toComplete.onlyAug hs'.toOnlyAug).initialised haud,
    { hs'.toOnlyAug with inside := ?_, outside := hsame }⟩
  intro a ha n t hn htree
  obtain ⟨v, hv, hsumv⟩ := Reaches.summed (hs'.reaches ha) hu hsum
  obtain ⟨w, hw⟩ := hs'.same a n hn
  have hshown : map Prod.fst v = t :=
    Rep.unique (L := layout) (hv.map Prod.fst) (Rep.audits htree hs')
  have haug : w = sumVal (map Prod.fst v) := hsumv.aug_eq hv hw
  rw [hw, haug, hshown]

/-! ### Any sequence of calls -/

/-- `augment` called on one root after another. -/
def augmentAll (s : Store) : List Ptr → Option (Store × List UInt64)
  | [] => some (s, [])
  | p :: ps => do
      let (s, x) ← augment (recursionBound s) s p
      let (s, xs) ← augmentAll s ps
      some (s, x :: xs)

/-- The roots are null or nodes of the store. -/
def Roots (s : Store) (ps : List Ptr) : Prop := ∀ p ∈ ps, ∀ a, p = some a → a < s.size

theorem Complete.shows_root (hc : Complete s) (hp : ∀ a, p = some a → a < s.size) :
    ∃ t, Shows layout s p t := by
  cases p with
  | none => exact ⟨nil, .nil⟩
  | some a => exact hc.shows a (hp a rfl)

/-- One call after another: each leaves the sums at the nodes it reaches, and the store
initialised for the next. -/
theorem augmentAll_sumsAt :
    ∀ {ps : List Ptr} {s : Store}, Initialised s → Roots s ps →
      ∃ s' xs, augmentAll s ps = some (s', xs) ∧ Initialised s' ∧
        SumsAt s {a | ∃ p ∈ ps, Reaches layout s p a} s' ∧
        List.Forall₂ (fun p x => ∃ t, Shows layout s p t ∧ x.toNat = total t) ps xs := by
  intro ps
  induction ps with
  | nil =>
      intro s h _
      refine ⟨s, [], rfl, h, ?_, .nil⟩
      have hnone : {a | ∃ p ∈ ([] : List Ptr), Reaches layout s p a} = ∅ := by simp
      exact hnone ▸ SumsAt.empty s
  | cons p ps ih =>
      intro s h hroots
      obtain ⟨t, ht⟩ := h.shows_root (hroots p (by simp))
      obtain ⟨s₁, x, hrun, rfl, h₁, hsum₁⟩ := augment_sumsAt h ht
      have hroots₁ : Roots s₁ ps := by
        intro q hq a ha
        rw [hsum₁.size]
        exact hroots q (by simp [hq]) a ha
      obtain ⟨s₂, xs, hruns, h₂, hsum₂, hxs⟩ := ih h₁ hroots₁
      have htotal : (sumVal t).toNat = total t := by
        cases p with
        | none => rw [ht.of_none]; rfl
        | some a => exact toNat_sumVal (h.fits a t ht)
      have hreach : {a | ∃ q ∈ p :: ps, Reaches layout s q a}
          = {a | Reaches layout s p a} ∪ {a | ∃ q ∈ ps, Reaches layout s₁ q a} := by
        ext a
        simp only [List.mem_cons, exists_eq_or_imp, Set.mem_ofPred_eq, Set.mem_union]
        refine or_congr_right ⟨?_, ?_⟩
        · exact fun ⟨q, hq, ha⟩ => ⟨q, hq, hsum₁.toOnlyAug.reaches ha⟩
        · exact fun ⟨q, hq, ha⟩ => ⟨q, hq, hsum₁.toOnlyAug.symm.reaches ha⟩
      refine ⟨s₂, sumVal t :: xs, ?_, h₂, hreach ▸ hsum₁.union hsum₂, .cons ⟨t, ht, htotal⟩ ?_⟩
      · simp only [augmentAll, hrun, hruns, Option.bind_eq_bind, Option.bind_some]
      · refine hxs.imp ?_
        rintro q x ⟨w, hw, hx⟩
        exact ⟨w, Rep.onlyAug hw hsum₁.toOnlyAug.symm, hx⟩

/--
**Augmentation does not depend on the order.**  Calls on any roots of an initialised
store, in any order and with repetitions, leave it initialised with nothing but
aggregates changed, return the sum over the tree each time, and end in the store in
which calls on the same roots in any other order end.
-/
theorem augmentAll_order_independent (h : Initialised s) {ps : List Ptr} (hroots : Roots s ps) :
    ∃ s' xs, augmentAll s ps = some (s', xs) ∧ Initialised s' ∧ OnlyAug s s' ∧
      List.Forall₂ (fun p x => ∃ t, Shows layout s p t ∧ x.toNat = total t) ps xs ∧
      ∀ qs, (∀ p, p ∈ qs ↔ p ∈ ps) → ∃ ys, augmentAll s qs = some (s', ys) := by
  obtain ⟨s', xs, hrun, h', hsum, hxs⟩ := augmentAll_sumsAt h hroots
  refine ⟨s', xs, hrun, h', hsum.toOnlyAug, hxs, ?_⟩
  intro qs hsame
  have hroots' : Roots s qs := fun p hp => hroots p ((hsame p).mp hp)
  obtain ⟨s'', ys, hrun', -, hsum', -⟩ := augmentAll_sumsAt h hroots'
  have hreach : {a | ∃ p ∈ qs, Reaches layout s p a} = {a | ∃ p ∈ ps, Reaches layout s p a} := by
    simp only [hsame]
  obtain rfl : s' = s'' := hsum.unique h.toComplete (hreach ▸ hsum')
  exact ⟨ys, hrun'⟩

/-- Two versions of a tree that share a node, which has been summed. -/
def twoVersions : Store :=
  ⟨#[⟨0, 1, 5, 2, 2, none, none⟩, ⟨0, 9, 7, 3, 0, some 0, none⟩, ⟨1, 9, 7, 4, 0, some 0, none⟩]⟩

/-- The trees they show. -/
def twoVersionsTree : Nat → BinaryTree Datum
  | 0 => node ⟨0, 1, 5, 2⟩ nil nil
  | 1 => node ⟨0, 9, 7, 3⟩ (node ⟨0, 1, 5, 2⟩ nil nil) nil
  | _ => node ⟨1, 9, 7, 4⟩ (node ⟨0, 1, 5, 2⟩ nil nil) nil

theorem twoVersions_shows (ha : a < twoVersions.size) :
    Shows layout twoVersions (some a) (twoVersionsTree a) := by
  have hleaf : Shows layout twoVersions (some 0) (twoVersionsTree 0) :=
    .node (L := layout) (x := ⟨0, 1, 5, 2, 2, none, none⟩) (Set.mem_univ _) rfl .nil .nil
  match a, ha with
  | 0, _ => exact hleaf
  | 1, _ => exact .node (L := layout) (x := ⟨0, 9, 7, 3, 0, some 0, none⟩) (Set.mem_univ _) rfl hleaf .nil
  | 2, _ => exact .node (L := layout) (x := ⟨1, 9, 7, 4, 0, some 0, none⟩) (Set.mem_univ _) rfl hleaf .nil

theorem twoVersions_initialised : Initialised twoVersions := by
  have hc : Complete twoVersions := by
    refine ⟨fun a ha => ⟨_, twoVersions_shows ha⟩, ?_, ?_⟩
    · intro a n hn
      have ha := Heap.lt_size_of_get? hn
      match a, ha with
      | 0, _ => obtain rfl := Option.some.inj hn; decide
      | 1, _ => obtain rfl := Option.some.inj hn; decide
      | 2, _ => obtain rfl := Option.some.inj hn; decide
    · intro a t ht
      obtain ⟨n, -, -, -, hn, -⟩ := ht.of_some
      have ha := Heap.lt_size_of_get? hn
      rw [ht.unique (twoVersions_shows ha)]
      match a, ha with
      | 0, _ => decide
      | 1, _ => decide
      | 2, _ => decide
  refine hc.initialised ?_
  intro a n hn haug
  have ha := Heap.lt_size_of_get? hn
  match a, ha with
  | 0, _ =>
    exact ⟨node (⟨0, 1, 5, 2⟩, 2) nil nil, .node (L := audited) (x := ⟨0, 1, 5, 2, 2, none, none⟩)
      (Set.mem_univ _) rfl .nil .nil, by decide, trivial, trivial⟩
  | 1, _ => obtain rfl := Option.some.inj hn; exact absurd rfl haug
  | 2, _ => obtain rfl := Option.some.inj hn; exact absurd rfl haug

/-- The newer version first, the older one twice. -/
theorem augmentAll_order_independent_twoVersions :
    ∃ s' xs, augmentAll twoVersions [some 2, some 1, none, some 1] = some (s', xs) ∧
      Initialised s' ∧ OnlyAug twoVersions s' ∧
      List.Forall₂ (fun p x => ∃ t, Shows layout twoVersions p t ∧ x.toNat = total t)
        [some 2, some 1, none, some 1] xs ∧
      ∀ qs, (∀ p, p ∈ qs ↔ p ∈ [some 2, some 1, none, some 1]) →
        ∃ ys, augmentAll twoVersions qs = some (s', ys) := by
  apply augmentAll_order_independent twoVersions_initialised
  rintro p hp a rfl
  have hcases : a = 2 ∨ a = 1 := by simpa using hp
  rcases hcases with rfl | rfl
  · decide
  · decide

end Treap
