/-
What a batch holds, and what applying it does to the counters.

The tree of a batch has one node for every key in it, with an entry for each of its
occurrences: the first counts one, at the version of the first occurrence, and so on
(`find?_batchTree`).  What the new version holds of a key follows from what the old one
and the batch hold of it (`find?_insertedTree`, `find?_deletedTree`), so everything that
is read from it is a matter of one key at a time.
-/
import Contreap.Proofs.Pam.Frame
import Contreap.Proofs.Pam.Query

namespace Pam

open BinaryTree Cartesian PtrHeap
open scoped UInt64.CommRing

variable {hash : UInt64 → UInt64} {ver v w : Nat} {k : UInt64} {elems xs ys : List UInt64}

/-! ### Occurrences in a batch

A key is in a batch at certain versions, its stamps: the positions at which it occurs,
counted from the first version of the batch.
-/

/-- The versions at which a key occurs, the first element having version `ver`. -/
def stamps (ver : Nat) (k : UInt64) (elems : List UInt64) : List Nat :=
  ((elems.zipIdx ver).filter fun x => x.1 = k).map Prod.snd

@[simp] theorem stamps_nil : stamps ver k [] = [] := rfl

theorem stamps_append :
    stamps ver k (xs ++ ys) = stamps ver k xs ++ stamps (ver + xs.length) k ys := by
  simp only [stamps, List.zipIdx_append, List.filter_append, List.map_append]

theorem stamps_cons (x : UInt64) :
    stamps ver k (x :: xs) = (if x = k then [ver] else []) ++ stamps (ver + 1) k xs := by
  unfold stamps
  rw [List.zipIdx_cons, List.filter_cons]
  by_cases hx : x = k
  · rw [if_pos (by simpa using hx), if_pos hx]
    rfl
  · rw [if_neg (by simpa using hx), if_neg hx]
    rfl

theorem length_stamps : (stamps ver k elems).length = elems.count k := by
  induction elems generalizing ver with
  | nil => rfl
  | cons x xs ih =>
      rw [stamps_cons, List.length_append, ih, List.count_cons]
      by_cases hx : x = k
      · rw [if_pos hx, if_pos (by simpa using hx)]
        exact Nat.add_comm 1 _
      · rw [if_neg hx, if_neg (by simpa using hx)]
        exact Nat.zero_add _

theorem stamps_eq_nil : stamps ver k elems = [] ↔ k ∉ elems := by
  rw [← List.length_eq_zero_iff, length_stamps, List.count_eq_zero]

theorem le_of_mem_stamps : ∀ x ∈ stamps ver k elems, ver ≤ x ∧ x < ver + elems.length := by
  intro x hx
  obtain ⟨⟨e, i⟩, hi, rfl⟩ := List.mem_map.mp hx
  have hmem := (List.mem_filter.mp hi).1
  exact ⟨List.le_snd_of_mem_zipIdx hmem, List.snd_lt_add_of_mem_zipIdx hmem⟩

theorem stamps_sorted : (stamps ver k elems).Pairwise (· < ·) := by
  induction elems generalizing ver with
  | nil => exact List.Pairwise.nil
  | cons x xs ih =>
      rw [stamps_cons]
      by_cases hx : x = k
      · rw [if_pos hx, List.singleton_append, List.pairwise_cons]
        exact ⟨fun y hy => (le_of_mem_stamps y hy).1, ih⟩
      · rw [if_neg hx]
        exact ih

theorem mem_stamps (x : Nat) : x ∈ stamps ver k elems ↔ ver ≤ x ∧ elems[x - ver]? = some k := by
  unfold stamps
  constructor
  · intro hx
    obtain ⟨⟨e, i⟩, hi, rfl⟩ := List.mem_map.mp hx
    obtain ⟨hmem, hk⟩ := List.mem_filter.mp hi
    have hget := List.mk_mem_zipIdx_iff_le_and_getElem?_sub.mp hmem
    simp only [decide_eq_true_eq] at hk
    exact ⟨hget.1, hk ▸ hget.2⟩
  · intro hx
    have hmem := List.mk_mem_zipIdx_iff_le_and_getElem?_sub.mpr hx
    exact List.mem_map.mpr ⟨(k, x), List.mem_filter.mpr ⟨hmem, decide_eq_true rfl⟩, rfl⟩

/-- How many elements have a property and a version up to `v`, the first element having
version `ver`. -/
def countUpTo (ver v : Nat) (P : UInt64 → Prop) [DecidablePred P] (elems : List UInt64) : Nat :=
  (elems.zipIdx ver).countP fun x => P x.1 ∧ x.2 ≤ v

section
variable (P : UInt64 → Prop) [DecidablePred P]

/-- The elements are applied in order. -/
theorem countUpTo_eq_take (ver v : Nat) (elems : List UInt64) :
    countUpTo ver v P elems = (elems.take (v + 1 - ver)).countP P := by
  unfold countUpTo
  induction elems generalizing ver with
  | nil => rw [List.take_nil]; rfl
  | cons x xs ih =>
      rw [List.zipIdx_cons, List.countP_cons, ih (ver + 1)]
      by_cases hv : ver ≤ v
      · have hsucc : v + 1 - ver = (v + 1 - (ver + 1)) + 1 := by omega
        rw [hsucc, List.take_succ_cons, List.countP_cons]
        simp only [hv, and_true]
      · have hzero : v + 1 - ver = 0 := by omega
        have hzero' : v + 1 - (ver + 1) = 0 := by omega
        rw [hzero, hzero', List.take_zero, List.take_zero]
        simp only [hv, and_false, decide_false, Bool.false_eq_true, if_false, add_zero,
          List.countP_nil]

/-- Elements can be counted key by key. -/
theorem sum_count (K : Finset UInt64) (hK : ∀ x ∈ elems, x ∈ K) :
    ∑ k ∈ K with P k, ((elems.count k : Nat) : UInt64) = ((elems.countP P : Nat) : UInt64) := by
  induction elems with
  | nil => exact Finset.sum_eq_zero fun k _ => by rw [List.count_nil, Nat.cast_zero]
  | cons x xs ih =>
      have hone : ∑ k ∈ K with P k, (if k = x then (1 : UInt64) else 0)
          = if P x then 1 else 0 := by
        rw [Finset.sum_ite_eq' (K.filter P) x fun _ => 1]
        refine if_congr ?_ rfl rfl
        rw [Finset.mem_filter]
        exact and_iff_right (hK x List.mem_cons_self)
      have hcons : ∀ k, (((x :: xs).count k : Nat) : UInt64)
          = ((xs.count k : Nat) : UInt64) + if k = x then 1 else 0 := by
        intro k
        by_cases hk : k = x
        · subst hk
          rw [List.count_cons_self, if_pos rfl, Nat.cast_succ]
        · rw [List.count_cons_of_ne (Ne.symm hk), if_neg hk, add_zero]
      rw [Finset.sum_congr rfl fun k _ => hcons k, Finset.sum_add_distrib,
        ih fun y hy => hK y (List.mem_cons_of_mem x hy), hone, List.countP_cons]
      by_cases hx : P x
      · rw [if_pos hx, if_pos (by simpa using hx), Nat.cast_succ]
      · rw [if_neg hx, if_neg (by simpa using hx), add_zero, add_zero]

end

theorem countP_stamps : (stamps ver k elems).countP (· ≤ v) = (elems.take (v + 1 - ver)).count k := by
  rw [List.count_eq_countP, stamps, List.countP_map, List.countP_filter]
  refine Eq.trans (List.countP_congr fun x _ => ?_) ((countUpTo_eq_take (fun x => x = k) ver v elems).trans
    (List.countP_congr fun x _ => ?_))
  · simp [and_comm]
  · simp

/-! ### Counting up

The node of a key in a batch has one entry for every stamp, and counts from one entry to
the next.
-/

/-- Entries that count on from `c`, at the given versions. -/
def numbered (c : UInt64) : List Nat → List ValVer
  | [] => []
  | v :: vs => ⟨c + 1, v⟩ :: numbered (c + 1) vs

theorem numbered_ne_nil {c : UInt64} {st : List Nat} (h : st ≠ []) : numbered c st ≠ [] := by
  cases st with
  | nil => exact absurd rfl h
  | cons v vs => exact List.cons_ne_nil _ _

theorem numbered_append (c : UInt64) (st st' : List Nat) :
    numbered c (st ++ st') = numbered c st ++ numbered (c + (st.length : UInt64)) st' := by
  induction st generalizing c with
  | nil => simp [numbered]
  | cons v vs ih =>
      rw [List.cons_append, numbered, numbered, ih, List.cons_append, List.length_cons,
        Nat.cast_succ, add_assoc c 1, add_comm (1 : UInt64)]

theorem numbered_shift (c e : UInt64) (st : List Nat) :
    (numbered c st).map (fun x => { x with val := x.val + e }) = numbered (c + e) st := by
  induction st generalizing c with
  | nil => rfl
  | cons v vs ih =>
      rw [numbered, List.map_cons, ih, numbered, add_right_comm c 1 e]

theorem numbered_shift' (c e : UInt64) (st : List Nat) :
    (numbered c st).map (fun x => { x with val := e + x.val }) = numbered (c + e) st := by
  rw [← numbered_shift]
  exact List.map_congr_left fun x _ => by rw [add_comm]

/-- The last entry has counted all of them. -/
theorem numbered_last (c : UInt64) {st : List Nat} (h : st ≠ []) :
    (numbered c st).getLast (numbered_ne_nil h)
      = ⟨c + (st.length : UInt64), st.getLast h⟩ := by
  induction st generalizing c with
  | nil => exact absurd rfl h
  | cons v vs ih =>
      cases vs with
      | nil => simp [numbered]
      | cons u us =>
          have hlast := ih (c + 1) (List.cons_ne_nil u us)
          rw [List.getLast_cons (List.cons_ne_nil u us)]
          refine Eq.trans ?_ (hlast.trans ?_)
          · exact List.getLast_cons (numbered_ne_nil (List.cons_ne_nil u us))
          · rw [List.length_cons (a := v), Nat.cast_succ, add_assoc c 1, add_comm (1 : UInt64)]

theorem map_ver_numbered (c : UInt64) (st : List Nat) : (numbered c st).map ValVer.ver = st := by
  induction st generalizing c with
  | nil => rfl
  | cons v vs ih => rw [numbered, List.map_cons, ih]

theorem countP_of_lt {x : Nat} {xs : List Nat} (h : (x :: xs).Pairwise (· < ·)) (hlt : v < x) :
    (x :: xs).countP (· ≤ v) = 0 := by
  refine List.countP_eq_zero.mpr fun y hy => ?_
  rcases List.mem_cons.mp hy with rfl | hy
  · simpa using hlt
  · simpa using hlt.trans ((List.pairwise_cons.mp h).1 y hy)

/-- At a version such entries count the versions up to it, once there is one. -/
theorem findValueFrom_numbered (c : UInt64) (v u : Nat) {st : List Nat}
    (h : st.Pairwise (· < ·)) :
    findValueFrom v ⟨c, u⟩ (numbered c st) = c + (st.countP (· ≤ v) : UInt64) := by
  induction st generalizing c u with
  | nil => simp [numbered, findValueFrom]
  | cons x xs ih =>
      obtain ⟨hx, hxs⟩ := List.pairwise_cons.mp h
      rw [numbered, findValueFrom]
      by_cases hlt : v < x
      · rw [if_pos hlt, countP_of_lt h hlt, Nat.cast_zero, add_zero]
      · rw [if_neg hlt, ih (c + 1) x hxs, List.countP_cons_of_pos (by simpa using hlt),
          Nat.cast_succ, add_assoc, add_comm (1 : UInt64)]

/-- Nothing is counted before the first version. -/
theorem findValue_numbered (c : UInt64) {st : List Nat} (h : st.Pairwise (· < ·)) (hne : st ≠ []) :
    findValue ⟨numbered c st, numbered_ne_nil hne⟩ v
      = if st.countP (· ≤ v) = 0 then 0 else c + (st.countP (· ≤ v) : UInt64) := by
  cases st with
  | nil => exact absurd rfl hne
  | cons x xs =>
      have hfrom := findValueFrom_numbered c v 0 h
      rw [numbered, findValueFrom] at hfrom
      show (if v < x then 0 else findValueFrom v ⟨c + 1, x⟩ (numbered (c + 1) xs)) = _
      by_cases hlt : v < x
      · rw [if_pos hlt, if_pos (countP_of_lt h hlt)]
      · rw [if_neg hlt] at hfrom ⊢
        rw [hfrom, if_neg]
        rw [List.countP_cons_of_pos (by simpa using hlt)]
        exact Nat.succ_ne_zero _

/-! ### What a batch holds of a key -/

/-- The node of a key that occurs at these versions. -/
def batchEntry (hash : UInt64 → UInt64) (k : UInt64) : List Nat → Option Datum
  | [] => none
  | v :: vs => some
      ⟨none, hash k, k, ⟨numbered 0 (v :: vs), numbered_ne_nil (List.cons_ne_nil v vs)⟩,
        augUninitialized⟩

theorem batchEntry_of_ne_nil {st : List Nat} (h : st ≠ []) :
    batchEntry hash k st
      = some ⟨none, hash k, k, ⟨numbered 0 st, numbered_ne_nil h⟩, augUninitialized⟩ := by
  cases st with
  | nil => exact absurd rfl h
  | cons v vs => rfl

/-- Merging two nodes of one key puts the later occurrences after the earlier ones. -/
theorem batchEntry_isSome :
    (batchEntry hash k (stamps ver k elems)).isSome ↔ k ∈ elems := by
  by_cases hk : k ∈ elems
  · rw [batchEntry_of_ne_nil fun hnil => stamps_eq_nil.mp hnil hk]
    exact iff_of_true rfl hk
  · rw [stamps_eq_nil.mpr hk]
    exact iff_of_false Bool.false_ne_true hk

/-- Merging two nodes of one key puts the entries of the later one behind, counted on. -/
theorem merge_batchEntry (st st' : List Nat) :
    Option.merge (Datum.combine mergeValues) (batchEntry hash k st) (batchEntry hash k st')
      = batchEntry hash k (st ++ st') := by
  by_cases h : st = []
  · rw [h, batchEntry, Option.merge_none_left, List.nil_append]
  · by_cases h' : st' = []
    · rw [h', batchEntry, Option.merge_none_right, List.append_nil]
    · rw [batchEntry_of_ne_nil h, batchEntry_of_ne_nil h',
        batchEntry_of_ne_nil (List.append_ne_nil_of_left_ne_nil h st'), Option.merge_some_some]
      refine congrArg (fun vs => some (Datum.mk none (hash k) k vs augUninitialized)) ?_
      refine Subtype.ext ?_
      have hlast : ValVers.last ⟨numbered 0 st, numbered_ne_nil h⟩
          = ⟨0 + (st.length : UInt64), st.getLast h⟩ := numbered_last 0 h
      show numbered 0 st ++ (numbered 0 st').map (fun x => { x with
        val := (ValVers.last ⟨numbered 0 st, numbered_ne_nil h⟩).val + x.val })
          = numbered 0 (st ++ st')
      rw [hlast, numbered_shift', numbered_append, zero_add]

/-- What is found in a tree that is built follows the array in halves. -/
theorem find?_buildTree (hinj : Function.Injective hash) {c : ValVers → ValVers → ValVers}
    {later : Nat → Nat} (E : Nat → List UInt64 → Option Datum) (hnil : ∀ ver, E ver [] = none)
    (hone : ∀ ver x, E ver [x] = if k = x then some (newDatum (hash x) x ⟨1, ver⟩) else none)
    (happend : ∀ ver xs ys, E ver (xs ++ ys)
      = Option.merge (Datum.combine c) (E ver xs) (E (ver + later xs.length) ys)) :
    ∀ fuel ver elems, elems.length < fuel →
      IsTreap Datum.key Datum.pry hash (buildTree hash c later fuel ver elems) ∧
        find? Datum.key k (buildTree hash c later fuel ver elems) = E ver elems := by
  refine build_induction (Q := fun fuel ver elems =>
    IsTreap Datum.key Datum.pry hash (buildTree hash c later fuel ver elems) ∧
      find? Datum.key k (buildTree hash c later fuel ver elems) = E ver elems) later ?_ ?_ ?_
  · intro fuel ver
    exact ⟨trivial, (hnil ver).symm⟩
  · intro fuel ver x
    refine ⟨isTreap_node.mpr ⟨rfl, by simp, by simp, trivial, trivial⟩, ?_⟩
    rw [hone]
    by_cases hk : k = x
    · subst hk
      rw [if_pos rfl]
      exact find?_root (x := newDatum (hash k) k ⟨1, ver⟩)
    · rw [if_neg hk]
      refine find?_eq_none ?_
      simpa [buildTree, newDatum] using hk
  · intro fuel ver elems hlen ⟨htreap₁, hfind₁⟩ ⟨htreap₂, hfind₂⟩
    rw [buildTree_halves hlen]
    refine ⟨htreap₁.unionWith (c := Datum.combine c) hinj (fun _ _ _ => rfl)
      (fun _ _ _ _ => rfl) htreap₂, ?_⟩
    rw [mergeTree, find?_unionWith (c := Datum.combine c) hinj (fun _ _ _ => rfl) htreap₁ htreap₂,
      hfind₁, hfind₂]
    have hhalf : (elems.take (elems.length / 2)).length = elems.length / 2 := by
      rw [List.length_take]
      omega
    have happ := happend ver (elems.take (elems.length / 2)) (elems.drop (elems.length / 2))
    rw [List.take_append_drop, hhalf] at happ
    exact happ.symm

/-- **A batch holds an entry for every occurrence of every key in it.** -/
theorem find?_batchTree (hinj : Function.Injective hash) (ver : Nat) (elems : List UInt64)
    (k : UInt64) :
    find? Datum.key k (batchTree hash ver elems) = batchEntry hash k (stamps ver k elems) := by
  refine (find?_buildTree hinj (fun ver elems => batchEntry hash k (stamps ver k elems))
    (fun _ => rfl) (fun ver x => ?_) (fun ver xs ys => ?_) _ ver elems (Nat.lt_succ_self _)).2
  · by_cases hk : k = x
    · subst hk
      rw [if_pos rfl, stamps_cons, if_pos rfl]
      rfl
    · rw [if_neg hk, stamps_cons, if_neg fun hx => hk hx.symm]
      rfl
  · rw [merge_batchEntry, stamps_append]

theorem isTreap_batchTree (hinj : Function.Injective hash) (ver : Nat) (elems : List UInt64) :
    IsTreap Datum.key Datum.pry hash (batchTree hash ver elems) := by
  refine (find?_buildTree (k := 0) hinj (fun ver elems => batchEntry hash 0 (stamps ver 0 elems))
    (fun _ => rfl) (fun ver x => ?_) (fun ver xs ys => ?_) _ ver elems (Nat.lt_succ_self _)).1
  · by_cases hk : 0 = x
    · subst hk
      rw [if_pos rfl, stamps_cons, if_pos rfl]
      rfl
    · rw [if_neg hk, stamps_cons, if_neg fun hx => hk hx.symm]
      rfl
  · rw [merge_batchEntry, stamps_append]

/-! ### What applying a batch does to a key

As with the trees themselves, what is found after an operation is an equation between
options, up to what a weak copy forgets.
-/

variable {t : Tree} {γ : Type*} {G : Datum → γ} {Q : Datum → Prop}

theorem shift_key (x y : Datum) (h : x.key = y.key) : (Datum.shift x y).key = x.key := h.symm

theorem shift_pry (x y : Datum) (_ : x.key = y.key) (h : x.pry = y.pry) :
    (Datum.shift x y).pry = x.pry := h.symm

theorem isTreap_insertedTree (hinj : Function.Injective hash)
    (ht : IsTreap Datum.key Datum.pry hash t) (ver : Nat) (elems : List UInt64) :
    IsTreap Datum.key Datum.pry hash (insertedTree hash t ver elems) :=
  ht.overlayWith hinj Datum.weak_key Datum.weak_pry shift_key shift_pry
    (isTreap_batchTree hinj ver elems)

theorem isTreap_deletedTree (hinj : Function.Injective hash)
    (ht : IsTreap Datum.key Datum.pry hash t) (ver : Nat) (elems : List UInt64) :
    IsTreap Datum.key Datum.pry hash (deletedTree hash t ver elems) :=
  (ht.subtractWith (f := Datum.weak) (g := Datum.copyIfNeed) hinj (fun _ => rfl) (fun _ => rfl)
    Datum.copyIfNeed_key Datum.copyIfNeed_pry (isTreap_batchTree hinj ver elems)).1

/-- Up to weak copying, an insertion merges what the old tree and the batch hold. -/
theorem find?_insertedTree (hinj : Function.Injective hash) (hQ : ∀ d, Q d → Q d.weak)
    (hG : ∀ d, Q d → G d.weak = G d) (ht : IsTreap Datum.key Datum.pry hash t)
    (htQ : ∀ d ∈ t.inorder, Q d) :
    (find? Datum.key k (insertedTree hash t ver elems)).map G
      = (Option.merge Datum.shift (find? Datum.key k t)
          (batchEntry hash k (stamps ver k elems))).map G := by
  rw [← find?_batchTree hinj]
  exact find?_overlayWith hinj Datum.weak_key Datum.weak_pry shift_key Datum.shift_weak hQ hG ht
    (isTreap_batchTree hinj ver elems) htQ

/-- Up to weak copying, a deletion leaves the keys that are not in the batch. -/
theorem find?_deletedTree (hinj : Function.Injective hash) (hQ : ∀ d, Q d → Q d.weak)
    (hG : ∀ d, Q d → G d.weak = G d) (ht : IsTreap Datum.key Datum.pry hash t)
    (htQ : ∀ d ∈ t.inorder, Q d) :
    (find? Datum.key k (deletedTree hash t ver elems)).map G
      = if k ∈ elems then none else (find? Datum.key k t).map G := by
  have hcopy : ∀ {R : Datum → Prop} (d : Datum), R d → R d.weak → R d.copyIfNeed := by
    intro R d hd hw
    unfold Datum.copyIfNeed
    split
    · exact hd
    · exact hw
  have hsub := find?_subtractWith (k := k) (f := Datum.weak) (g := Datum.copyIfNeed) hinj
    (fun _ => rfl) (fun _ => rfl) Datum.copyIfNeed_key Datum.copyIfNeed_pry hQ
    (fun d hd => hcopy (R := Q) d hd (hQ d hd)) hG
    (fun d hd => hcopy (R := fun e => G e = G d) d rfl (hG d hd)) ht
    (isTreap_batchTree hinj ver elems) htQ
  rw [find?_batchTree hinj] at hsub
  exact hsub.trans (if_congr batchEntry_isSome rfl rfl)

theorem find?_augTree (hG : ∀ d v a, G { d with vstat := v, aug := a } = G d) (k : UInt64)
    (t : Tree) : (find? Datum.key k (augTree t)).map G = (find? Datum.key k t).map G := by
  have hfst : ∀ d : Datum, Prod.fst (d.key, G d) = d.key := fun _ => rfl
  have hmap := congrArg (find? Prod.fst k)
    (augTree_map (fun d => (d.key, G d)) (fun d v a => Prod.ext rfl (hG d v a)) t)
  rw [find?_map hfst, find?_map hfst] at hmap
  have hsnd := congrArg (Option.map Prod.snd) hmap
  simpa only [Option.map_map, Function.comp_def] using hsnd

theorem isTreap_augTree (ht : IsTreap Datum.key Datum.pry hash t) :
    IsTreap Datum.key Datum.pry hash (augTree t) := by
  have hfst : ∀ d : Datum, Prod.fst (d.key, d.pry) = d.key := fun _ => rfl
  have hsnd : ∀ d : Datum, Prod.snd (d.key, d.pry) = d.pry := fun _ => rfl
  rw [← isTreap_map_iff hfst hsnd, augTree_map (fun d => (d.key, d.pry)) fun _ _ _ => rfl]
  exact ht.map hfst hsnd

theorem forall_mem_augTree (hQ : ∀ d v a, Q d → Q { d with vstat := v, aug := a })
    (ht : ∀ d ∈ t.inorder, Q d) : ∀ d ∈ (augTree t).inorder, Q d := by
  induction t with
  | nil => exact ht
  | node d l r ihl ihr =>
      obtain ⟨hd, hl, hr⟩ := forall_mem_inorder_node.mp ht
      by_cases hv : d.vstat = none
      · rw [augTree_of_none hv]
        exact forall_mem_inorder_node.mpr ⟨hQ d _ _ hd, ihl hl, ihr hr⟩
      · rw [augTree_of_some hv]
        exact ht

/-! ### What a version counts

For the versions from the last one of the old tree on, a weak copy is as good as the
node.  This is why the old tree may be copied weakly, and why its earlier versions are
not asked of the new one.
-/

/-- All entries are for versions up to `w`. -/
def VersionsUpTo (w : Nat) (t : Tree) : Prop := ∀ d ∈ t.inorder, ∀ x ∈ d.vals.1, x.ver ≤ w

/-- The last entry of a key. -/
def lastEntry (k : UInt64) (t : Tree) : Option ValVer :=
  (find? Datum.key k t).map fun d => d.vals.last

/-- The last counter of a key, `0` if it is absent. -/
def lastValue (k : UInt64) (t : Tree) : UInt64 := ((lastEntry k t).map ValVer.val).getD 0

theorem findTree_eq_map (v : Nat) (k : UInt64) (t : Tree) :
    findTree v k t = ((find? Datum.key k t).map fun d => findValue d.vals v).getD 0 := by
  unfold findTree
  cases find? Datum.key k t <;> rfl

/-- From the last version on, the last counter is read. -/
theorem findTree_eq_last (ht : VersionsUpTo w t) (hv : w ≤ v) : findTree v k t = lastValue k t := by
  rw [findTree_eq_map, lastValue, lastEntry, Option.map_map]
  cases hx : find? Datum.key k t with
  | none => rfl
  | some d =>
      exact findValue_eq_last fun x hx' => (ht d (mem_of_find? hx) x hx').trans hv

theorem findTree_augTree (v : Nat) (k : UInt64) (t : Tree) :
    findTree v k (augTree t) = findTree v k t := by
  rw [findTree_eq_map, findTree_eq_map, find?_augTree fun _ _ _ => rfl]

theorem lastEntry_augTree (k : UInt64) (t : Tree) : lastEntry k (augTree t) = lastEntry k t :=
  find?_augTree (fun _ _ _ => rfl) k t

/-- The occurrences in a batch count on from the last counter. -/
theorem merge_shift_batchEntry (o : Option Datum) {st : List Nat} (h : st ≠ []) :
    Option.merge Datum.shift o (batchEntry hash k st)
      = some ⟨none, hash k, k, ⟨numbered ((o.map fun d => d.vals.last.val).getD 0) st,
          numbered_ne_nil h⟩, augUninitialized⟩ := by
  rw [batchEntry_of_ne_nil h]
  cases o with
  | none => rfl
  | some d =>
      rw [Option.merge_some_some]
      refine congrArg (fun vs => some (Datum.mk none (hash k) k vs augUninitialized))
        (Subtype.ext ?_)
      show (numbered 0 st).map (fun x => { x with val := x.val + d.vals.last.val }) = _
      rw [numbered_shift, zero_add]
      rfl

/-- A weak copy reads the same from the last version on. -/
theorem findValue_weak {d : Datum} (hd : ∀ x ∈ d.vals.1, x.ver ≤ w) (hv : w ≤ v) :
    findValue d.weak.vals v = findValue d.vals v := by
  rw [findValue_eq_last fun x hx => (hd x hx).trans hv, findValue_eq_last]
  · rfl
  · intro x hx
    rw [List.mem_singleton.mp hx]
    exact (hd _ d.vals.last_mem).trans hv

theorem upTo_weak {d : Datum} (hd : ∀ x ∈ d.vals.1, x.ver ≤ w) : ∀ x ∈ d.weak.vals.1, x.ver ≤ w :=
  fun _ hx => (List.mem_singleton.mp hx) ▸ hd _ d.vals.last_mem

/-- A key occurs in a batch, but only after the version. -/
def Missed (ver v : Nat) (elems : List UInt64) (k : UInt64) : Prop :=
  k ∈ elems ∧ k ∉ elems.take (v + 1 - ver)

/-- It can be tested on the array. -/
instance (ver v : Nat) (elems : List UInt64) : DecidablePred (Missed ver v elems) :=
  fun _ => instDecidableAnd

/--
**What is read after an insertion.**  The occurrences up to the version are added to the
last counter, except that a key is not found at all before its first occurrence.
-/
theorem findTree_insertedTree (hinj : Function.Injective hash)
    (ht : IsTreap Datum.key Datum.pry hash t) (hw : VersionsUpTo w t) (hv : w ≤ v) (ver : Nat)
    (elems : List UInt64) (k : UInt64) :
    findTree v k (insertedTree hash t ver elems)
      = if Missed ver v elems k then 0
        else findTree w k t + ((elems.take (v + 1 - ver)).count k : UInt64) := by
  rw [findTree_eq_map, find?_insertedTree (Q := fun d => ∀ x ∈ d.vals.1, x.ver ≤ w) hinj
    (fun _ => upTo_weak) (fun _ hd => findValue_weak hd hv) ht hw]
  by_cases hk : k ∈ elems
  · have hst : stamps ver k elems ≠ [] := fun hnil => stamps_eq_nil.mp hnil hk
    rw [merge_shift_batchEntry _ hst, Option.map_some, Option.getD_some,
      findValue_numbered _ stamps_sorted hst, countP_stamps, findTree_eq_last hw le_rfl]
    refine (if_congr ?_ rfl ?_)
    · rw [List.count_eq_zero, Missed, and_iff_right hk]
    · rw [lastValue, lastEntry, Option.map_map]
      rfl
  · have hnone : (elems.take (v + 1 - ver)).count k = 0 :=
      List.count_eq_zero.mpr fun hmem => hk (List.mem_of_mem_take hmem)
    rw [stamps_eq_nil.mpr hk, batchEntry, Option.merge_none_right, ← findTree_eq_map,
      if_neg fun hm => hk hm.1, hnone, Nat.cast_zero, add_zero, findTree_eq_last hw hv,
      findTree_eq_last hw le_rfl]

/-- **What is read after a deletion.**  Nothing is left of a key in the batch. -/
theorem findTree_deletedTree (hinj : Function.Injective hash)
    (ht : IsTreap Datum.key Datum.pry hash t) (hw : VersionsUpTo w t) (hv : w ≤ v) (ver : Nat)
    (elems : List UInt64) (k : UInt64) :
    findTree v k (deletedTree hash t ver elems) = if k ∈ elems then 0 else findTree w k t := by
  rw [findTree_eq_map, find?_deletedTree (Q := fun d => ∀ x ∈ d.vals.1, x.ver ≤ w) hinj
    (fun _ => upTo_weak) (fun _ hd => findValue_weak hd hv) ht hw]
  by_cases hk : k ∈ elems
  · rw [if_pos hk, if_pos hk]
    rfl
  · rw [if_neg hk, if_neg hk, ← findTree_eq_map, findTree_eq_last hw hv,
      findTree_eq_last hw le_rfl]

end Pam
