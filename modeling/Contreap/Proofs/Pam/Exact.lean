/-
Building and reading, node by node.

The tree that `build_versioned` makes of an array has a node for every key, with one
entry for each index at which the key occurs (`buildVersioned_exact`).

What is read from a tree is exact whatever trees it shares nodes with.  `augment_parallel`
stops at a node that has a `vstat`, and in a store in which every such node is the root of
an augmented tree (`Audited`) it is right to: it writes to a node what belongs there, no
tree that was augmented is any different, and the tree it is called on is augmented when it
returns (`augment_audited`).  On a search tree that is augmented `range_estimate` adds up
the nodes in the range, at every version.
-/
import Contreap.Proofs.Pam.Canonical

namespace Pam

open BinaryTree Cartesian PtrHeap
open scoped UInt64.CommRing

variable {hash : UInt64 → UInt64} {s s' : Store} {p : Ptr} {a : Addr} {n : Node} {t u : Tree}
  {ver v : Nat} {k : UInt64} {elems : List UInt64}

/-! ### `build_versioned` -/

/-- The indices at which a key occurs. -/
def indices (k : UInt64) (elems : List UInt64) : List Nat :=
  (List.range elems.length).filter fun i => elems[i]? = some k

/-- Versions and indices differ by the first version. -/
theorem stamps_eq_indices (ver : Nat) (k : UInt64) (elems : List UInt64) :
    stamps ver k elems = (indices k elems).map fun i => ver + i := by
  have hsorted : ((indices k elems).map fun i => ver + i).Pairwise (· < ·) := by
    refine List.pairwise_map.mpr ((List.pairwise_lt_range.filter _).imp fun hlt => ?_)
    exact Nat.add_lt_add_left hlt ver
  have hmem : ∀ x, x ∈ stamps ver k elems ↔ x ∈ (indices k elems).map fun i => ver + i := by
    intro x
    rw [mem_stamps, List.mem_map]
    constructor
    · rintro ⟨hle, hget⟩
      have hlt : x - ver < elems.length := (List.getElem?_eq_some_iff.mp hget).1
      exact ⟨x - ver, List.mem_filter.mpr ⟨List.mem_range.mpr hlt, by simpa using hget⟩, by omega⟩
    · rintro ⟨i, hi, rfl⟩
      have hget := (List.mem_filter.mp hi).2
      exact ⟨Nat.le_add_right ver i, by rw [Nat.add_sub_cancel_left]; simpa using hget⟩
  have hnodup : ∀ {l : List Nat}, l.Pairwise (· < ·) → l.Nodup := fun hl => hl.imp Nat.ne_of_lt
  refine List.Perm.eq_of_pairwise (fun x y _ _ hxy hyx => absurd hxy hyx.not_gt) stamps_sorted hsorted ?_
  exact (List.perm_ext_iff_of_nodup (hnodup stamps_sorted) (hnodup hsorted)).mpr hmem

theorem numbered_eq_mapIdx (c : UInt64) (st : List Nat) :
    numbered c st = st.mapIdx fun j x => ⟨c + ((j + 1 : Nat) : UInt64), x⟩ := by
  induction st generalizing c with
  | nil => rfl
  | cons x xs ih =>
      rw [numbered, List.mapIdx_cons, ih, zero_add, Nat.cast_one]
      refine congrArg _ (congrArg (fun f => List.mapIdx f xs) (funext fun j => funext fun y => ?_))
      rw [Nat.cast_succ (j + 1), add_assoc, add_comm (1 : UInt64)]

theorem mem_keys_batchTree (hinj : Function.Injective hash) :
    k ∈ keys Datum.key (batchTree hash ver elems) ↔ k ∈ elems := by
  rw [(isTreap_batchTree hinj ver elems).mem_keys_iff, find?_batchTree hinj]
  exact batchEntry_isSome

/-- Two treaps over the same keys have one shape. -/
theorem shape_eq (ht : IsTreap Datum.key Datum.pry hash t) (hu : IsTreap Datum.key Datum.pry hash u)
    (h : ∀ k, k ∈ keys Datum.key t ↔ k ∈ keys Datum.key u) :
    t.map (fun d => (d.key, d.pry)) = u.map fun d => (d.key, d.pry) := by
  have hfst : ∀ d : Datum, Prod.fst (d.key, d.pry) = d.key := fun _ => rfl
  have hsnd : ∀ d : Datum, Prod.snd (d.key, d.pry) = d.pry := fun _ => rfl
  have hmem : ∀ {w : Tree}, IsTreap Datum.key Datum.pry hash w → ∀ x,
      x ∈ (w.map fun d => (d.key, d.pry)).inorder ↔ x.1 ∈ keys Datum.key w ∧ x.2 = hash x.1 := by
    intro w hw x
    rw [inorder_map, List.mem_map]
    constructor
    · rintro ⟨d, hd, rfl⟩
      exact ⟨List.mem_map_of_mem hd, hw.prio d hd⟩
    · rintro ⟨hk, hpry⟩
      obtain ⟨d, hd, hdk⟩ := List.mem_map.mp hk
      exact ⟨d, hd, Prod.ext hdk ((hw.prio d hd).trans (by rw [hdk, hpry]))⟩
  refine (ht.map hfst hsnd).eq_of_mem_iff (hu.map hfst hsnd) fun x => ?_
  rw [hmem ht, hmem hu, h]

theorem buildVersioned_spec (hash : UInt64 → UInt64) (s : Store) (ver : Nat) (elems : List UInt64) :
    ∃ s' q, buildVersioned hash (elems.length + 1) s ver elems = some (s', q) ∧
      Heap.Preserves s s' ∧ Shows layout s' q (batchTree hash ver elems) := by
  obtain ⟨s', q, B, hrun, hch, hq, -⟩ := buildWith_spec (D := stampedBelow s.size)
    (fun _ => Iff.rfl) hash mergeValues (fun half => half) _ ver elems (Nat.lt_succ_self _) s le_rfl
  exact ⟨s', q, hrun, hch.preserves (Set.empty_subset _), hq.shows⟩

/--
**A batch is built exactly.**  `build_versioned` returns the treap of the keys of the
array, the only one there is; the entries of a key count its occurrences one by one, each
at the version of its index, and what a node counts at a version is the number of
occurrences up to it.
-/
theorem buildVersioned_exact (hash : UInt64 → UInt64) (hinj : Function.Injective hash) (s : Store)
    (ver : Nat) (elems : List UInt64) :
    ∃ s' q t, buildVersioned hash (elems.length + 1) s ver elems = some (s', q) ∧
      Shows layout s' q t ∧ IsTreap Datum.key Datum.pry hash t ∧
      (∀ k, k ∈ keys Datum.key t ↔ k ∈ elems) ∧
      (∀ u, IsTreap Datum.key Datum.pry hash u → (∀ k, k ∈ keys Datum.key u ↔ k ∈ elems) →
        u.map (fun d => (d.key, d.pry)) = t.map fun d => (d.key, d.pry)) ∧
      ∀ d ∈ t.inorder,
        d.vals.1 = (indices d.key elems).mapIdx (fun j i => ⟨((j + 1 : Nat) : UInt64), ver + i⟩) ∧
        ∀ v, findValue d.vals v
          = (((indices d.key elems).countP fun i => ver + i ≤ v : Nat) : UInt64) := by
  obtain ⟨s', q, hrun, -, hq⟩ := buildVersioned_spec hash s ver elems
  have htreap := isTreap_batchTree hinj ver elems
  refine ⟨s', q, _, hrun, hq, htreap, fun k => mem_keys_batchTree hinj, fun u hu hkeys => ?_,
    fun d hd => ?_⟩
  · exact shape_eq hu htreap fun k => (hkeys k).trans (mem_keys_batchTree hinj).symm
  · obtain ⟨hst, hvals⟩ := vals_of_mem_batchTree hinj hd
    refine ⟨?_, fun v => ?_⟩
    · rw [hvals, stamps_eq_indices, numbered_eq_mapIdx]
      refine List.ext_getElem? fun j => ?_
      rw [List.getElem?_mapIdx, List.getElem?_map, List.getElem?_mapIdx, Option.map_map]
      simp only [Function.comp_def, zero_add]
    · have hnode : d.vals = ⟨numbered 0 (stamps ver d.key elems), numbered_ne_nil hst⟩ :=
        Subtype.ext hvals
      have hcount : (stamps ver d.key elems).countP (· ≤ v)
          = (indices d.key elems).countP fun i => ver + i ≤ v := by
        rw [stamps_eq_indices, List.countP_map]
        rfl
      rw [hnode, findValue_numbered 0 stamps_sorted hst, hcount, zero_add]
      split
      · next hzero => rw [hzero, Nat.cast_zero]
      · rfl

theorem buildVersioned_exact_repeated :
    ∃ s' q t, buildVersioned id 4 ⟨#[]⟩ 5 [7, 3, 7] = some (s', q) ∧ Shows layout s' q t ∧
      IsTreap Datum.key Datum.pry id t ∧ (∀ k, k ∈ keys Datum.key t ↔ k ∈ ([7, 3, 7] : List UInt64)) ∧
      (∀ u, IsTreap Datum.key Datum.pry id u →
        (∀ k, k ∈ keys Datum.key u ↔ k ∈ ([7, 3, 7] : List UInt64)) →
        u.map (fun d => (d.key, d.pry)) = t.map fun d => (d.key, d.pry)) ∧
      ∀ d ∈ t.inorder,
        d.vals.1 = (indices d.key [7, 3, 7]).mapIdx (fun j i => ⟨((j + 1 : Nat) : UInt64), 5 + i⟩) ∧
        ∀ v, findValue d.vals v
          = (((indices d.key [7, 3, 7]).countP fun i => 5 + i ≤ v : Nat) : UInt64) :=
  buildVersioned_exact id Function.injective_id ⟨#[]⟩ 5 [7, 3, 7]

/-! ### What a node counts at a version

`find_value` stops at the first entry that is later than the version.  Since the entries
are in order, it has come past all that are not.
-/

/-- In a sorted list the entries up to a version are a prefix, whose last one is returned.
-/
theorem findValueFrom_eq_filter {x : ValVer} {rest : List ValVer}
    (hs : (x :: rest).Pairwise fun y z => y.ver < z.ver) (hx : x.ver ≤ v) :
    findValueFrom v x rest
      = ((((x :: rest).filter fun y => y.ver ≤ v).getLast?).map ValVer.val).getD 0 := by
  induction rest generalizing x with
  | nil =>
      rw [findValueFrom, List.filter_cons_of_pos (by simpa using hx)]
      rfl
  | cons y rest ih =>
      obtain ⟨-, hrest⟩ := List.pairwise_cons.mp hs
      rw [findValueFrom, List.filter_cons_of_pos (by simpa using hx)]
      by_cases hy : v < y.ver
      · -- The entries are in order, so that none after this one counts.
        have hnone : (y :: rest).filter (fun z => z.ver ≤ v) = [] := by
          refine List.filter_eq_nil_iff.mpr fun z hz => ?_
          rcases List.mem_cons.mp hz with rfl | hz
          · simpa using hy
          · simpa using hy.trans ((List.pairwise_cons.mp hrest).1 z hz)
        rw [if_pos hy, hnone]
        rfl
      · rw [if_neg hy, ih hrest (not_lt.mp hy), List.filter_cons_of_pos (by simpa using hy),
          List.getLast?_cons_cons]

/-- **`find_value` returns the value of the last entry up to the version**, and `0` if there
is none. -/
theorem findValue_eq_filter {vs : ValVers} (hs : vs.1.Pairwise fun y z => y.ver < z.ver) :
    findValue vs v = (((vs.1.filter fun y => y.ver ≤ v).getLast?).map ValVer.val).getD 0 := by
  obtain ⟨l, hne⟩ := vs
  cases l with
  | nil => exact absurd rfl hne
  | cons x rest =>
      show (if v < x.ver then 0 else findValueFrom v x rest) = _
      by_cases hx : v < x.ver
      · have hnone : (x :: rest).filter (fun z => z.ver ≤ v) = [] := by
          refine List.filter_eq_nil_iff.mpr fun z hz => ?_
          rcases List.mem_cons.mp hz with rfl | hz
          · simpa using hx
          · simpa using hx.trans ((List.pairwise_cons.mp hs).1 z hz)
        rw [if_pos hx, hnone]
        rfl
      · rw [if_neg hx]
        exact findValueFrom_eq_filter hs (not_lt.mp hx)

/-! ### Stores with their aggregates in order

Trees share nodes, and augmenting one writes to nodes of others.  As in the persistent
treap, what is written at a node is the only value it can have.
-/

/-- What a node holds besides its aggregates. -/
def Datum.bare (d : Datum) : Datum := { d with vstat := none, aug := augUninitialized }

/-- A store whose aggregates are left out of view. -/
def bareLayout : Layout Node Datum := layout.map Datum.bare

theorem total_bare (t : Tree) : total (t.map Datum.bare) = total t := by
  induction t with
  | nil => rfl
  | node d l r ihl ihr =>
      rw [map_node, total, total, ihl, ihr]
      rfl

theorem lastVersion_bare (t : Tree) : lastVersion (t.map Datum.bare) = lastVersion t := by
  induction t with
  | nil => rfl
  | node d l r ihl ihr =>
      rw [map_node, lastVersion, lastVersion, ihl, ihr]
      rfl

/-- A node that has a `vstat` is the root of an augmented tree. -/
def Audited (s : Store) : Prop :=
  ∀ a n, s.get? a = some n → n.vstat ≠ none → ∃ u, Shows layout s (some a) u ∧ Augmented u

/-- What augmenting does: nothing but aggregates changes, and no tree that was augmented
is any different. -/
structure Audits (s s' : Store) : Prop where
  size : s'.size = s.size
  same : ∀ a n, s.get? a = some n → ∃ v x, s'.get? a = some { n with vstat := v, aug := x }
  kept : ∀ p u, Shows layout s p u → Augmented u → Shows layout s' p u

theorem Audits.refl (s : Store) : Audits s s :=
  ⟨rfl, fun _ n hn => ⟨n.vstat, n.aug, hn⟩, fun _ _ hp _ => hp⟩

theorem Audits.trans {s'' : Store} (h : Audits s s') (h' : Audits s' s'') : Audits s s'' := by
  refine ⟨h'.size.trans h.size, fun a n hn => ?_,
    fun p u hp hu => h'.kept p u (h.kept p u hp hu) hu⟩
  obtain ⟨v, x, hn'⟩ := h.same a n hn
  obtain ⟨w, y, hn''⟩ := h'.same a _ hn'
  exact ⟨w, y, hn''⟩

theorem Audits.bare {S : Set Addr} (h : Audits s s') (hp : Rep bareLayout s S p t) :
    Rep bareLayout s' S p t := by
  refine hp.congr fun a n _ hn _ => ?_
  obtain ⟨v, x, hn'⟩ := h.same a n hn
  exact ⟨_, hn', rfl, rfl, rfl⟩

/-- Storing at a node what belongs there changes no tree that was augmented. -/
theorem audits_setAug (hp : Shows bareLayout s (some a) t) :
    Audits s (setAug s a (total t) (lastVersion t)) := by
  refine ⟨Heap.size_modify, fun b m hm => ?_, fun p u hu => ?_⟩
  · by_cases hba : b = a
    · subst hba
      exact ⟨_, _, Heap.get?_modify_self hm⟩
    · exact ⟨m.vstat, m.aug, (Heap.get?_modify_of_ne hba).trans hm⟩
  · induction hu with
    | nil => exact fun _ => .nil
    | @node b m l r hb hm hl hr ihl ihr =>
        intro hu
        have hl' := ihl hu.2.2.1
        have hr' := ihr hu.2.2.2
        by_cases hba : b = a
        · subst hba
          -- The node on top is written, with the values it has.
          have hwhole : Shows bareLayout s (some b) ((node (layout.shown b m) l r).map Datum.bare) :=
            Rep.map Datum.bare (Rep.node (L := layout) hb hm hl hr)
          have heq : t = _ := hp.unique hwhole
          have hvstat : m.vstat = some (lastVersion t) := by
            rw [heq, lastVersion_bare]
            exact hu.1
          have haug : m.aug = total t := by
            rw [heq, total_bare]
            exact hu.2.1
          have hcell : (setAug s b (total t) (lastVersion t)).get? b = some m := by
            refine (Heap.get?_modify_self hm).trans ?_
            rw [← hvstat, ← haug]
          exact .node (L := layout) hb hcell hl' hr'
        · exact .node (L := layout) hb ((Heap.get?_modify_of_ne hba).trans hm) hl' hr'

/-- The `vstat` of a subtree that is augmented. -/
theorem Augmented.subtreeVstat_eq (hp : Shows layout s p u) (hu : Augmented u) :
    subtreeVstat s p = some (lastVersion u) := by
  cases u with
  | nil =>
      rw [hp.of_nil]
      rfl
  | node d l r =>
      obtain ⟨a, n, rfl, -, hn, rfl, -⟩ := hp.of_node
      rw [subtreeVstat, hn, Option.bind_some]
      exact hu.1

/--
**`augment_parallel` augments its tree**, and changes no other tree: none that was
augmented, and of the others only aggregates.
-/
theorem augment_audited :
    ∀ {t : Tree} {fuel : Nat} {s : Store} {p : Ptr},
      Audited s → Shows bareLayout s p t → t.height < fuel →
      ∃ s', augmentParallel fuel s p = some (s', total t) ∧ Audits s s' ∧ Audited s' ∧
        ∃ u, Shows layout s' p u ∧ u.map Datum.bare = t ∧ Augmented u := by
  intro t
  induction t with
  | nil =>
      intro fuel s p haud hp hfuel
      obtain ⟨fuel, rfl⟩ := succ_of_lt hfuel
      rw [hp.of_nil]
      exact ⟨s, rfl, .refl s, haud, nil, .nil, rfl, trivial⟩
  | node d l r ihl ihr =>
      intro fuel s p haud hp hfuel
      obtain ⟨fuel, rfl⟩ := succ_of_lt hfuel
      have hwhole := hp
      obtain ⟨a, n, rfl, -, hn, rfl, hl, hr⟩ := hp.of_node
      simp only [height] at hfuel
      cases hv : n.vstat with
      | some v =>
          -- A node that has a `vstat` heads a tree that is in order already, and the recursion
          -- stops.
          obtain ⟨u, hu, haugmented⟩ := haud a n hn (by rw [hv]; exact Option.some_ne_none v)
          have heq : u.map Datum.bare = node (bareLayout.shown a n) l r :=
            Rep.unique (L := bareLayout) (hu.map Datum.bare) hwhole
          refine ⟨s, ?_, .refl s, haud, u, hu, heq, haugmented⟩
          obtain ⟨m, ul, ur, -, hm, rfl, -, -⟩ := hu.of_some
          obtain rfl := Option.some.inj (hn.symm.trans hm)
          simp only [augmentParallel, hn, Option.bind_eq_bind, Option.bind_some, hv]
          rw [← heq, total_bare]
          exact congrArg (fun x => some (s, x)) haugmented.2.1
      | none =>
          obtain ⟨s₁, hrun₁, hs₁, haud₁, ul, hul, hml, haugl⟩ :=
            ihl haud (p := n.lch) hl (show l.height < fuel by omega)
          obtain ⟨s₂, hrun₂, hs₂, haud₂, ur, hur, hmr, haugr⟩ :=
            ihr haud₁ (p := n.rch) (hs₁.bare hr) (show r.height < fuel by omega)
          have hs₁₂ := hs₁.trans hs₂
          have hul₂ := hs₂.kept _ _ hul haugl
          have hvl : subtreeVstat s₂ n.lch = some (lastVersion l) := by
            rw [haugl.subtreeVstat_eq hul₂, ← hml, lastVersion_bare]
          have hvr : subtreeVstat s₂ n.rch = some (lastVersion r) := by
            rw [haugr.subtreeVstat_eq hur, ← hmr, lastVersion_bare]
          -- The children are in order after the two calls, and this node is computed from theirs.
          have hset := audits_setAug (hs₁₂.bare hwhole)
          obtain ⟨w, x, hn₂⟩ := hs₁₂.same a n hn
          have hcell := (Heap.get?_modify_self hn₂ : (setAug s₂ a
            (total (node (bareLayout.shown a n) l r))
            (lastVersion (node (bareLayout.shown a n) l r))).get? a = _)
          have hnew := Rep.node (L := layout) (Set.mem_univ a) hcell
            (hset.kept _ _ hul₂ haugl) (hset.kept _ _ hur haugr)
          have hmap := congrArg₂ (node (bareLayout.shown a n)) hml hmr
          have haug : Augmented (node { n.toDatum with
              vstat := some (lastVersion (node (bareLayout.shown a n) l r))
              aug := total (node (bareLayout.shown a n) l r) } ul ur) := by
            refine ⟨?_, ?_, haugl, haugr⟩
            · rw [← hmap, lastVersion, lastVersion, lastVersion_bare, lastVersion_bare]
              rfl
            · rw [← hmap, total, total, total_bare, total_bare]
              rfl
          refine ⟨_, ?_, hs₁₂.trans hset, fun b m hm hne => ?_, _, hnew, hmap, haug⟩
          · simp only [augmentParallel, hn, Option.bind_eq_bind, Option.bind_some, hv, hrun₁, hrun₂,
              hvl, hvr]
            rfl
          · by_cases hba : b = a
            · exact ⟨_, hba ▸ hnew, haug⟩
            · rw [setAug, Heap.get?_modify_of_ne hba] at hm
              obtain ⟨u, hu, haugu⟩ := haud₂ b m hm hne
              exact ⟨u, hset.kept _ _ hu haugu, haugu⟩

/-! ### `range_estimate` -/

theorem sumWhere_bare (P : UInt64 → Prop) [DecidablePred P] (v : Nat) (t : Tree) :
    sumWhere P v (t.map Datum.bare) = sumWhere P v t := by
  induction t with
  | nil => rfl
  | node d l r ihl ihr =>
      rw [map_node, sumWhere, sumWhere, ihl, ihr]
      rfl

/-- The sum over the keys that have a property, as a sum over their nodes. -/
theorem sumWhere_eq_list_sum (P : UInt64 → Prop) [DecidablePred P] (v : Nat) (t : Tree) :
    sumWhere P v t = ((t.inorder.filter fun d => P d.key).map fun d => findValue d.vals v).sum := by
  induction t with
  | nil => rfl
  | node d l r ihl ihr =>
      have hroot : (if P d.key then findValue d.vals v else 0)
          = (([d].filter fun d => P d.key).map fun d => findValue d.vals v).sum := by
        by_cases hd : P d.key
        · simp [hd]
        · simp [hd]
      rw [sumWhere, ihl, ihr, hroot, inorder_node, List.append_cons, List.filter_append,
        List.filter_append, List.map_append, List.map_append, List.sum_append, List.sum_append]

/--
**Range queries are exact at every version.**  When `augment_parallel` has been called on a
search tree whose entries are in the order of their versions, `range_estimate` returns for
every version and any two ends the sum over the nodes in the range of what they count at
the version, and a node counts what its last entry up to the version says.
-/
theorem versioned_range_exact (haud : Audited s) (hp : Shows layout s p t)
    (hsearch : IsSearchTree Datum.key t)
    (hsorted : ∀ d ∈ t.inorder, d.vals.1.Pairwise fun x y => x.ver < y.ver) :
    ∃ s' x, augmentParallel (recursionBound s) s p = some (s', x) ∧ Audited s' ∧
      (∀ v l r, Interface.rangeEstimate s' p v l r = some ((t.inorder.filter fun d =>
        l ≤ d.key ∧ d.key ≤ r).map fun d => findValue d.vals v).sum) ∧
      ∀ d ∈ t.inorder, ∀ v, findValue d.vals v
        = (((d.vals.1.filter fun x => x.ver ≤ v).getLast?).map ValVer.val).getD 0 := by
  have hbare : Shows bareLayout s p (t.map Datum.bare) := hp.map Datum.bare
  obtain ⟨s', hrun, -, haud', u, hu, hmap, haug⟩ :=
    augment_audited haud hbare (Nat.lt_succ_of_le hbare.height_le)
  have hkey : ∀ d : Datum, d.bare.key = d.key := fun _ => rfl
  have hsearch' : IsSearchTree Datum.key u := by
    rwa [← isSearchTree_map (g := Datum.bare) hkey, hmap, isSearchTree_map hkey]
  have hsorted' : ∀ d ∈ u.inorder, d.vals.Sorted := by
    intro d hd
    have hmem : d.bare ∈ (t.map Datum.bare).inorder := by
      rw [← hmap, inorder_map]
      exact List.mem_map_of_mem hd
    rw [inorder_map] at hmem
    obtain ⟨e, he, heq⟩ := List.mem_map.mp hmem
    have hvals : e.bare.vals = d.bare.vals := congrArg Datum.vals heq
    rw [show d.vals = e.vals from hvals.symm]
    exact (hsorted e he).imp Nat.le_of_lt
  refine ⟨s', _, hrun, haud', fun v l r => ?_, fun d hd v => findValue_eq_filter (hsorted d hd)⟩
  have hest : Interface.rangeEstimate s' p v l r = some (sumWhere (InRange l r) v u) :=
    rangeEstimate_spec l r hu hsearch' hsorted' haug trivial (Nat.lt_succ_of_le hu.height_le)
  rw [hest, ← sumWhere_bare, hmap, sumWhere_bare, sumWhere_eq_list_sum]
  rfl

/-- A node with two entries above one with a later entry. -/
def pairStore : Store :=
  ⟨#[⟨⟨none, 1, 3, .single ⟨4, 9⟩, 0⟩, none, none⟩,
    ⟨⟨none, 2, 5, ⟨[⟨1, 2⟩, ⟨2, 6⟩], List.cons_ne_nil _ _⟩, 0⟩, some 0, none⟩]⟩

/-- The tree it shows. -/
def pairTree : Tree :=
  node ⟨none, 2, 5, ⟨[⟨1, 2⟩, ⟨2, 6⟩], List.cons_ne_nil _ _⟩, 0⟩
    (node ⟨none, 1, 3, .single ⟨4, 9⟩, 0⟩ nil nil) nil

theorem versioned_range_exact_pair :
    ∃ s' x, augmentParallel (recursionBound pairStore) pairStore (some 1) = some (s', x) ∧
      Audited s' ∧
      (∀ v l r, Interface.rangeEstimate s' (some 1) v l r = some ((pairTree.inorder.filter fun d =>
        l ≤ d.key ∧ d.key ≤ r).map fun d => findValue d.vals v).sum) ∧
      ∀ d ∈ pairTree.inorder, ∀ v, findValue d.vals v
        = (((d.vals.1.filter fun x => x.ver ≤ v).getLast?).map ValVer.val).getD 0 := by
  refine versioned_range_exact (fun a n hn hne => ?_) ?_ ?_ ?_
  · match a with
    | 0 =>
        cases hn
        exact absurd rfl hne
    | 1 =>
        cases hn
        exact absurd rfl hne
    | a + 2 => cases hn
  · exact .node (L := layout)
      (x := ⟨⟨none, 2, 5, ⟨[⟨1, 2⟩, ⟨2, 6⟩], List.cons_ne_nil _ _⟩, 0⟩, some 0, none⟩)
      (Set.mem_univ _) rfl (.node (L := layout)
        (x := ⟨⟨none, 1, 3, .single ⟨4, 9⟩, 0⟩, none, none⟩) (Set.mem_univ _) rfl .nil .nil) .nil
  · exact ⟨by simp, by simp, ⟨by simp, by simp, trivial, trivial⟩, trivial⟩
  · exact forall_mem_inorder_node.mpr ⟨by decide, forall_mem_inorder_node.mpr
      ⟨by decide, by simp, by simp⟩, by simp⟩

end Pam
