/-
`DB::Sequential` is a multiset with a history.

Every version's root shows a summed, well-formed tree that stores what the calls up
to that version leave of the initial array (`Tracks`).  A call keeps this for the
versions there were, because an update only adds nodes and augmenting only fills in
sums, and establishes it for the version it issues.  What a version answers is then
read off its tree, and no later call changes it.
-/
import Contreap.Model.Sequential
import Contreap.Proofs.Treap.Build
import Contreap.Proofs.Treap.Query

namespace Sequential

open BinaryTree Cartesian PtrHeap Treap

variable {hash : UInt64 → UInt64} {elems : List UInt64} {cs : List Call} {m : Nat} {db : DB}

/-! ### The reference -/

theorem reference_append (cs : List Call) (c : Call) :
    reference elems (cs ++ [c]) = effect (reference elems cs) c := by
  simp [reference]

/-- Every version of a history holds fewer than `2 ^ 64` elements. -/
def Fits (elems : List UInt64) (cs : List Call) : Prop :=
  ∀ i ≤ cs.length, (reference elems (cs.take i)).card < 2 ^ 64

theorem Fits.before {cs' : List Call} (h : Fits elems (cs ++ cs')) : Fits elems cs := by
  intro i hi
  have := h i (by rw [List.length_append]; omega)
  rwa [List.take_append_of_le_length hi] at this

theorem Fits.last (h : Fits elems cs) : (reference elems cs).card < 2 ^ 64 := by
  have := h cs.length (Nat.le_refl _)
  rwa [List.take_length] at this

/-! ### The tree of a version -/

/-- A pointer shows a version: a summed, well-formed tree of the elements. -/
def ShowsVersion (hash : UInt64 → UInt64) (s : Store) (p : Ptr) (elems : Multiset UInt64) : Prop :=
  ∃ u, Shows audited s p u ∧ Summed u ∧ WellFormed hash (map Prod.fst u) ∧
    contents (map Prod.fst u) = elems

/-- The roots of all versions show what the calls leave of the array. -/
structure Tracks (hash : UInt64 → UInt64) (m : Nat) (elems : List UInt64) (cs : List Call)
    (db : DB) : Prop where
  versions : db.numVersions = cs.length
  room : db.roots.size = m + 1
  audited : Audited db.store
  roots : ∀ i ≤ cs.length, ∃ p, db.roots[i]? = some p ∧
    ShowsVersion hash db.store p (reference elems (cs.take i))

theorem ShowsVersion.audits {s s' : Store} {p : Ptr} {es : Multiset UInt64}
    (h : ShowsVersion hash s p es) (hs : Audits s s') : ShowsVersion hash s' p es := by
  obtain ⟨u, hu, hsum, hrest⟩ := h
  exact ⟨u, hs.shows hu hsum, hsum, hrest⟩

theorem ShowsVersion.grows {s s' : Store} {p : Ptr} {es : Multiset UInt64}
    (h : ShowsVersion hash s p es) (hs : Grows s s') : ShowsVersion hash s' p es := by
  obtain ⟨u, hu, hrest⟩ := h
  exact ⟨u, hu.preserved hs.preserves, hrest⟩

/-- A well-formed tree becomes a version once it is augmented. -/
theorem augment_version {s : Store} {p : Ptr} {t : BinaryTree Datum} (haud : Audited s)
    (hp : Shows layout s p t) (ht : WellFormed hash t) :
    ∃ s' v, augment (recursionBound s) s p = some (s', v) ∧ Audits s s' ∧ Audited s' ∧
      ShowsVersion hash s' p (contents t) := by
  have hheight : t.height < recursionBound s := Nat.lt_succ_of_le hp.height_le
  obtain ⟨s', hrun, hs, haud', u, hu, rfl, hsum⟩ := augment_spec haud hp hheight
  exact ⟨s', _, hrun, hs, haud', u, hu, hsum, ht, rfl⟩

/-! ### One call

An update adds nodes to the store, and augmenting it writes sums into nodes that have
none.  Neither changes what an earlier root shows.
-/

/-- What a call does: the roots there were stay, and one is added. -/
structure Issues (hash : UInt64 → UInt64) (db db' : DB) (es : Multiset UInt64) : Prop where
  versions : db'.numVersions = db.numVersions + 1
  size : db'.roots.size = db.roots.size
  same : ∀ i ≤ db.numVersions, db'.roots[i]? = db.roots[i]?
  audited : Audited db'.store
  keeps : ∀ p es, ShowsVersion hash db.store p es → ShowsVersion hash db'.store p es
  root : ∃ p, db'.roots[db.numVersions + 1]? = some p ∧ ShowsVersion hash db'.store p es

/-- There is room for the root, and the others are where they were. -/
theorem setRoot_issues {s : Store} {p : Ptr} {es : Multiset UInt64}
    (hroom : 1 + db.numVersions < db.roots.size) (haud : Audited s)
    (hkeep : ∀ p es, ShowsVersion hash db.store p es → ShowsVersion hash s p es)
    (hp : ShowsVersion hash s p es) :
    ∃ db', setRoot db s (1 + db.numVersions) p = some db' ∧ Issues hash db db' es := by
  refine ⟨_, if_pos hroom, ?_⟩
  constructor
  · exact Nat.add_comm 1 db.numVersions
  · exact Array.size_setIfInBounds
  · intro i hi
    have hne : 1 + db.numVersions ≠ i := by omega
    exact Array.getElem?_setIfInBounds_ne hne
  · exact haud
  · exact hkeep
  · refine ⟨p, ?_, hp⟩
    rw [Nat.add_comm db.numVersions 1]
    exact Array.getElem?_setIfInBounds_self_of_lt hroom

/-- An update followed by augmenting the tree it returns. -/
theorem update_issues {s : Store} {q : Ptr} {t : BinaryTree Datum}
    (hroom : 1 + db.numVersions < db.roots.size) (haud : Audited db.store)
    (hgrow : Grows db.store s) (hq : Shows layout s q t) (ht : WellFormed hash t) :
    ∃ db', (do
        let (s, _) ← augment (recursionBound s) s q
        setRoot db s (1 + db.numVersions) q) = some db' ∧ Issues hash db db' (contents t) := by
  obtain ⟨s', v, hrun, hs, haud', hver⟩ := augment_version (haud.grows hgrow) hq ht
  obtain ⟨db', hset, hissue⟩ := setRoot_issues (p := q) hroom haud'
    (fun p es h => (h.grows hgrow).audits hs) hver
  exact ⟨db', by rw [hrun]; exact hset, hissue⟩

/-- **One call is one step of the reference.** -/
theorem call_issues (hinj : Function.Injective hash) (h : Tracks hash m elems cs db)
    (hroom : cs.length < m) (c : Call) (hfits : (effect (reference elems cs) c).card < 2 ^ 64) :
    ∃ db', call hash db c = some db' ∧ Issues hash db db' (effect (reference elems cs) c) := by
  obtain ⟨p, hp, hver⟩ := h.roots cs.length (Nat.le_refl _)
  rw [List.take_length] at hver
  have hlast : db.roots[1 + db.numVersions - 1]? = some p := by
    rw [Nat.add_sub_cancel_left, h.versions, hp]
  have hsize : 1 + db.numVersions < db.roots.size := by rw [h.versions, h.room]; omega
  obtain ⟨u, hu, hsum, hwf, hcont⟩ := id hver
  have hshow : Shows layout db.store p (map Prod.fst u) := hu.map Prod.fst
  have hheight : (map Prod.fst u).height < recursionBound db.store :=
    Nat.lt_succ_of_le hshow.height_le
  have huniv : ∀ a, db.store.size ≤ a → a ∈ (Set.univ : Set Addr) := fun _ _ => Set.mem_univ _
  cases c with
  | query l r =>
      simp only [call, query, hlast, Option.bind_eq_bind, Option.bind_some]
      exact setRoot_issues hsize h.audited (fun _ _ h => h) hver
  | insert k =>
      have hcard : (contents (map Prod.fst u)).card + 1 < 2 ^ 64 := by
        rw [hcont]
        rwa [effect, Multiset.card_cons] at hfits
      obtain ⟨s, q, hrun, hgrow, hq⟩ :=
        searchInsert_spec (1 + db.numVersions) (hash k) k huniv hshow hheight
      rw [effect, ← hcont, ← contents_insertTree (1 + db.numVersions) (hash k) k hcard]
      simp only [call, insert, hlast, Option.bind_eq_bind, Option.bind_some, hrun]
      exact update_issues hsize h.audited hgrow hq (hwf.insertTree hinj _ k hcard)
  | delete k =>
      obtain ⟨s, q, hrun, hgrow, hq⟩ :=
        searchDelete_spec (1 + db.numVersions) (hash k) k huniv hshow hheight
      rw [effect, ← hcont, ← contents_deleteTree hinj (1 + db.numVersions) k hwf]
      simp only [call, delete, hlast, Option.bind_eq_bind, Option.bind_some, hrun]
      exact update_issues hsize h.audited hgrow hq (hwf.deleteTree hinj _ k)

/-- The roots there were show what they showed, and the new one what the call leaves. -/
theorem Tracks.issues {c : Call} {db' : DB} (h : Tracks hash m elems cs db)
    (hissue : Issues hash db db' (effect (reference elems cs) c)) :
    Tracks hash m elems (cs ++ [c]) db' := by
  constructor
  · rw [hissue.versions, h.versions, List.length_append]
    rfl
  · rw [hissue.size, h.room]
  · exact hissue.audited
  · intro i hi
    by_cases hlast : i = cs.length + 1
    · subst hlast
      obtain ⟨p, hp, hver⟩ := hissue.root
      rw [h.versions] at hp
      refine ⟨p, hp, ?_⟩
      rwa [List.take_of_length_le (by simp), reference_append]
    · have hle : i ≤ cs.length := by
        rw [List.length_append, List.length_singleton] at hi
        omega
      obtain ⟨p, hp, hver⟩ := h.roots i hle
      refine ⟨p, ?_, ?_⟩
      · rw [hissue.same i (by rw [h.versions]; exact hle), hp]
      · rw [List.take_append_of_le_length hle]
        exact hissue.keeps p _ hver

/-! ### A sequence of calls -/

/-- The calls one after the other. -/
theorem calls_tracks (hinj : Function.Injective hash) :
    ∀ (more : List Call) {cs : List Call} {db : DB}, Tracks hash m elems cs db →
      cs.length + more.length ≤ m →
      Fits elems (cs ++ more) →
      ∃ db', calls hash db more = some db' ∧ Tracks hash m elems (cs ++ more) db' := by
  intro more
  induction more with
  | nil =>
      intro cs db h _ _
      exact ⟨db, rfl, by rwa [List.append_nil]⟩
  | cons c more ih =>
      intro cs db h hlen hfits
      rw [List.length_cons] at hlen
      rw [List.append_cons] at hfits ⊢
      have hfits' := hfits.before.last
      rw [reference_append] at hfits'
      obtain ⟨db₁, hrun, hissue⟩ := call_issues hinj h (by omega) c hfits'
      obtain ⟨db', hrun', htrack⟩ := ih (h.issues hissue)
        (by rw [List.length_append, List.length_singleton]; omega) hfits
      exact ⟨db', by rw [calls, hrun, Option.bind_some, hrun'], htrack⟩

theorem audited_empty : Audited ⟨#[]⟩ := by
  intro a n hn
  simp [Heap.get?] at hn

/-- The first version is built and augmented. -/
theorem init_tracks (hinj : Function.Injective hash) (m : Nat) (elems : List UInt64)
    (hroom : elems.length < 2 ^ 64) :
    ∃ db, init hash m elems = some db ∧ Tracks hash m elems [] db := by
  obtain ⟨s, p, t, hrun, hbuilt⟩ :=
    build_spec hinj (s := ⟨#[]⟩) (Nat.lt_succ_self elems.length) hroom
  obtain ⟨s', v, haug, -, haud, hver⟩ := augment_version (audited_empty.grows hbuilt.grows)
    (hbuilt.shows.map Prod.snd) hbuilt.wellFormed
  rw [hbuilt.contents_eq] at hver
  refine ⟨⟨s', 0, (Array.replicate (m + 1) none).setIfInBounds 0 p⟩, ?_, rfl, ?_, haud, ?_⟩
  · simp only [init, buildParallel, augmentParallel, hrun, haug, Option.bind_eq_bind,
      Option.bind_some]
  · simp
  · intro i hi
    obtain rfl : i = 0 := Nat.le_zero.mp hi
    exact ⟨p, by simp, hver⟩

/-! ### What a version answers

All later calls keep the tree of a version and its sums, so its answers can be read off
at any time.
-/

/-- A version answers from its own elements. -/
theorem Tracks.estimate (h : Tracks hash m elems cs db) {i : Nat} (hi : i ≤ cs.length)
    (hroom : (reference elems (cs.take i)).card < 2 ^ 64) (l r : UInt64) :
    ∃ x, estimate db i l r = some x ∧
      x.toNat = countRange l r (reference elems (cs.take i)) := by
  obtain ⟨p, hp, u, hu, hsum, hwf, hcont⟩ := h.roots i hi
  refine ⟨sumRange l r (map Prod.fst u), ?_, ?_⟩
  · simp only [Sequential.estimate, hp, Option.bind_eq_bind, Option.bind_some]
    exact rangeEstimate_spec l r hu hsum hwf.treap.search trivial (Nat.lt_succ_of_le hu.height_le)
  · rw [← hcont] at hroom ⊢
    exact toNat_sumRange l r hroom

/--
**Every version answers range queries from the multiset its calls leave, for good.**
`cs` are the calls so far and `more` any calls after them: version `i` counts the
elements in the range that the first `i` calls leave of the array, and answers the
same before and after the further calls.
-/
theorem estimate_eq_reference (hinj : Function.Injective hash) (m : Nat) (elems : List UInt64)
    (cs more : List Call) (hlen : (cs ++ more).length ≤ m) (hfits : Fits elems (cs ++ more)) :
    ∃ db₀ db db', init hash m elems = some db₀ ∧ calls hash db₀ cs = some db ∧
      calls hash db more = some db' ∧ db.numVersions = cs.length ∧
      ∀ i ≤ cs.length, ∀ l r, ∃ x, estimate db i l r = some x ∧ estimate db' i l r = some x ∧
        x.toNat = countRange l r (reference elems (cs.take i)) := by
  have hroom : elems.length < 2 ^ 64 := by
    simpa [reference] using hfits 0 (Nat.zero_le _)
  rw [List.length_append] at hlen
  obtain ⟨db₀, hinit, h₀⟩ := init_tracks hinj m elems hroom
  obtain ⟨db, hrun, h⟩ := calls_tracks hinj cs h₀ (by simp; omega) hfits.before
  obtain ⟨db', hrun', h'⟩ := calls_tracks hinj more h (by simp; omega) hfits
  simp only [List.nil_append] at h h'
  refine ⟨db₀, db, db', hinit, hrun, hrun', h.versions, fun i hi l r => ?_⟩
  have htake : (cs ++ more).take i = cs.take i := List.take_append_of_le_length hi
  obtain ⟨x, hx, hcount⟩ := h.estimate hi (hfits.before i hi) l r
  have hi' : i ≤ (cs ++ more).length := by rw [List.length_append]; omega
  obtain ⟨y, hy, hcount'⟩ := h'.estimate hi' (hfits i hi') l r
  rw [htake, ← hcount] at hcount'
  exact ⟨x, hx, UInt64.toNat_inj.mp hcount' ▸ hy, hcount⟩

/-- A key inserted above a subtree, an absent key deleted, and a key removed for good. -/
theorem estimate_eq_reference_mixed :
    ∃ db₀ db db', init id 5 [3, 5, 3] = some db₀ ∧
      calls id db₀ [.insert 9, .delete 4, .query 1 7] = some db ∧
      calls id db [.delete 5, .insert 3] = some db' ∧
      ∃ x, estimate db 2 3 9 = some x ∧ estimate db' 2 3 9 = some x ∧ x.toNat = 4 := by
  have hinj : Function.Injective (id : UInt64 → UInt64) := Function.injective_id
  obtain ⟨db₀, db, db', hinit, hrun, hrun', -, hest⟩ :=
    estimate_eq_reference hinj 5 [3, 5, 3] [.insert 9, .delete 4, .query 1 7] [.delete 5, .insert 3]
      (by decide) (by unfold Fits reference; decide)
  obtain ⟨x, hx, hx', hcount⟩ := hest 2 (by decide) 3 9
  exact ⟨db₀, db, db', hinit, hrun, hrun', x, hx, hx', hcount.trans (by decide)⟩

end Sequential
