/-
The shape of a tree does not remember its history.

A history is an array to build from and updates applied one after another.  Whatever
it was, it ends in a well-formed tree of what it leaves in the multiset, and a
well-formed tree is fixed by its multiset up to the versions of its nodes.  So any two
histories that end in the same multiset end in the same tree, and building is the
history without updates.
-/
import Contreap.Proofs.Treap.Build

namespace Treap

open BinaryTree Cartesian PtrHeap

/-- An update as a version of its own. -/
inductive Update
  | insert (ver : Nat) (key : UInt64)
  | delete (ver : Nat) (key : UInt64)
  deriving DecidableEq, Repr

/-- It is run on the root of the version before. -/
def Update.run (hash : UInt64 → UInt64) (s : Store) (t : Ptr) : Update → Option (Store × Ptr)
  | .insert ver key => searchInsert (recursionBound s) s ver t (hash key) key
  | .delete ver key => searchDelete (recursionBound s) s ver t (hash key) key

/-- One update after the other. -/
def updates (hash : UInt64 → UInt64) (s : Store) (t : Ptr) : List Update → Option (Store × Ptr)
  | [] => some (s, t)
  | u :: us => (u.run hash s t).bind fun x => updates hash x.1 x.2 us

/-- Build a tree from an array and update it. -/
def history (hash : UInt64 → UInt64) (s : Store) (elems : List UInt64) (us : List Update) :
    Option (Store × Ptr) :=
  (build hash (elems.length + 1) s elems).bind fun x => updates hash x.1 x.2 us

/-- What it does to the multiset. -/
def Update.effect (m : Multiset UInt64) : Update → Multiset UInt64
  | .insert _ key => key ::ₘ m
  | .delete _ key => m.erase key

/-- The multiset a history ends in. -/
def outcome (m : Multiset UInt64) (us : List Update) : Multiset UInt64 := us.foldl Update.effect m

/-- At no point of a history are there `2 ^ 64` elements. -/
def HistoryFits (m : Multiset UInt64) (us : List Update) : Prop :=
  ∀ i ≤ us.length, (outcome m (us.take i)).card < 2 ^ 64

variable {hash : UInt64 → UInt64}

theorem HistoryFits.tail {m : Multiset UInt64} {u : Update} {us : List Update}
    (h : HistoryFits m (u :: us)) : HistoryFits (u.effect m) us :=
  fun i hi => h (i + 1) (Nat.succ_le_succ hi)

theorem HistoryFits.start {m : Multiset UInt64} {us : List Update} (h : HistoryFits m us) :
    m.card < 2 ^ 64 := h 0 (Nat.zero_le _)

/-- One update on a well-formed tree. -/
theorem Update.run_spec (hinj : Function.Injective hash) (u : Update) {s : Store} {p : Ptr}
    {t : BinaryTree Datum} (hp : Shows layout s p t) (ht : WellFormed hash t)
    (hroom : (u.effect (contents t)).card < 2 ^ 64) :
    ∃ s' q t', u.run hash s p = some (s', q) ∧ Shows layout s' q t' ∧ WellFormed hash t' ∧
      contents t' = u.effect (contents t) := by
  have hheight : t.height < recursionBound s := Nat.lt_succ_of_le hp.height_le
  have huniv : ∀ a, s.size ≤ a → a ∈ (Set.univ : Set Addr) := fun _ _ => Set.mem_univ _
  cases u with
  | insert ver key =>
      rw [Update.effect, Multiset.card_cons] at hroom
      obtain ⟨s', q, hrun, -, hq⟩ := searchInsert_spec ver (hash key) key huniv hp hheight
      exact ⟨s', q, _, hrun, hq, ht.insertTree hinj ver key hroom,
        contents_insertTree ver (hash key) key hroom⟩
  | delete ver key =>
      obtain ⟨s', q, hrun, -, hq⟩ := searchDelete_spec ver (hash key) key huniv hp hheight
      exact ⟨s', q, _, hrun, hq, ht.deleteTree hinj ver key, contents_deleteTree hinj ver key ht⟩

/-- The updates one after the other, each on a well-formed tree. -/
theorem updates_spec (hinj : Function.Injective hash) :
    ∀ {us : List Update} {s : Store} {p : Ptr} {t : BinaryTree Datum},
      Shows layout s p t → WellFormed hash t → HistoryFits (contents t) us →
      ∃ s' q t', updates hash s p us = some (s', q) ∧ Shows layout s' q t' ∧
        WellFormed hash t' ∧ contents t' = outcome (contents t) us := by
  intro us
  induction us with
  | nil =>
      intro s p t hp ht _
      exact ⟨s, p, t, rfl, hp, ht, rfl⟩
  | cons u us ih =>
      intro s p t hp ht hfits
      obtain ⟨s₁, p₁, t₁, hrun, hp₁, ht₁, hcont⟩ := u.run_spec hinj hp ht hfits.tail.start
      have htail := hfits.tail
      rw [← hcont] at htail
      obtain ⟨s', q, t', hrest, hq, ht', hcont'⟩ := ih hp₁ ht₁ htail
      exact ⟨s', q, t', by rw [updates, hrun, Option.bind_some, hrest], hq, ht',
        by rw [hcont', hcont]; rfl⟩

/-- A history ends in a well-formed tree of its outcome. -/
theorem history_spec (hinj : Function.Injective hash) (s : Store) {elems : List UInt64}
    {us : List Update} (hfits : HistoryFits elems us) :
    ∃ s' p t, history hash s elems us = some (s', p) ∧ Shows layout s' p t ∧
      WellFormed hash t ∧ contents t = outcome elems us := by
  obtain ⟨s₁, p₁, t₁, hrun, hbuilt⟩ := build_spec hinj (s := s)
    (Nat.lt_succ_self elems.length) (by simpa using hfits.start)
  rw [← hbuilt.contents_eq] at hfits ⊢
  obtain ⟨s', q, t', hrest, hspec⟩ :=
    updates_spec hinj (hbuilt.shows.map Prod.snd) hbuilt.wellFormed hfits
  exact ⟨s', q, t', by rw [history, hrun, Option.bind_some, hrest], hspec⟩

/--
**A history leaves its multiset in the tree, and nothing else.**  Up to versions the
tree is the one built from any array of the multiset, in any order, and the one any
other history with that outcome ends in.
-/
theorem history_independent (hinj : Function.Injective hash) (s : Store) (elems : List UInt64)
    (us : List Update) (hfits : HistoryFits elems us) :
    ∃ s' p t, history hash s elems us = some (s', p) ∧ Shows layout s' p t ∧
      (∀ (s₁ : Store) (listing : List UInt64), (listing : Multiset UInt64) = outcome elems us →
        ∃ s₁' q u, build hash (listing.length + 1) s₁ listing = some (s₁', q) ∧
          Shows layout s₁' q u ∧ u.map Datum.shape = t.map Datum.shape) ∧
      (∀ (s₂ : Store) (elems₂ : List UInt64) (us₂ : List Update), HistoryFits elems₂ us₂ →
        outcome elems₂ us₂ = outcome elems us →
        ∃ s₂' q u, history hash s₂ elems₂ us₂ = some (s₂', q) ∧
          Shows layout s₂' q u ∧ u.map Datum.shape = t.map Datum.shape) := by
  obtain ⟨s', p, t, hrun, hp, ht, hcont⟩ := history_spec hinj s hfits
  refine ⟨s', p, t, hrun, hp, fun s₁ listing hlist => ?_, fun s₂ elems₂ us₂ hfits₂ hsame => ?_⟩
  · have hlen : listing.length < 2 ^ 64 := by
      have hlast := hfits us.length (Nat.le_refl _)
      rwa [List.take_length, ← hlist, Multiset.coe_card] at hlast
    obtain ⟨s₁', q, u, hrun', hbuilt⟩ :=
      build_spec hinj (s := s₁) (Nat.lt_succ_self listing.length) hlen
    refine ⟨s₁', q, _, hrun', hbuilt.shows.map Prod.snd, hbuilt.wellFormed.shape_eq ht ?_⟩
    rw [hbuilt.contents_eq, hlist, hcont]
  · obtain ⟨s₂', q, u, hrun', hq, hu, hcont'⟩ := history_spec hinj s₂ hfits₂
    exact ⟨s₂', q, u, hrun', hq, hu.shape_eq ht (by rw [hcont', hsame, hcont])⟩

/-- An insertion above a subtree and deletions of a key that is absent and of one that is there. -/
theorem history_independent_mixed :
    ∃ s' p t, history id ⟨#[]⟩ [5, 2, 5]
        [.insert 1 7, .delete 2 9, .insert 3 2, .delete 4 5] = some (s', p) ∧
      Shows layout s' p t ∧
      ∃ s₁' q u, build id 5 ⟨#[]⟩ [7, 2, 2, 5] = some (s₁', q) ∧
        Shows layout s₁' q u ∧ u.map Datum.shape = t.map Datum.shape := by
  have hinj : Function.Injective (id : UInt64 → UInt64) := Function.injective_id
  obtain ⟨s', p, t, hrun, hp, hbuild, -⟩ :=
    history_independent hinj ⟨#[]⟩ [5, 2, 5] [.insert 1 7, .delete 2 9, .insert 3 2, .delete 4 5]
      (by unfold HistoryFits outcome; decide)
  exact ⟨s', p, t, hrun, hp, hbuild ⟨#[]⟩ [7, 2, 2, 5] (by unfold outcome; decide)⟩

end Treap
