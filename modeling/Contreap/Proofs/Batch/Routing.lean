/-
A query finds the root its version belongs to.

`Chained` is what is known of the list while the modifier is anywhere in `do_update_`:
entries are linked both ways in the order they were appended, and their versions do not
fall.  The counter of versions is behind the list, so the entry a client is told of is
there.  `Cursor` is what a client can rely on at each point of its loops: going back it
knows nothing of its entry yet, and going on the entry before its own is too old.
-/
import Contreap.Model.Batch

namespace Batch

open PtrHeap Transition

variable {M N : Type} {T : Backend M N} {db db' : DB M N} {s s' : State M N} {m : Modifier N}
  {k k' : Client}
  {i j id ver : Nat} {a b : Addr} {e e' : RootList N} {t : N} {act : Action} {q : Query}

/-! ### The list

The modifier appends an entry in three writes, and a client may look between any two of
them.  What is missing at each point is counted by `unreached` and `uncounted`.
-/

/-- What is linked but not counted yet. -/
def Modifier.uncounted : Modifier N → Nat
  | .advance _ | .count _ => 1
  | _ => 0

/-- What is linked but not reached by `root_` yet. -/
def Modifier.unreached : Modifier N → Nat
  | .advance _ => 1
  | _ => 0

/-- The list of roots, wherever the modifier is in `do_update_`.  An entry's address is
its place in the list, so that both links of an entry are known; `root_` and the counter
are behind the end by what the modifier has still to do. -/
structure Chained (db : DB M N) (m : Modifier N) : Prop where
  root0 : db.root0 = 0
  root : db.store.size = db.root + m.unreached + 1
  counted : db.store.size = db.numVersions + m.uncounted + 1
  prev : ∀ (i : Nat) (e), db.store.get? i = some e → e.prev = if i = 0 then none else some (i - 1)
  next : ∀ (i : Nat) (e), db.store.get? i = some e →
    e.next = if i + 1 < db.store.size then some (i + 1) else none
  sorted : ∀ (i j : Nat) (e e'), i ≤ j → db.store.get? i = some e → db.store.get? j = some e' →
    e.ver ≤ e'.ver
  committed : ∀ (i : Nat) (e), db.store.get? i = some e → e.ver ≤ db.versionCommitted

theorem chained_init (batchSize : Nat) (mem : M) (t₀ : N) :
    Chained (init batchSize mem t₀) .idle := by
  have hcell : ∀ {i e}, (init batchSize mem t₀).store.get? i = some e → i = 0 ∧ e = ⟨0, t₀, none, none⟩ := by
    intro i e he
    cases i with
    | zero => exact ⟨rfl, (Option.some.inj he).symm⟩
    | succ i => cases he
  refine ⟨rfl, rfl, rfl, fun i e he => ?_, fun i e he => ?_, fun i j e e' _ he he' => ?_,
    fun i e he => ?_⟩
  · obtain ⟨rfl, rfl⟩ := hcell he
    rfl
  · obtain ⟨rfl, rfl⟩ := hcell he
    rfl
  · rw [(hcell he).2, (hcell he').2]
  · rw [(hcell he).2]
    exact Nat.le_refl 0

/-- The entry a number of links away is the one at that address. -/
theorem Chained.follow (h : Chained db m) : ∀ i, i < db.store.size → follow db i = some i := by
  intro i
  induction i with
  | zero => exact fun _ => congrArg some h.root0
  | succ i ih =>
      intro hi
      have hlt : i < db.store.size := Nat.lt_of_succ_lt hi
      obtain ⟨e, he⟩ := Heap.get?_of_lt hlt
      have hnext := h.next i e he
      rw [if_pos hi] at hnext
      simp only [Batch.follow, ih hlt, he, Option.bind_eq_bind, Option.bind_some, hnext]

/-- Only the versions, links and counters matter. -/
theorem Chained.congr (h : Chained db m) {m' : Modifier N} (hstore : db'.store = db.store)
    (hroot0 : db'.root0 = db.root0) (hroot : db'.root = db.root) (hunreached : m'.unreached = m.unreached)
    (hversions : db'.numVersions + m'.uncounted = db.numVersions + m.uncounted)
    (hcommitted : db.versionCommitted ≤ db'.versionCommitted) : Chained db' m' := by
  obtain ⟨h0, hr, hcount, hprev, hnext, hsorted, hle⟩ := h
  refine ⟨hroot0.trans h0, ?_, ?_, ?_, ?_, ?_, ?_⟩
  · rw [hroot, hunreached, hstore, hr]
  · rw [hversions, hstore, hcount]
  · rwa [hstore]
  · rwa [hstore]
  · rwa [hstore]
  · rw [hstore]
    exact fun i e he => (hle i e he).trans hcommitted

/-! ### The writes of `do_update_`

A tree is computed, an entry is appended in three writes, and the counter of versions
moves on.  After each of them the list is in order, with one thing more or less to come.
-/

/-- The tree is computed and its version committed; nothing is linked. -/
theorem Chained.applyBuffer {after : After} (h : Chained db (.update after))
    (hrun : applyBuffer T db = some (db', t)) : Chained db' (.link t after) := by
  simp only [Batch.applyBuffer, Option.bind_eq_bind] at hrun
  obtain ⟨root, -, hrest⟩ := Option.bind_eq_some_iff.mp hrun
  obtain ⟨t', -, heq⟩ := Option.bind_eq_some_iff.mp hrest
  cases heq
  exact h.congr rfl rfl rfl rfl rfl (Nat.le_add_right _ _)

/-- What is at each place of the list after the new entry has been linked. -/
theorem get?_linkNext (h : Chained db (.link t after)) :
    (linkNext db t).store.size = db.store.size + 1 ∧
    (linkNext db t).store.get? db.store.size = some ⟨db.versionCommitted, t, some db.root, none⟩ ∧
    (∀ (i : Nat) (e), db.store.get? i = some e → (linkNext db t).store.get? i
      = some (if i = db.root then { e with next := some db.store.size } else e)) := by
  have hroot := h.root
  have hne : db.store.size ≠ db.root := by
    simp only [Modifier.unreached] at hroot
    omega
  refine ⟨?_, ?_, fun i e he => ?_⟩
  · exact (Heap.size_modify ..).trans (Heap.size_alloc ..)
  · exact (Heap.get?_modify_of_ne hne).trans Heap.get?_alloc_self
  · have hi := Heap.lt_size_of_get? he
    have hold : (db.store.alloc ⟨db.versionCommitted, t, some db.root, none⟩).1.get? i = some e :=
      (Heap.get?_alloc_of_lt hi).trans he
    by_cases heq : i = db.root
    · rw [if_pos heq]
      subst heq
      exact Heap.get?_modify_self hold
    · rw [if_neg heq]
      exact (Heap.get?_modify_of_ne heq).trans hold

/-- **The new entry is linked** at the end, both ways. -/
theorem Chained.linkNext {after : After} (h : Chained db (.link t after)) :
    Chained (linkNext db t) (.advance after) := by
  obtain ⟨hsize, hnew, hold⟩ := get?_linkNext h
  have hroot := h.root
  have hcount := h.counted
  simp only [Modifier.unreached, Modifier.uncounted] at hroot hcount
  -- An entry is the new one or an old one, which is as it was but for the link of the last.
  have hcases : ∀ (i : Nat) (e), (Batch.linkNext db t).store.get? i = some e →
      (i = db.store.size ∧ e = ⟨db.versionCommitted, t, some db.root, none⟩) ∨
      ∃ e₀, db.store.get? i = some e₀ ∧ i < db.store.size ∧
        e = if i = db.root then { e₀ with next := some db.store.size } else e₀ := by
    intro i e he
    have hi := Heap.lt_size_of_get? he
    rw [hsize] at hi
    rcases Nat.lt_succ_iff_lt_or_eq.mp hi with hlt | rfl
    · obtain ⟨e₀, he₀⟩ := Heap.get?_of_lt hlt
      rw [hold i e₀ he₀] at he
      exact Or.inr ⟨e₀, he₀, hlt, (Option.some.inj he).symm⟩
    · rw [hnew] at he
      exact Or.inl ⟨rfl, (Option.some.inj he).symm⟩
  have hver : ∀ (p : Prop) [Decidable p] (e₀ : RootList N) (n : Ptr),
      (if p then { e₀ with next := n } else e₀).ver = e₀.ver := by
    intro p _ e₀ n
    split <;> rfl
  refine ⟨h.root0, ?_, ?_, fun i e he => ?_, fun i e he => ?_, fun i j e e' hij he he' => ?_,
    fun i e he => ?_⟩
  · rw [hsize, hroot]
    rfl
  · rw [hsize, hcount]
    rfl
  · rcases hcases i e he with ⟨rfl, rfl⟩ | ⟨e₀, he₀, -, rfl⟩
    · have hlast : db.store.size - 1 = db.root := by omega
      rw [if_neg (by omega), hlast]
    · rw [← h.prev i e₀ he₀]
      split <;> rfl
  · rw [hsize]
    rcases hcases i e he with ⟨rfl, rfl⟩ | ⟨e₀, he₀, hlt, rfl⟩
    · rw [if_neg (Nat.lt_irrefl _)]
    · rw [if_pos (Nat.succ_lt_succ hlt)]
      by_cases hi : i = db.root
      · have hlast : i + 1 = db.store.size := by omega
        rw [if_pos hi, hlast]
      · rw [if_neg hi, h.next i e₀ he₀, if_pos (by omega)]
  · rcases hcases i e he with ⟨rfl, rfl⟩ | ⟨e₀, he₀, -, rfl⟩
    · rcases hcases j e' he' with ⟨-, rfl⟩ | ⟨-, -, hlt, -⟩
      · exact Nat.le_refl _
      · omega
    · rw [hver]
      rcases hcases j e' he' with ⟨-, rfl⟩ | ⟨e₁, he₁, -, rfl⟩
      · exact h.committed i e₀ he₀
      · rw [hver]
        exact h.sorted i j e₀ e₁ hij he₀ he₁
  · rcases hcases i e he with ⟨-, rfl⟩ | ⟨e₀, he₀, -, rfl⟩
    · exact Nat.le_refl _
    · rw [hver]
      exact h.committed i e₀ he₀

theorem Chained.advanceRoot {after : After} (h : Chained db (.advance after)) :
    ∃ db', advanceRoot db = some db' ∧ Chained db' (.count after) := by
  have hroot := h.root
  simp only [Modifier.unreached] at hroot
  have hlt : db.store.size > db.root := by omega
  obtain ⟨e, he⟩ := Heap.get?_of_lt hlt
  have hnext := h.next _ e he
  rw [if_pos (by omega)] at hnext
  refine ⟨{ db with root := db.root + 1 }, ?_, h.root0, ?_, h.counted, h.prev, h.next, h.sorted,
    h.committed⟩
  · simp only [Batch.advanceRoot, he, hnext, Option.bind_eq_bind, Option.bind_some]
  · exact hroot

/-- **Every step of the modifier keeps the list in order.** -/
theorem chained_modifier (h : Chained s.db s.modifier) (hstep : modifierStep T s = some s') :
    Chained s'.db s'.modifier := by
  unfold modifierStep at hstep
  cases hm : s.modifier with
  | idle =>
      rw [hm] at hstep
      cases hstep
  | enbuffer type key =>
      rw [hm] at hstep h
      cases hstep
      refine h.congr rfl rfl rfl ?_ ?_ (Nat.le_refl _)
      · dsimp only
        split <;> rfl
      · dsimp only
        split <;> rfl
  | update after =>
      rw [hm] at hstep h
      obtain ⟨⟨db, t⟩, hrun, hs'⟩ := Option.bind_eq_some_iff.mp hstep
      cases hs'
      exact h.applyBuffer hrun
  | link t after =>
      rw [hm] at hstep h
      cases hstep
      exact h.linkNext
  | advance after =>
      rw [hm] at hstep h
      obtain ⟨db', hrun, hdb'⟩ := h.advanceRoot
      obtain ⟨db, hrun', hs'⟩ := Option.bind_eq_some_iff.mp hstep
      cases hs'
      obtain rfl := Option.some.inj (hrun'.symm.trans hrun)
      exact hdb'
  | count after =>
      rw [hm] at hstep h
      cases hstep
      have hresume : (resume after : Modifier N).unreached = 0 ∧
          (resume after : Modifier N).uncounted = 0 := by
        cases after <;> exact ⟨rfl, rfl⟩
      refine h.congr rfl rfl rfl hresume.1 ?_ (Nat.le_refl _)
      rw [hresume.2]
      rfl
  | closed =>
      rw [hm] at hstep
      cases hstep

/-! ### What stays of the list

Clients hold addresses of entries across steps of the modifier.  What they rely on is
what `Extends` says: an entry keeps its version, its tree and its link back.
-/

/-- Entries stay, with their versions, trees and links back. -/
structure Extends (db db' : DB M N) : Prop where
  root0 : db'.root0 = db.root0
  versions : db.numVersions ≤ db'.numVersions
  entries : ∀ (i : Nat) (e), db.store.get? i = some e →
    ∃ e', db'.store.get? i = some e' ∧ e'.ver = e.ver ∧ e'.t = e.t ∧ e'.prev = e.prev

theorem Extends.refl (db : DB M N) : Extends db db :=
  ⟨rfl, Nat.le_refl _, fun _ e he => ⟨e, he, rfl, rfl, rfl⟩⟩

theorem Extends.of_store (hstore : db'.store = db.store) (hroot0 : db'.root0 = db.root0)
    (hversions : db.numVersions ≤ db'.numVersions) : Extends db db' :=
  ⟨hroot0, hversions, fun _ e he => ⟨e, hstore ▸ he, rfl, rfl, rfl⟩⟩

theorem applyBuffer_extends (hrun : applyBuffer T db = some (db', t)) : Extends db db' := by
  simp only [applyBuffer, Option.bind_eq_bind] at hrun
  obtain ⟨root, -, hrest⟩ := Option.bind_eq_some_iff.mp hrun
  obtain ⟨t', -, heq⟩ := Option.bind_eq_some_iff.mp hrest
  cases heq
  exact .of_store rfl rfl (Nat.le_refl _)

theorem linkNext_extends {after : After} (h : Chained db (.link t after)) :
    Extends db (linkNext db t) := by
  obtain ⟨-, -, hold⟩ := get?_linkNext h
  refine ⟨rfl, Nat.le_refl _, fun i e he => ⟨_, hold i e he, ?_⟩⟩
  split <;> exact ⟨rfl, rfl, rfl⟩

theorem advanceRoot_extends (hrun : advanceRoot db = some db') : Extends db db' := by
  simp only [advanceRoot, Option.bind_eq_bind] at hrun
  obtain ⟨root, -, hrest⟩ := Option.bind_eq_some_iff.mp hrun
  obtain ⟨next, -, heq⟩ := Option.bind_eq_some_iff.mp hrest
  cases heq
  exact .of_store rfl rfl (Nat.le_refl _)

/-- No step of the modifier takes back what a client relies on. -/
theorem extends_modifier (h : Chained s.db s.modifier) (hstep : modifierStep T s = some s') :
    Extends s.db s'.db := by
  unfold modifierStep at hstep
  cases hm : s.modifier with
  | idle =>
      rw [hm] at hstep
      cases hstep
  | enbuffer type key =>
      rw [hm] at hstep
      cases hstep
      exact .of_store rfl rfl (Nat.le_refl _)
  | update after =>
      rw [hm] at hstep
      obtain ⟨⟨db, t⟩, hrun, hs'⟩ := Option.bind_eq_some_iff.mp hstep
      cases hs'
      exact applyBuffer_extends hrun
  | link t after =>
      rw [hm] at hstep h
      cases hstep
      exact linkNext_extends h
  | advance after =>
      rw [hm] at hstep
      obtain ⟨db, hrun, hs'⟩ := Option.bind_eq_some_iff.mp hstep
      cases hs'
      exact advanceRoot_extends hrun
  | count after =>
      rw [hm] at hstep
      cases hstep
      exact .of_store rfl rfl (Nat.le_succ _)
  | closed =>
      rw [hm] at hstep
      cases hstep

/-! ### Cursors

A client keeps its place in the list from one query to the next, and the place may be
before or behind the root it has to find.
-/

/-- The entry before this one is too old, if there is one. -/
def Past (db : DB M N) (ver : Nat) (e : RootList N) (a : Addr) : Prop :=
  a = db.root0 ∨ ∃ p prev, e.prev = some p ∧ db.store.get? p = some prev ∧ prev.ver < ver

/-- What a client relies on at its entry. -/
def ClientAt.Knows (db : DB M N) (a : Addr) : ClientAt → Prop
  | .idle | .back _ => True
  | .forward q | .inner q => ∃ e, db.store.get? a = some e ∧ Past db q.ver e a
  | .evaluate q => Serves db q.ver a
  | .fault => False

/-- A client's place in the list is the one it counts, and not beyond what it has been
told, which is there. -/
structure Cursor (db : DB M N) (k : Client) : Prop where
  place : k.curVid = k.curRoot
  inside : k.curVid ≤ k.lastVid
  told : k.lastVid ≤ db.numVersions
  knows : k.at_.Knows db k.curRoot

theorem Past.extends (hext : Extends db db') (hprev : e'.prev = e.prev) (h : Past db ver e a) :
    Past db' ver e' a := by
  rcases h with rfl | ⟨p, prev, hp, hget, hlt⟩
  · exact Or.inl hext.root0.symm
  · obtain ⟨prev', hget', hver, -, -⟩ := hext.entries p prev hget
    exact Or.inr ⟨p, prev', hprev.trans hp, hget', hver ▸ hlt⟩

theorem Serves.extends (hext : Extends db db') (h : Serves db ver a) : Serves db' ver a := by
  obtain ⟨e, he, hle, hpast⟩ := h
  obtain ⟨e', he', hver, -, hprev⟩ := hext.entries a e he
  exact ⟨e', he', hver ▸ hle, Past.extends hext hprev hpast⟩

/-- What a client knows of the list is true of any longer one. -/
theorem Cursor.extends (hext : Extends db db') (h : Cursor db k) : Cursor db' k := by
  refine ⟨h.place, h.inside, h.told.trans hext.versions, ?_⟩
  have hknows := h.knows
  have hpast : ∀ {ver}, (∃ e, db.store.get? k.curRoot = some e ∧ Past db ver e k.curRoot) →
      ∃ e, db'.store.get? k.curRoot = some e ∧ Past db' ver e k.curRoot := by
    rintro ver ⟨e, he, hpast⟩
    obtain ⟨e', he', -, -, hprev⟩ := hext.entries _ e he
    exact ⟨e', he', hpast.extends hext hprev⟩
  cases hat : k.at_ with
  | idle => trivial
  | back q => trivial
  | forward q =>
      rw [hat] at hknows
      exact hpast hknows
  | inner q =>
      rw [hat] at hknows
      exact hpast hknows
  | evaluate q =>
      rw [hat] at hknows
      exact Serves.extends hext hknows
  | fault =>
      rw [hat] at hknows
      exact hknows.elim

/-- The entry of a cursor, and how it is linked. -/
theorem Cursor.entry (h : Cursor db k) (hc : Chained db m) :
    ∃ e, db.store.get? k.curRoot = some e ∧ Batch.entry db (some k.curRoot) = some (k.curRoot, e) := by
  have hplace := h.place
  have hinside := h.inside
  have htold := h.told
  have hcount := hc.counted
  have hlt : db.store.size > k.curRoot := by omega
  obtain ⟨e, he⟩ := Heap.get?_of_lt hlt
  exact ⟨e, he, by simp only [Batch.entry, he, Option.bind_eq_bind, Option.bind_some]⟩

/-- **A step of a client keeps its cursor right**, and follows no null pointer. -/
theorem cursor_step (hc : Chained s.db m) (h : Cursor s.db (s.clients id))
    (hstep : clientStep T s id = some s') : Cursor s'.db (s'.clients id) := by
  have hself : ∀ k, ((s.setClient id k).clients id) = k := fun k => Function.update_self ..
  obtain ⟨cur, hcur, hentry⟩ := h.entry hc
  obtain ⟨hplace, hinside, htold, hknows⟩ := h
  have hcount := hc.counted
  unfold clientStep at hstep
  simp only [hentry] at hstep
  cases hat : (s.clients id).at_ with
  | idle =>
      rw [hat] at hstep
      cases hstep
  | fault =>
      rw [hat] at hstep
      cases hstep
  | back q =>
      rw [hat] at hstep
      dsimp only at hstep
      by_cases hroot : (s.clients id).curRoot = s.db.root0
      · rw [if_pos hroot] at hstep
        cases hstep
        rw [hself]
        exact ⟨hplace, hinside, htold, cur, hcur, Or.inl hroot⟩
      · rw [if_neg hroot] at hstep
        -- Only the first entry has no link back.
        have hpos : (s.clients id).curVid ≠ 0 := by
          intro hzero
          exact hroot ((hplace.symm.trans hzero).trans hc.root0.symm)
        -- There is an entry before this one, and it is the one that is listed before.
        have hprev := hc.prev _ cur hcur
        rw [← hplace, if_neg hpos] at hprev
        have hlt : s.db.store.size > (s.clients id).curVid - 1 := by omega
        obtain ⟨prev, hget⟩ := Heap.get?_of_lt hlt
        have hentry' : entry s.db cur.prev = some ((s.clients id).curVid - 1, prev) := by
          simp only [entry, hprev, hget, Option.bind_eq_bind, Option.bind_some]
        rw [hentry'] at hstep
        dsimp only at hstep
        by_cases hle : q.ver ≤ prev.ver
        · rw [if_pos hle] at hstep
          cases hstep
          rw [hself]
          exact ⟨rfl, (Nat.sub_le _ _).trans hinside, htold, trivial⟩
        · rw [if_neg hle] at hstep
          cases hstep
          rw [hself]
          exact ⟨hplace, hinside, htold, cur, hcur,
            Or.inr ⟨_, prev, hprev, hget, Nat.lt_of_not_le hle⟩⟩
  | forward q =>
      rw [hat] at hstep hknows
      cases hstep
      obtain ⟨e, he, hpast⟩ := hknows
      obtain rfl := Option.some.inj (hcur.symm.trans he)
      rw [hself]
      refine ⟨hplace, hinside, htold, ?_⟩
      dsimp only
      split
      · exact ⟨cur, hcur, hpast⟩
      · next hle => exact ⟨cur, hcur, Nat.le_of_not_lt hle, hpast⟩
  | inner q =>
      rw [hat] at hstep hknows
      dsimp only at hstep
      obtain ⟨e, he, hpast⟩ := hknows
      obtain rfl := Option.some.inj (hcur.symm.trans he)
      by_cases hmore : q.ver > cur.ver ∧ (s.clients id).curVid < (s.clients id).lastVid
      · rw [if_pos hmore] at hstep
        have hlt : s.db.store.size > (s.clients id).curVid + 1 := by omega
        have hnext := hc.next _ cur hcur
        rw [← hplace, if_pos hlt] at hnext
        obtain ⟨next, hget⟩ := Heap.get?_of_lt hlt
        have hprev := hc.prev _ next hget
        rw [if_neg (Nat.succ_ne_zero _), Nat.add_sub_cancel] at hprev
        have hentry' : entry s.db cur.next = some ((s.clients id).curVid + 1, next) := by
          simp only [entry, hnext, hget, Option.bind_eq_bind, Option.bind_some]
        rw [hentry'] at hstep
        cases hstep
        rw [hself]
        refine ⟨rfl, hmore.2, htold, ?_⟩
        rw [← hplace] at hcur
        exact ⟨next, hget, Or.inr ⟨_, cur, hprev, hcur, hmore.1⟩⟩
      · rw [if_neg hmore] at hstep
        split at hstep
        · cases hstep
          rw [hself]
          exact ⟨hplace, hinside.trans htold, Nat.le_refl _, cur, hcur, hpast⟩
        · cases hstep
          rw [hself]
          exact ⟨hplace, hinside, htold, cur, hcur, hpast⟩
  | evaluate q =>
      rw [hat] at hstep
      obtain ⟨ret, -, rfl⟩ := Option.map_eq_some_iff.mp hstep
      show Cursor s.db ((s.setClient id _).clients id)
      rw [hself]
      exact ⟨hplace, hinside, htold, trivial⟩

/-! ### The answer belongs to one entry

Versions do not fall along the list, and an entry is taken only if the one before it is
too old.
-/

/-- No two entries serve one version. -/
theorem serves_unique (h : Chained db m) {a b : Nat} (ha : Serves db ver a) (hb : Serves db ver b) :
    a = b := by
  have hle : ∀ {a b : Nat}, Serves db ver a → Serves db ver b → ¬ a < b := by
    rintro a b ⟨e, he, hver, -⟩ ⟨e', he', -, hpast⟩ hlt
    rcases hpast with heq | ⟨p, prev, hp, hget, hold⟩
    · have hzero : b = 0 := heq.trans h.root0
      omega
    · have hprev := h.prev b e' he'
      rw [if_neg (by omega), hp] at hprev
      obtain rfl := Option.some.inj hprev
      have := h.sorted a (b - 1) e prev (by omega) he hget
      omega
  exact Nat.le_antisymm (Nat.not_lt.mp (hle hb ha)) (Nat.not_lt.mp (hle ha hb))

/-! ### Runs

The list keeps its order under the modifier, and a cursor keeps its place under all
others, because they only extend the list.
-/

/-- What holds in every reachable state: the list is in order, and so is every client's
cursor. -/
structure Routed (s : State M N) : Prop where
  chained : Chained s.db s.modifier
  cursors : ∀ id, Cursor s.db (s.clients id)

theorem Routed.modifier (h : Routed s) (hc : Chained s'.db s'.modifier)
    (hext : Extends s.db s'.db) (hclients : s'.clients = s.clients) : Routed s' := by
  refine ⟨hc, ?_⟩
  rw [hclients]
  exact fun id => (h.cursors id).extends hext

/-- A client moves nothing but itself. -/
theorem clientStep_same (hstep : clientStep T s id = some s') :
    s'.db = s.db ∧ s'.modifier = s.modifier ∧ s'.calls = s.calls ∧
      ∀ id', id' ≠ id → s'.clients id' = s.clients id' := by
  have hset : ∀ k, some (s.setClient id k) = some s' → s'.db = s.db ∧ s'.modifier = s.modifier ∧
      s'.calls = s.calls ∧ ∀ id', id' ≠ id → s'.clients id' = s.clients id' := by
    intro k hk
    cases hk
    exact ⟨rfl, rfl, rfl, fun id' hne => Function.update_of_ne hne ..⟩
  unfold clientStep at hstep
  dsimp only at hstep
  split at hstep
  · cases hstep
  · cases hstep
  · split at hstep
    · exact hset _ hstep
    · split at hstep
      · exact hset _ hstep
      · split at hstep
        · exact hset _ hstep
        · exact hset _ hstep
  · exact hset _ hstep
  · split at hstep
    · split at hstep
      · exact hset _ hstep
      · exact hset _ hstep
    · split at hstep
      · exact hset _ hstep
      · exact hset _ hstep
  · obtain ⟨ret, -, rfl⟩ := Option.map_eq_some_iff.mp hstep
    exact ⟨rfl, rfl, rfl, fun id' hne => Function.update_of_ne hne ..⟩
  · exact hset _ hstep

theorem modifierStep_clients (hstep : modifierStep T s = some s') : s'.clients = s.clients := by
  unfold modifierStep at hstep
  split at hstep
  · cases hstep
  · cases hstep
    rfl
  · obtain ⟨x, -, hx⟩ := Option.bind_eq_some_iff.mp hstep
    cases hx
    rfl
  · cases hstep
    rfl
  · obtain ⟨x, -, hx⟩ := Option.bind_eq_some_iff.mp hstep
    cases hx
    rfl
  · cases hstep
    rfl
  · cases hstep

/-- The modifier keeps the list in order and extends it for the clients, and a client
moves by itself. -/
theorem routed_step (h : Routed s) (hstep : step T s act = some s') : Routed s' := by
  cases act with
  | call type key =>
      simp only [step] at hstep
      split at hstep
      · next hm =>
          cases hstep
          have hc := h.chained
          rw [hm] at hc
          refine h.modifier (hc.congr rfl rfl rfl ?_ ?_ (Nat.le_refl _)) (.refl _) rfl
          · dsimp only
            split <;> rfl
          · dsimp only
            split <;> rfl
      · cases hstep
  | close =>
      simp only [step] at hstep
      split at hstep
      · next hm =>
          cases hstep
          have hc := h.chained
          rw [hm] at hc
          refine h.modifier (hc.congr rfl rfl rfl ?_ ?_ (Nat.le_refl _)) (.refl _) rfl
          · dsimp only
            split <;> rfl
          · dsimp only
            split <;> rfl
      · cases hstep
  | modifier =>
      exact h.modifier (chained_modifier h.chained hstep) (extends_modifier h.chained hstep)
        (modifierStep_clients hstep)
  | query id q =>
      simp only [step] at hstep
      split at hstep
      · cases hstep
        refine ⟨h.chained, fun id' => ?_⟩
        by_cases heq : id' = id
        · subst heq
          have hold := h.cursors id'
          simp only [State.setClient, Function.update_self]
          exact ⟨hold.place, hold.inside, hold.told, trivial⟩
        · simp only [State.setClient, Function.update_of_ne heq]
          exact h.cursors id'
      · cases hstep
  | client id =>
      obtain ⟨hdb, hm, -, hothers⟩ := clientStep_same hstep
      have hcursor := cursor_step h.chained (h.cursors id) hstep
      refine ⟨by rw [hdb, hm]; exact h.chained, fun id' => ?_⟩
      by_cases heq : id' = id
      · exact heq ▸ hcursor
      · rw [hdb, hothers id' heq]
        exact h.cursors id'

theorem routed_reachable {batchSize : Nat} {mem : M} {t₀ : N}
    (hs : (system T batchSize mem t₀).Reachable s) : Routed s := by
  refine hs.invariant (I := Routed) (fun _ _ _ h _ hstep => routed_step h hstep)
    ⟨chained_init batchSize mem t₀, fun id => ?_⟩
  exact ⟨rfl, Nat.le_refl _, Nat.le_refl _, trivial⟩

/--
**A client comes to the root that holds its version.**  In every reachable state no client
has followed a null pointer, its index is that of its entry in the list and at most the
count it was last told, and where it evaluates a query its entry is the one and only that
serves the version.
-/
theorem routing {batchSize : Nat} {mem : M} {t₀ : N}
    (hs : (system T batchSize mem t₀).Reachable s) (id : Nat) :
    (s.clients id).at_ ≠ .fault ∧
      follow s.db (s.clients id).curVid = some (s.clients id).curRoot ∧
      (s.clients id).curVid ≤ (s.clients id).lastVid ∧
      (s.clients id).lastVid ≤ s.db.numVersions ∧
      ∀ q, (s.clients id).at_ = .evaluate q →
        ∀ i a, follow s.db i = some a → (Serves s.db q.ver a ↔ a = (s.clients id).curRoot) := by
  obtain ⟨hc, hcursors⟩ := routed_reachable hs
  have hk := hcursors id
  have hcount := hc.counted
  have hplace := hk.place
  have hinside := hk.inside
  have htold := hk.told
  refine ⟨fun hat => ?_, ?_, hinside, htold, fun q hat i a _ => ?_⟩
  · have hknows := hk.knows
    rw [hat] at hknows
    exact hknows
  · rw [hc.follow _ (by omega), hplace]
  · have hknows := hk.knows
    rw [hat] at hknows
    exact ⟨fun ha => serves_unique hc ha hknows, fun heq => heq ▸ hknows⟩

/-- Keys in a list, as a plain instance: the tree is the list of all keys it stores. -/
def keyList : Backend Unit (List UInt64) where
  build _ elems := some ((), elems)
  inserted _ t _ elems := some ((), t ++ elems)
  deleted _ t _ elems := some ((), t.diff elems)
  find _ t _ k := some (t.count k).toUInt64
  rangeEstimate _ t _ l r := some (t.countP fun k => l ≤ k ∧ k ≤ r).toUInt64

/-- Two batches of one key, the first committed empty because the type changes; a client
goes on to version 2 and back to version 1, and is about to answer there. -/
theorem routing_back_and_forth :
    ∃ s, (system keyList 1 () [5]).Reachable s ∧ (s.clients 0).at_ = .evaluate ⟨1, 0, 9⟩ ∧
      follow s.db 2 = some (s.clients 0).curRoot ∧ Serves s.db 1 (s.clients 0).curRoot := by
  obtain ⟨s, hrun⟩ : ∃ s, (system keyList 1 () [5]).run
      (List.flatten [[.call .delete 5], List.replicate 9 .modifier, [.call .delete 7],
        List.replicate 5 .modifier, [.query 0 ⟨2, 0, 9⟩], List.replicate 10 (.client 0),
        [.query 0 ⟨1, 0, 9⟩], List.replicate 3 (.client 0)])
      (start 1 () [5]) = some s := ⟨_, rfl⟩
  have hreach : (system keyList 1 () [5]).Reachable s := System.reach_of_run hrun
  have hstate : (s.clients 0).at_ = .evaluate ⟨1, 0, 9⟩ ∧ (s.clients 0).curVid = 2 := by
    cases hrun
    decide
  obtain ⟨hat, hvid⟩ := hstate
  obtain ⟨-, hfollow, -, -, hserves⟩ := routing hreach 0
  rw [hvid] at hfollow
  exact ⟨s, hreach, hat, hfollow, (hserves _ hat _ _ hfollow).mpr rfl⟩

end Batch
