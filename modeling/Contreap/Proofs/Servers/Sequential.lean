/-
`DB::Sequential` with its clients.

The modifier counts a version before it stores the root of it, and stores the root
before it augments the tree; a query is pushed after all of this.  So the roots that a
query can ask for are those of calls that have returned (`Goes`), and what the modifier
does to the store meanwhile leaves their trees as they are.
-/
import Contreap.Proofs.Servers.Client

open DB (queries queryAt answers expected)

namespace Sequential

open BinaryTree Cartesian PtrHeap Transition
open Treap hiding Call

variable {hash : UInt64 → UInt64} {elems : List UInt64} {calls : List Call} {m n : Nat} {db₀ : DB}
  {s s' : Shared}

theorem Fits.take (h : Fits elems calls) (i : Nat) : (reference elems (calls.take i)).card < 2 ^ 64 := by
  by_cases hi : i ≤ calls.length
  · exact h i hi
  · rw [List.take_of_length_le (by omega)]
    exact h.last

theorem reference_take (elems : List UInt64) {c : Call} {i : Nat} (hc : calls[i]? = some c) :
    reference elems (calls.take (i + 1)) = effect (reference elems (calls.take i)) c := by
  rw [← reference_append, List.take_add_one, hc]
  rfl

/-! ### What the modifier has done

The calls that have returned are those before the one it is in, if it is in any.
-/

/-- How many calls have returned. -/
def Shared.returned (s : Shared) : Nat :=
  match s.modifier with
  | .idle => s.db.numVersions
  | .root _ _ | .augment _ | .push _ _ _ => s.db.numVersions - 1

/-- What the modifier knows in the middle of a call. -/
def Modifier.Knows (hash : UInt64 → UInt64) (elems : List UInt64) (calls : List Call) (db : DB) :
    Modifier → Prop
  | .idle => True
  | .root c ver => ver = db.numVersions ∧ 1 ≤ ver ∧ calls[ver - 1]? = some c
  | .augment ver => ver = db.numVersions ∧ 1 ≤ ver ∧
      (∃ c, calls[ver - 1]? = some c ∧ queryAt (c, ver) = none) ∧
      ∃ p t, db.roots[ver]? = some p ∧ Shows layout db.store p t ∧ WellFormed hash t ∧
        contents t = reference elems (calls.take ver)
  | .push ver l r => ver = db.numVersions ∧ 1 ≤ ver ∧ calls[ver - 1]? = some (.query l r) ∧
      ∃ p, db.roots[ver]? = some p ∧ ShowsVersion hash db.store p (reference elems (calls.take ver))

/-- The roots of all calls that have returned show what the calls leave, and the modifier
knows of the one it is in. -/
structure Goes (hash : UInt64 → UInt64) (m : Nat) (elems : List UInt64) (calls : List Call)
    (s : Shared) : Prop where
  room : s.db.roots.size = m + 1
  bounded : s.db.numVersions ≤ calls.length
  audited : Audited s.db.store
  roots : ∀ i ≤ s.returned, ∃ p, s.db.roots[i]? = some p ∧
    ShowsVersion hash s.db.store p (reference elems (calls.take i))
  knows : s.modifier.Knows hash elems calls s.db

/-- The queries of the calls that have returned. -/
def Shared.asked (calls : List Call) (s : Shared) : List DB.Pushed := queries (calls.take s.returned)

theorem goes_init (h : Tracks hash m elems [] db₀) (calls : List Call) :
    Goes hash m elems calls ⟨db₀, .idle⟩ ∧ Shared.asked calls ⟨db₀, .idle⟩ = [] := by
  have hzero : db₀.numVersions = 0 := h.versions
  refine ⟨⟨h.room, by simp [hzero], h.audited, fun i hi => ?_, trivial⟩, ?_⟩
  · obtain rfl : i = 0 := by
      have : i ≤ db₀.numVersions := hi
      omega
    exact h.roots 0 (Nat.le_refl 0)
  · simp [Shared.asked, Shared.returned, hzero, queries]

/-- Trees that are there stay when a store grows, and when it is augmented. -/
theorem retains_of_grows {st st' : Store} (h : Grows st st') :
    Retains (fun _ => True) st (fun _ => True) st' :=
  ⟨fun _ h => h, fun _ _ hu => hu.shows.preserved h.preserves⟩

theorem retains_of_audits {st st' : Store} (h : Audits st st') :
    Retains (fun _ => True) st (fun _ => True) st' :=
  ⟨fun _ h => h, fun _ _ hu => h.shows hu.shows hu.summed⟩

theorem ShowsVersion.showsElems {st : Store} {p : Ptr} {es : Multiset UInt64}
    (h : ShowsVersion hash st p es) : DB.ShowsElems (fun _ => True) st hash es p := by
  obtain ⟨u, hu, hsum, hrest⟩ := h
  exact ⟨u, ⟨hu, hsum, fun _ _ => trivial⟩, hrest⟩

/-! ### One step

The modifier adds nodes and fills in sums.  A client is in the tree of a call that has
returned, which has all its sums.
-/

/-- The root that a call stores shows what the call leaves. -/
theorem newRoot_spec (hinj : Function.Injective hash) {st : Store} {p : Ptr} {es : Multiset UInt64}
    (ver : Nat) (hp : ShowsVersion hash st p es) (c : Call) (hroom : (effect es c).card < 2 ^ 64) :
    ∃ st' q t, newRoot hash st ver p c = some (st', q) ∧ Grows st st' ∧ Shows layout st' q t ∧
      WellFormed hash t ∧ contents t = effect es c ∧ (∀ l r, c = .query l r → q = p) := by
  obtain ⟨u, hu, hsum, hwf, rfl⟩ := hp
  have hshow : Shows layout st p (map Prod.fst u) := hu.map Prod.fst
  have hheight : (map Prod.fst u).height < recursionBound st := Nat.lt_succ_of_le hshow.height_le
  have huniv : ∀ a, st.size ≤ a → a ∈ (Set.univ : Set Addr) := fun _ _ => Set.mem_univ _
  cases c with
  | query l r => exact ⟨st, p, _, rfl, .refl st, hshow, hwf, rfl, fun _ _ _ => rfl⟩
  | insert k =>
      have hcard : (contents (map Prod.fst u)).card + 1 < 2 ^ 64 := by
        rwa [effect, Multiset.card_cons] at hroom
      obtain ⟨st', q, hrun, hgrow, hq⟩ := searchInsert_spec ver (hash k) k huniv hshow hheight
      exact ⟨st', q, _, hrun, hgrow, hq, hwf.insertTree hinj ver k hcard,
        contents_insertTree ver (hash k) k hcard, fun _ _ heq => absurd heq (by simp)⟩
  | delete k =>
      obtain ⟨st', q, hrun, hgrow, hq⟩ := searchDelete_spec ver (hash k) k huniv hshow hheight
      exact ⟨st', q, _, hrun, hgrow, hq, hwf.deleteTree hinj ver k,
        contents_deleteTree hinj ver k hwf, fun _ _ heq => absurd heq (by simp)⟩

/-- **One step of the modifier**: no pushes, and no tree that a client may be in changes. -/
theorem modifierStep_goes (hinj : Function.Injective hash) (hlen : calls.length ≤ m)
    (hfits : Fits elems calls) (h : Goes hash m elems calls s)
    (hstep : modifierStep hash calls s = some s') :
    Goes hash m elems calls s' ∧ s'.asked calls = s.asked calls ∧
      Retains (fun _ => True) s.db.store (fun _ => True) s'.db.store := by
  obtain ⟨hroom, hbound, haud, hroots, hknows⟩ := h
  obtain ⟨db, mod⟩ := s
  unfold modifierStep at hstep
  cases mod with
  | idle =>
      dsimp only at hstep
      obtain ⟨c, hc, hs'⟩ := Option.bind_eq_some_iff.mp hstep
      cases hs'
      obtain ⟨hlt, -⟩ := List.getElem?_eq_some_iff.mp hc
      have hlt : db.numVersions < calls.length := hlt
      -- Counting the version is the beginning of the call, which has not returned by it.
      have hret : Shared.returned ⟨{ db with numVersions := 1 + db.numVersions },
          .root c (1 + db.numVersions)⟩ = Shared.returned ⟨db, .idle⟩ :=
        Nat.add_sub_cancel_left 1 db.numVersions
      refine ⟨⟨hroom, ?_, haud, hret ▸ hroots, rfl, Nat.le_add_right 1 _, ?_⟩, ?_, .refl _ _⟩
      · show 1 + db.numVersions ≤ calls.length
        omega
      · rw [Nat.add_sub_cancel_left]
        exact hc
      · unfold Shared.asked
        rw [hret]
  | root c ver =>
      obtain ⟨hver, hpos, hc⟩ := hknows
      have hver : ver = db.numVersions := hver
      have hbound : db.numVersions ≤ calls.length := hbound
      dsimp only at hstep
      obtain ⟨tPast, hpast, hstep⟩ := Option.bind_eq_some_iff.mp hstep
      obtain ⟨⟨st, q⟩, hrun, hstep⟩ := Option.bind_eq_some_iff.mp hstep
      obtain ⟨db', hset, hs'⟩ := Option.bind_eq_some_iff.mp hstep
      cases hs'
      obtain ⟨p, hp, hshow⟩ := hroots (ver - 1) (show ver - 1 ≤ db.numVersions - 1 by omega)
      obtain rfl := Option.some.inj (hp.symm.trans hpast)
      have href := reference_take elems hc
      rw [show ver - 1 + 1 = ver by omega] at href
      have hcard := hfits.take ver
      rw [href] at hcard
      -- The root is computed from that of the call before, and is stored where no client looks
      -- yet.
      obtain ⟨st', q', t, hrun', hgrow, hq, hwf, hcont, hquery⟩ := newRoot_spec hinj ver hshow c hcard
      obtain ⟨rfl, rfl⟩ := Prod.mk.inj (Option.some.inj (hrun'.symm.trans hrun))
      rw [← href] at hcont
      have hin : ver < db.roots.size := by
        rw [show db.roots.size = m + 1 from hroom]
        omega
      rw [setRoot, if_pos hin] at hset
      cases hset
      have hself : (db.roots.setIfInBounds ver q')[ver]? = some q' :=
        Array.getElem?_setIfInBounds_self_of_lt hin
      have hret : Shared.returned ⟨⟨st', ver, db.roots.setIfInBounds ver q'⟩, afterRoot ver c⟩
          = Shared.returned ⟨db, .root c ver⟩ := by
        cases c with
        | query l r => exact congrArg (· - 1) hver
        | insert k => exact congrArg (· - 1) hver
        | delete k => exact congrArg (· - 1) hver
      refine ⟨⟨Array.size_setIfInBounds.trans hroom, hver ▸ hbound, haud.grows hgrow, ?_, ?_⟩, ?_,
        retains_of_grows hgrow⟩
      · rw [hret]
        intro i hi
        obtain ⟨p', hp', hshow'⟩ := hroots i hi
        have hne : ver ≠ i := by
          have : i ≤ db.numVersions - 1 := hi
          omega
        exact ⟨p', (Array.getElem?_setIfInBounds_ne hne).trans hp', hshow'.grows hgrow⟩
      · cases c with
        | query l r =>
            obtain rfl := hquery l r rfl
            refine ⟨rfl, hpos, hc, q', hself, ?_⟩
            rw [href]
            exact hshow.grows hgrow
        | insert k => exact ⟨rfl, hpos, ⟨_, hc, rfl⟩, q', t, hself, hq, hwf, hcont⟩
        | delete k => exact ⟨rfl, hpos, ⟨_, hc, rfl⟩, q', t, hself, hq, hwf, hcont⟩
      · unfold Shared.asked
        rw [hret]
  | augment ver =>
      obtain ⟨hver, hpos, ⟨c, hc, hnone⟩, p, t, hp, hshow, hwf, hcont⟩ := hknows
      have hver : ver = db.numVersions := hver
      dsimp only at hstep
      obtain ⟨p', hp', hstep⟩ := Option.bind_eq_some_iff.mp hstep
      obtain rfl := Option.some.inj (hp.symm.trans hp')
      obtain ⟨⟨st, v⟩, hrun, hs'⟩ := Option.bind_eq_some_iff.mp hstep
      cases hs'
      -- With the sums filled in the call returns.  It was no query, so that nothing is pushed.
      obtain ⟨st', v', hrun', haudits, haud', hshow'⟩ := augment_version haud hshow hwf
      obtain ⟨rfl, rfl⟩ := Prod.mk.inj (Option.some.inj (hrun'.symm.trans hrun))
      rw [hcont] at hshow'
      refine ⟨⟨hroom, hbound, haud', fun i hi => ?_, trivial⟩, ?_, retains_of_audits haudits⟩
      · have hi : i ≤ db.numVersions := hi
        by_cases hlast : i = ver
        · subst hlast
          exact ⟨p, hp, hshow'⟩
        · obtain ⟨q, hq, hold⟩ := hroots i (show i ≤ db.numVersions - 1 by omega)
          exact ⟨q, hq, hold.audits haudits⟩
      · have hqueries := DB.queries_take hc
        rw [show ver - 1 + 1 = ver by omega, hnone] at hqueries
        show queries (calls.take db.numVersions) = queries (calls.take (db.numVersions - 1))
        rw [← hver, hqueries]
        exact List.append_nil _
  | push ver l r => cases hstep

/-- A push is the end of a query. -/
theorem push_goes {p : DB.Pushed} (h : Goes hash m elems calls s)
    (hpush : (server hash calls db₀).push s = some (p, s')) :
    Goes hash m elems calls s' ∧ s'.asked calls = s.asked calls ++ [p] ∧ s'.db = s.db := by
  obtain ⟨hroom, hbound, haud, hroots, hknows⟩ := h
  obtain ⟨db, mod⟩ := s
  cases mod with
  | idle => cases hpush
  | root c ver => cases hpush
  | augment ver => cases hpush
  | push ver l r =>
      cases hpush
      obtain ⟨hver, hpos, hc, q, hq, hshow⟩ := hknows
      have hver : ver = db.numVersions := hver
      refine ⟨⟨hroom, hbound, haud, fun i hi => ?_, trivial⟩, ?_, rfl⟩
      · have hi : i ≤ db.numVersions := hi
        by_cases hlast : i = ver
        · subst hlast
          exact ⟨q, hq, hshow⟩
        · exact hroots i (show i ≤ db.numVersions - 1 by omega)
      · have hqueries := DB.queries_take hc
        rw [show ver - 1 + 1 = ver by omega] at hqueries
        show queries (calls.take db.numVersions) = queries (calls.take (db.numVersions - 1)) ++ _
        rw [← hver, hqueries]
        rfl

/-! ### The server and its answers

A root that has been counted and stored belongs to a call that has returned, or to a query
about to be pushed.  The rule for clients that read at a root needs no more than that.
-/

/-- The clients are at roots of calls that have returned. -/
theorem rooted (hinj : Function.Injective hash) (hlen : calls.length ≤ m) (hfits : Fits elems calls)
    (h₀ : Tracks hash m elems [] db₀) :
    DB.Rooted hash elems calls (server hash calls db₀) (fun _ _ => True) (Goes hash m elems calls)
      (Shared.asked calls) (fun _ _ => True) (fun s => s.db.store) (fun s => rootOf s.db)
      (fun _ => True) where
  ask := rfl
  work := rfl
  ret := rfl
  fits := hfits.take
  init := goes_init h₀ calls
  step _ _ _ h _ hstep := modifierStep_goes hinj hlen hfits h hstep
  push s p s' h hpush := by
    obtain ⟨h', hasked, hdb⟩ := push_goes h hpush
    refine ⟨h', hasked, ?_⟩
    rw [hdb]
    exact .refl _ _
  shows s p t h hp _ ht := by
    obtain ⟨-, hle, -⟩ := DB.ver_of_mem_queries hp
    obtain ⟨q, hq, hshow⟩ := h.roots p.ver hle
    unfold rootOf at ht
    split at ht
    · cases ht
    · obtain rfl := Option.some.inj (hq.symm.trans ht)
      exact hshow.showsElems

theorem pushes :
    DB.Pushes (server hash calls db₀) (Goes hash m elems calls) (Shared.asked calls)
      (queries calls) where
  before s _ := DB.queries_take_prefix calls s.returned
  closing s _ hclose := by
    obtain ⟨hidle, hall⟩ : s.modifier = .idle ∧ s.db.numVersions = calls.length :=
      of_decide_eq_true hclose
    unfold Shared.asked Shared.returned
    rw [hidle]
    dsimp only
    rw [hall, List.take_length]

/--
**Whatever `Sequential` has stored for a query is right**, for any number of clients and in
any order of steps: for the `i`-th query it is the number of elements in its range that the
calls up to it leave of the array.  Once `Close` has returned, exactly the answers to all
queries are stored if and only if the queue was empty, or a client in its dequeue loop, when
`Stop` cleared the flag.  A point query for a key that is not stored is never answered: its
client follows the null pointer.
-/
theorem answers_sequential (hash : UInt64 → UInt64) (hinj : Function.Injective hash) (m : Nat)
    (elems : List UInt64) (calls : List Call) (hlen : calls.length ≤ m) (hfits : Fits elems calls)
    (n : Nat) :
    ∃ db₀, init hash m elems = some db₀ ∧
      (∀ s, (DB.system n (server hash calls db₀)).Reachable s →
        ∀ id, ∀ res ∈ s.queryProcessor.results id,
          1 ≤ res.ver ∧ (answers elems calls)[res.ver - 1]? = some res.ret.toNat) ∧
      ∀ s₁ s₂ s₃, (DB.system n (server hash calls db₀)).Reachable s₁ →
        (DB.system n (server hash calls db₀)).step s₁ .stop = some s₂ →
        (DB.system n (server hash calls db₀)).Steps s₂ s₃ →
        s₃.queryProcessor.pusher = .stopped →
        ((DB.stored n s₃.queryProcessor).Perm (expected elems calls) ↔
          QueryProcessor.Draining n s₁.queryProcessor) := by
  have hroom : elems.length < 2 ^ 64 := by
    simpa [reference] using hfits 0 (Nat.zero_le _)
  obtain ⟨db₀, hinit, h₀⟩ := init_tracks hinj m elems hroom
  have hS := (rooted hinj hlen hfits h₀).serves
  have hps : DB.Pushes (server hash calls db₀) (Goes hash m elems calls) (Shared.asked calls)
      (queries calls) := pushes
  have hgood : ∀ {s s'}, (DB.system n (server hash calls db₀)).Steps s s' →
      (DB.system n (server hash calls db₀)).Reach (DB.GoodStep fun _ _ => True) s s' := fun hs =>
    hs.mono fun _ _ _ _ _ => trivial
  have hright : ∀ idx p, ∀ x : UInt64, DB.Issued (queries calls) idx p →
      (True → x.toNat = DB.count elems calls p) → (answers elems calls)[idx - 1]? = some x.toNat :=
    fun _ _ _ hp hx => DB.answer_at hp (hx trivial)
  refine ⟨db₀, hinit, fun s hs id res hres => ?_, fun s₁ s₂ s₃ hs hstop hafter hdone => ?_⟩
  · exact DB.results_answers hS hps hright (hgood hs) hres
  · exact DB.stored_iff_draining hS hps hright (List.length_map _).symm (hgood hs) hstop
      (hgood hafter) hdone

/-- A query between an insertion and a deletion, taken from the queue before `Stop`. -/
theorem answers_sequential_closed :
    ∃ db₀ s, init id 3 [3, 5, 3] = some db₀ ∧
      (DB.system 1 (server id [.insert 9, .query 1 7, .delete 5] db₀)).Reachable s ∧
      s.queryProcessor.pusher = .stopped ∧ (DB.stored 1 s.queryProcessor).Perm [(1, 3)] := by
  obtain ⟨db₀, hinit, -, hclose⟩ := answers_sequential id Function.injective_id 3 [3, 5, 3]
    [.insert 9, .query 1 7, .delete 5] (by decide) (by unfold Fits reference; decide) 1
  have hrun : DB.closesInside 1 (server id [.insert 9, .query 1 7, .delete 5] db₀)
      ([.start, .begin, .begin] ++ List.replicate 5 (.db ()) ++ [.push, .client 0 0] ++
        List.replicate 3 (.db ()))
      (List.replicate 14 (.client 0 0) ++ [.join, .join]) = some true := by
    cases hinit
    rfl
  obtain ⟨s₁, s₂, s₃, hs₁, hstop, hafter, hdone, hdrain⟩ :=
    DB.exists_of_closesInside Nat.one_pos hrun
  have hs₃ := (hs₁.tail .stop trivial hstop).trans hafter
  exact ⟨db₀, s₃, hinit, hs₃, hdone, (hclose s₁ s₂ s₃ hs₁ hstop hafter hdone).mpr hdrain⟩

end Sequential
