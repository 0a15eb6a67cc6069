/-
`DB::Batch` with its clients.

A query is pushed with the number of updates before it as its version, and a client
that takes it looks for the root that holds this version while the modifier goes on with
its batches.  What the root counts of a key is never more than the calls before the
query leave of it, and it is as much unless a deletion took more than one of the key, or
the batch of the version has the key only after the query.
-/
import Contreap.Proofs.Batch.Agreement
import Contreap.Proofs.Servers.Sequential

open DB (queries queryAt answers expected count)

namespace Batch

open Cartesian PtrHeap Transition
open Pam (Store findTree sumWhere InRange)
open Sequential (reference Fits)
open scoped UInt64.CommRing

variable {hash : UInt64 → UInt64} {elems : List UInt64} {calls : List Sequential.Call}
  {s s' : Shared Store Ptr} {k k' : Local} {p : DB.Pushed} {n v w : Nat}

/-! ### What a root answers

The query is asked at the number of updates before it, and more updates may be in the
batch that its root holds.  Those can hide a key from the query, and nothing else about
them matters.
-/

/-- A root never counts more than the reference. -/
theorem Listed.evaluate_le {us : List Pam.Call} {mem : Store} {p : Ptr} {cs : List Sequential.Call}
    (h : Listed hash elems us mem n w p) (hn : n ≤ v) (hv : v ≤ w) (hcs : us.take v = updatesOf cs)
    (hroom : (reference elems cs).card < 2 ^ 64) (l r : UInt64) :
    ∃ x, (Pam.interface hash).rangeEstimate mem p v l r = some x ∧
      x.toNat ≤ Treap.countRange l r (reference elems cs) := by
  obtain ⟨t, ht, hwf, hfind⟩ := h.findTree_eq hn hv
  refine ⟨_, Pam.interface_rangeEstimate ht hwf v l r, ?_⟩
  let K : Finset UInt64 := (keys Pam.Datum.key t).toFinset ∪ (reference elems cs).toFinset
  have hcount : Treap.countRange l r (reference elems cs)
      = ∑ k ∈ K with InRange l r k, (reference elems cs).count k :=
    countRange_eq_sum l r _ fun k hk => Finset.mem_union_right _ (Multiset.mem_toFinset.mpr hk)
  have hle : ∑ k ∈ K with InRange l r k, shown elems us n v w k
      ≤ Treap.countRange l r (reference elems cs) := by
    rw [hcount]
    exact Finset.sum_le_sum fun k _ => shown_le hcs
  have hfits : Treap.countRange l r (reference elems cs) < 2 ^ 64 :=
    (Multiset.countP_le_card _ _).trans_lt hroom
  rw [Pam.sumWhere_eq_sum hwf.treap K fun k hk => Finset.mem_union_left _ (List.mem_toFinset.mpr hk),
    Finset.sum_congr rfl fun k _ => hfind k, ← Nat.cast_sum]
  rw [show (((∑ k ∈ K with InRange l r k, shown elems us n v w k : Nat) : UInt64)).toNat
    = ∑ k ∈ K with InRange l r k, shown elems us n v w k from
      UInt64.toNat_ofNat_of_lt' (hle.trans_lt hfits)]
  exact hle

/-- No key in the range of a query had more than one taken away, and those that are stored
are not touched by any later update. -/
def Undisturbed (elems : List UInt64) (calls : List Sequential.Call) (p : DB.Pushed) : Prop :=
  ∀ k, p.l ≤ k → k ≤ p.r → Clean elems (calls.take p.ver) k ∧
    (k ∈ (updatesOf (calls.drop p.ver)).map Prod.snd → (reference elems (calls.take p.ver)).count k = 0)

/-- The updates before a position, and those after it that have been made. -/
theorem updates_split {ver i : Nat}
    (hle : (updatesOf (calls.take ver)).length ≤ (updatesOf (calls.take i)).length) :
    (updatesOf (calls.take i)).take (updatesOf (calls.take ver)).length = updatesOf (calls.take ver) ∧
      ∀ w, ((updatesOf (calls.take i)).take w).drop (updatesOf (calls.take ver)).length
        ⊆ updatesOf (calls.drop ver) := by
  have hall : ∀ j, updatesOf (calls.take j) ++ updatesOf (calls.drop j) = updatesOf calls := by
    intro j
    rw [← updatesOf_append, List.take_append_drop]
  constructor
  · calc (updatesOf (calls.take i)).take (updatesOf (calls.take ver)).length
        = (updatesOf (calls.take i) ++ updatesOf (calls.drop i)).take
            (updatesOf (calls.take ver)).length := (List.take_append_of_le_length hle).symm
      _ = updatesOf (calls.take ver) := by
          rw [hall i, ← hall ver]
          exact List.take_left' rfl
  · intro w
    have hrest : (updatesOf (calls.take i)).drop (updatesOf (calls.take ver)).length
        ++ updatesOf (calls.drop i) = updatesOf (calls.drop ver) := by
      rw [← List.drop_append_of_le_length hle, hall i, ← hall ver]
      exact List.drop_left' rfl
    rw [List.drop_take, ← hrest]
    exact List.Subset.trans (List.take_subset _ _) (List.subset_append_left _ _)

/-- A query as it is pushed: its version is the number of updates before it. -/
def rebase (calls : List Sequential.Call) (p : DB.Pushed) : DB.Pushed :=
  { p with ver := (updatesOf (calls.take p.ver)).length }

/-- What may be answered to a query that has been pushed. -/
def Bounded (elems : List UInt64) (calls : List Sequential.Call) (q : DB.Pushed) (x : UInt64) : Prop :=
  ∀ p, rebase calls p = q → x.toNat ≤ count elems calls p ∧
    (Undisturbed elems calls p → x.toNat = count elems calls p)

/-- **The root that serves a query answers it** from the calls before, as far as it can. -/
theorem evaluate_bounded {db : DB Store Ptr} {m : Modifier Ptr} {i : Nat} {a : Addr}
    {e : RootList Ptr} {x : UInt64} (hfits : Fits elems calls)
    (hver : Versions hash elems (updatesOf (calls.take i)) db m) (he : db.store.get? a = some e)
    (hserves : Serves db (rebase calls p).ver a)
    (hx : evaluate (Pam.interface hash) db.mem e ⟨(rebase calls p).ver, p.l, p.r⟩ = some x) :
    x.toNat ≤ count elems calls p ∧ (Undisturbed elems calls p → x.toNat = count elems calls p) := by
  obtain ⟨e', he', hver', -⟩ := id hserves
  obtain rfl := Option.some.inj (he.symm.trans he')
  have hlisted := hver.entries a e he
  have hbase := base_le_of_serves hver.chained hserves
  obtain ⟨t, -, hversion, -⟩ := id hlisted
  obtain ⟨hcs, hlater⟩ := updates_split (hver'.trans hversion.le)
  have hroom := hfits.take p.ver
  -- Point queries return the same as range queries of one key.
  have hest : (Pam.interface hash).rangeEstimate db.mem e.t (rebase calls p).ver p.l p.r = some x := by
    unfold evaluate at hx
    split at hx
    · next hlr =>
        have hlr : p.l = p.r := hlr
        obtain ⟨t, ht, hwf, -⟩ := hlisted.findTree_eq hbase hver'
        obtain ⟨y, hy, hy'⟩ := Pam.point_eq ht hwf (rebase calls p).ver p.l
        have hx : (Pam.interface hash).find db.mem e.t (rebase calls p).ver p.l = some x := hx
        obtain rfl := Option.some.inj (Eq.trans (Eq.symm hy) hx)
        rw [← hlr]
        exact hy'
    · exact hx
  obtain ⟨y, hy, hbound⟩ := hlisted.evaluate_le hbase hver' hcs hroom p.l p.r
  obtain rfl := Option.some.inj (hest.symm.trans hy)
  refine ⟨hbound, fun hcalm => ?_⟩
  have hfits' : count elems calls p < 2 ^ 64 := (Multiset.countP_le_card _ _).trans_lt hroom
  obtain ⟨z, hz, hiff⟩ := hlisted.evaluate_iff hbase hver' hcs hroom
    (y := (count elems calls p : UInt64)) (UInt64.toNat_ofNat_of_lt' hfits')
  obtain rfl := Option.some.inj (hest.symm.trans hz)
  rw [hiff.mpr fun k hl hr => ?_]
  · exact UInt64.toNat_ofNat_of_lt' hfits'
  · obtain ⟨hclean, hnone⟩ := hcalm k hl hr
    unfold Faithful
    split
    · next hhidden =>
        exact hnone (List.map_subset _ (hlater _) hhidden.1)
    · exact hclean

/-! ### The modifier

It is in one call at a time.  A query has been counted among the calls made when it is
pushed, and its version is the number of updates among the calls before it.
-/

/-- The queries that have been pushed. -/
def Shared.asked (calls : List Sequential.Call) (s : Shared Store Ptr) : List DB.Pushed :=
  (queries (calls.take s.made)).map (rebase calls)

/-- `do_update_` has been called by `Close`. -/
def After.ending : After → Bool
  | .close => true
  | .enbuffer _ _ | .return => false

/-- The modifier is in `Close`. -/
def Modifier.ending : Modifier Ptr → Bool
  | .idle | .enbuffer _ _ => false
  | .update after | .link _ after | .advance after | .count after => after.ending
  | .closed => true

/-- The modifier has made these calls, the roots hold their versions, and it closes only
after the last. -/
structure Goes (hash : UInt64 → UInt64) (elems : List UInt64) (calls : List Sequential.Call)
    (s : Shared Store Ptr) : Prop where
  made : s.state.calls = updatesOf (calls.take s.made)
  versions : Versions hash elems s.state.calls s.state.db s.state.modifier
  ending : s.state.modifier.ending = true → calls.length ≤ s.made

theorem take_succ {i : Nat} {c : Sequential.Call} (hc : calls[i]? = some c) :
    updatesOf (calls.take (i + 1)) = updatesOf (calls.take i) ++ (toUpdate c).toList := by
  rw [List.take_add_one, hc, Option.toList_some, updatesOf_append]
  cases c with
  | query l r => rfl
  | insert x => rfl
  | delete x => rfl

/-- An update adds no query. -/
theorem asked_update {i : Nat} {c : Sequential.Call} (hc : calls[i]? = some c)
    (hnone : queryAt (c, i + 1) = none) {t t' : State Store Ptr} :
    Shared.asked calls ⟨t', i + 1⟩ = Shared.asked calls ⟨t, i⟩ := by
  unfold Shared.asked
  rw [DB.queries_take hc, hnone]
  exact congrArg _ (List.append_nil _)

/-- Once `Close` has begun the modifier does not come back to a point between calls. -/
theorem modifierStep_ending {t t' : State Store Ptr}
    (hstep : modifierStep (Pam.interface hash) t = some t') :
    t'.calls = t.calls ∧ t'.modifier.ending = t.modifier.ending := by
  unfold modifierStep at hstep
  cases hm : t.modifier with
  | idle =>
      rw [hm] at hstep
      cases hstep
  | enbuffer type key =>
      rw [hm] at hstep
      cases hstep
      refine ⟨rfl, ?_⟩
      dsimp only
      split <;> rfl
  | update after =>
      rw [hm] at hstep
      obtain ⟨x, -, hx⟩ := Option.bind_eq_some_iff.mp hstep
      cases hx
      exact ⟨rfl, rfl⟩
  | link q after =>
      rw [hm] at hstep
      cases hstep
      exact ⟨rfl, rfl⟩
  | advance after =>
      rw [hm] at hstep
      obtain ⟨x, -, hx⟩ := Option.bind_eq_some_iff.mp hstep
      cases hx
      exact ⟨rfl, rfl⟩
  | count after =>
      rw [hm] at hstep
      cases hstep
      refine ⟨rfl, ?_⟩
      cases after with
      | enbuffer type key => rfl
      | «return» => rfl
      | close => rfl
  | closed =>
      rw [hm] at hstep
      cases hstep

/-- **One step of the modifier**: no pushes, and the list of roots is only longer. -/
theorem sharedStep_goes (hinj : Function.Injective hash) (h : Goes hash elems calls s)
    (hstep : sharedStep (Pam.interface hash) calls s = some s') :
    Goes hash elems calls s' ∧ s'.asked calls = s.asked calls ∧ Extends s.state.db s'.state.db := by
  obtain ⟨state, made⟩ := s
  obtain ⟨hmade, hver, hending⟩ := h
  unfold sharedStep at hstep
  split at hstep
  · next hm =>
      have hupdate : ∀ type k c, calls[made]? = some c → toUpdate c = some (type, k) →
          queryAt (c, made + 1) = none →
          (step (Pam.interface hash) state (.call type k)).map (fun t => ⟨t, made + 1⟩) = some s' →
          Goes hash elems calls s' ∧ s'.asked calls = Shared.asked calls ⟨state, made⟩ ∧
            Extends state.db s'.state.db := by
        intro type k c hc hup hnone hrun
        obtain ⟨t, ht, rfl⟩ := Option.map_eq_some_iff.mp hrun
        have hver' := Versions.step hinj hver ht
        simp only [step] at ht
        rw [hm] at ht
        cases ht
        refine ⟨⟨?_, hver', fun hend => ?_⟩, asked_update hc hnone, .refl _⟩
        · show state.calls ++ [(type, k)] = updatesOf (calls.take (made + 1))
          rw [take_succ hc, hup, hmade]
          rfl
        · dsimp only at hend
          split at hend <;> cases hend
      split at hstep
      · next k hc => exact hupdate .insert k _ hc rfl rfl hstep
      · next k hc => exact hupdate .delete k _ hc rfl rfl hstep
      · cases hstep
      · next hc =>
          obtain ⟨t, ht, rfl⟩ := Option.map_eq_some_iff.mp hstep
          have hver' := Versions.step hinj hver ht
          simp only [step] at ht
          rw [hm] at ht
          cases ht
          exact ⟨⟨hmade, hver', fun _ => List.getElem?_eq_none_iff.mp hc⟩, rfl, .refl _⟩
  · obtain ⟨t, ht, rfl⟩ := Option.map_eq_some_iff.mp hstep
    have hver' := Versions.step hinj hver ht
    obtain ⟨hcalls, hend⟩ := modifierStep_ending ht
    exact ⟨⟨hcalls.trans hmade, hver', fun he => hending (hend ▸ he)⟩, rfl,
      extends_modifier hver.chained ht⟩

/-- A query is pushed with the number of updates so far, and nothing else changes. -/
theorem push_goes {b : Nat} {mem : Store} {q : Ptr} (h : Goes hash elems calls s)
    (hpush : (server (Pam.interface hash) calls b mem q).push s = some (p, s')) :
    Goes hash elems calls s' ∧ s'.asked calls = s.asked calls ++ [p] ∧ s'.state = s.state := by
  obtain ⟨hmade, hver, hending⟩ := h
  simp only [server] at hpush
  split at hpush
  case h_2 => cases hpush
  next l r hm hc =>
  cases hpush
  have hupdates : updatesOf (calls.take (s.made + 1)) = updatesOf (calls.take s.made) := by
    rw [take_succ hc]
    exact List.append_nil _
  have hsubmitted : s.state.db.versionSubmitted = (updatesOf (calls.take (s.made + 1))).length := by
    have hlen := congrArg List.length hver.calls_eq
    rw [hm, List.length_append, List.length_append, List.length_take,
      Nat.min_eq_left hver.committed_le, Pam.length_batchCalls] at hlen
    rw [hver.submitted, hupdates, ← hmade, hlen]
    rfl
  refine ⟨⟨hmade.trans hupdates.symm, hver, fun he => ?_⟩, ?_, rfl⟩
  · rw [show s.state.modifier = .idle from hm] at he
    cases he
  · unfold Shared.asked
    rw [DB.queries_take hc, List.map_append, hsubmitted]
    rfl

/-! ### The clients

A client looks for its root in a list that grows.  Its cursor is right for the list as
it is, and for any longer one.
-/

/-- The query a client is at. -/
def ClientAt.query? : ClientAt → Option Query
  | .back q | .forward q | .inner q | .evaluate q => some q
  | .idle | .fault => none

/-- A client between two queries, with its cursor in the list. -/
def Idle (s : Shared Store Ptr) (k : Local) : Prop :=
  Cursor s.state.db k.client ∧ k.client.at_ = .idle

/-- A client is on its way to the root of its query, or it has the answer. -/
def Busy (elems : List UInt64) (calls : List Sequential.Call) (s : Shared Store Ptr) (q : DB.Pushed)
    (k : Local) : Prop :=
  Cursor s.state.db k.client ∧ q ∈ s.asked calls ∧
    (k.client.at_ = .idle ∧ (∃ x, k.ret = some x ∧ Bounded elems calls q x) ∨
      k.client.at_.query? = some ⟨q.ver, q.l, q.r⟩ ∧ k.ret = none)

/-- A step leaves the query alone, or answers it from the entry the client has come to. -/
theorem clientStep_query {M N : Type} {T : Backend M N} {t t' : State M N} {id : Nat} {q : Query}
    (hq : (t.clients id).at_.query? = some q) (hstep : clientStep T t id = some t') :
    (t'.clients id).at_.query? = some q ∧ t'.answers = t.answers ∨
      (t'.clients id).at_ = .fault ∨
      (t.clients id).at_ = .evaluate q ∧ (t'.clients id).at_ = .idle ∧
        ∃ e ret, t.db.store.get? (t.clients id).curRoot = some e ∧
          evaluate T t.db.mem e q = some ret ∧ t'.answers = t.answers ++ [⟨q, ret⟩] := by
  have hself : ∀ k, ((t.setClient id k).clients id) = k := fun k => Function.update_self ..
  have hmoves : ∀ {k : Client}, some (t.setClient id k) = some t' → k.at_.query? = some q →
      (t'.clients id).at_.query? = some q ∧ t'.answers = t.answers := by
    intro k hk hkq
    cases hk
    rw [hself]
    exact ⟨hkq, rfl⟩
  have hfaults : ∀ {k : Client}, some (t.setClient id k) = some t' → k.at_ = .fault →
      (t'.clients id).at_ = .fault := by
    intro k hk hkf
    cases hk
    rw [hself]
    exact hkf
  unfold clientStep at hstep
  dsimp only at hstep
  split at hstep
  · cases hstep
  · cases hstep
  · next q' _ cur hat hcur =>
      rw [hat] at hq
      split at hstep
      · exact Or.inl (hmoves hstep hq)
      · split at hstep
        · exact Or.inr (Or.inl (hfaults hstep rfl))
        · split at hstep
          · exact Or.inl (hmoves hstep (hat ▸ hq))
          · exact Or.inl (hmoves hstep hq)
  · next q' _ cur hat hcur =>
      rw [hat] at hq
      refine Or.inl (hmoves hstep ?_)
      dsimp only
      split
      · exact hq
      · exact hq
  · next q' _ cur hat hcur =>
      rw [hat] at hq
      split at hstep
      · split at hstep
        · exact Or.inr (Or.inl (hfaults hstep rfl))
        · exact Or.inl (hmoves hstep (hat ▸ hq))
      · split at hstep
        · exact Or.inl (hmoves hstep hq)
        · exact Or.inl (hmoves hstep hq)
  · next q' a cur hat hcur =>
      rw [hat] at hq
      obtain rfl : q' = q := Option.some.inj hq
      obtain ⟨ret, hret, rfl⟩ := Option.map_eq_some_iff.mp hstep
      have hget : t.db.store.get? (t.clients id).curRoot = some cur := by
        obtain ⟨e, he, heq⟩ := Option.bind_eq_some_iff.mp hcur
        cases heq
        exact he
      refine Or.inr (Or.inr ⟨hat, ?_, cur, ret, hget, hret, rfl⟩)
      show ((t.setClient id _).clients id).at_ = .idle
      rw [hself]
  · exact Or.inr (Or.inl (hfaults hstep rfl))

/-- **A step of a client** brings it nearer to its root, or gives it its answer. -/
theorem localStep_busy (hfits : Fits elems calls) (h : Goes hash elems calls s)
    (hk : Busy elems calls s p k) (hstep : localStep (Pam.interface hash) s.state k = some k') :
    Busy elems calls s p k' := by
  obtain ⟨hcursor, hp, hat⟩ := hk
  obtain ⟨t, ht, rfl⟩ := Option.map_eq_some_iff.mp hstep
  obtain ⟨hdb, -, -, -⟩ := clientStep_same ht
  have hcursor' : Cursor s.state.db (t.clients 0) := by
    have hnext : Cursor t.db (t.clients 0) :=
      cursor_step (s := { s.state with clients := fun _ => k.client, answers := [] })
        h.versions.chained hcursor ht
    rwa [hdb] at hnext
  refine ⟨hcursor', hp, ?_⟩
  rcases hat with ⟨hidle, -⟩ | ⟨hq, -⟩
  · -- A client that has its answer takes no step.
    simp only [clientStep, hidle] at ht
    cases ht
  · rcases clientStep_query hq ht with ⟨hq', hans⟩ | hfault | ⟨heval, hidle, e, ret, he, hret, hans⟩
    · refine Or.inr ⟨hq', ?_⟩
      rw [hans]
      rfl
    · have hknows := hcursor'.knows
      rw [hfault] at hknows
      exact hknows.elim
    · refine Or.inl ⟨hidle, ret, by rw [hans]; rfl, ?_⟩
      have hserves := hcursor.knows
      rw [show k.client.at_ = .evaluate ⟨p.ver, p.l, p.r⟩ from heval] at hserves
      rintro p' rfl
      have hver := h.versions
      rw [h.made] at hver
      exact evaluate_bounded hfits hver he hserves hret

theorem Busy.extends {q : DB.Pushed} (h : Busy elems calls s q k)
    (hext : Extends s.state.db s'.state.db) (hasked : s.asked calls ⊆ s'.asked calls) :
    Busy elems calls s' q k := ⟨h.1.extends hext, hasked h.2.1, h.2.2⟩

section
variable {mem mem' : Store} {q : Ptr} {b : Nat}

/-! ### The server and its answers

The list of roots and what is known of each come from the runs of the modifier alone; the
clients change nothing of it.
-/

/-- What the modifier does by itself and what a client does by itself are put together. -/
theorem serves (hinj : Function.Injective hash) (hfits : Fits elems calls)
    (hbuild : (Pam.interface hash).build mem elems = some (mem', q)) :
    DB.Serves (server (Pam.interface hash) calls b mem' q) (fun _ _ => True)
      (Goes hash elems calls) (Shared.asked calls) Idle (Busy elems calls) (Bounded elems calls) where
  init := by
    have hver : Versions hash elems [] (Batch.init b mem' q) .idle :=
      versions_reachable (s := start b mem' q) hinj hbuild .refl
    exact ⟨⟨rfl, hver, fun hend => absurd hend Bool.false_ne_true⟩, rfl, ⟨rfl, le_rfl, le_rfl, trivial⟩, rfl⟩
  step s _ s' h _ hstep := by
    obtain ⟨h', hasked, hext⟩ := sharedStep_goes hinj h hstep
    refine ⟨h', hasked, fun k hk => ⟨hk.1.extends hext, hk.2⟩, fun p k hk => hk.extends hext ?_⟩
    rw [hasked]
    exact List.Subset.refl _
  push s p s' h hpush := by
    obtain ⟨h', hasked, hsame⟩ := push_goes h hpush
    have hext : Extends s.state.db s'.state.db := by
      rw [hsame]
      exact .refl _
    refine ⟨h', hasked, fun k hk => ⟨hk.1.extends hext, hk.2⟩, fun p k hk => hk.extends hext ?_⟩
    rw [hasked]
    exact List.subset_append_left _ _
  ask s p k _ hp hk := by
    obtain ⟨⟨hplace, hinside, htold, -⟩, -⟩ := hk
    exact ⟨⟨hplace, hinside, htold, trivial⟩, hp, Or.inr ⟨rfl, rfl⟩⟩
  work s p k k' h hk hstep := localStep_busy hfits h hk hstep
  ret s p k x _ hk hret := by
    obtain ⟨hcursor, -, ⟨hidle, y, hy, hbounded⟩ | ⟨-, hnone⟩⟩ := hk
    · have hret : k.ret = some x := hret
      obtain rfl := Option.some.inj (hret.symm.trans hy)
      exact ⟨hbounded, hcursor, hidle⟩
    · have hret : k.ret = some x := hret
      rw [hnone] at hret
      cases hret

/-- All queries have been pushed when the database is closed. -/
theorem pushes : DB.Pushes (server (Pam.interface hash) calls b mem' q) (Goes hash elems calls)
    (Shared.asked calls) ((queries calls).map (rebase calls)) where
  before s _ := (DB.queries_take_prefix calls s.made).map (rebase calls)
  closing s h hclose := by
    have hend : s.state.modifier.ending = true := by
      simp only [server] at hclose
      split at hclose
      · next hm =>
          rw [hm]
          rfl
      · cases hclose
    unfold Shared.asked
    rw [List.take_of_length_le (h.ending hend)]

end

/--
**`Batch` never counts more than the calls before a query leave**, for any number of clients
and in any order of steps, and as much for every query that is undisturbed: of no key in
its range more than one was taken away, and no later update has a key that is stored there.
If all queries are, exactly their answers are stored once `Close` has returned, if and only
if the queue was being drained when `Stop` cleared the flag.
-/
theorem answers_bounded (hash : UInt64 → UInt64) (hinj : Function.Injective hash) (mem : Store)
    (batchSize : Nat) (elems : List UInt64) (calls : List Sequential.Call) (hfits : Fits elems calls)
    (n : Nat) :
    ∃ mem₀ t₀, (Pam.interface hash).build mem elems = some (mem₀, t₀) ∧
      (∀ s, (DB.system n (server (Pam.interface hash) calls batchSize mem₀ t₀)).Reachable s →
        ∀ id, ∀ res ∈ s.queryProcessor.results id, ∃ p, DB.Issued (queries calls) res.ver p ∧
          res.ret.toNat ≤ count elems calls p ∧
          (Undisturbed elems calls p → res.ret.toNat = count elems calls p)) ∧
      ((∀ p ∈ queries calls, Undisturbed elems calls p) → ∀ s₁ s₂ s₃,
        (DB.system n (server (Pam.interface hash) calls batchSize mem₀ t₀)).Reachable s₁ →
        (DB.system n (server (Pam.interface hash) calls batchSize mem₀ t₀)).step s₁ .stop = some s₂ →
        (DB.system n (server (Pam.interface hash) calls batchSize mem₀ t₀)).Steps s₂ s₃ →
        s₃.queryProcessor.pusher = .stopped →
        ((DB.stored n s₃.queryProcessor).Perm (expected elems calls) ↔
          QueryProcessor.Draining n s₁.queryProcessor)) := by
  obtain ⟨mem₀, t₀, hbuild, -⟩ := Pam.build_gives hinj mem elems
  have hS := serves (b := batchSize) hinj hfits hbuild
  have hgood : ∀ {s s'}, (DB.system n (server (Pam.interface hash) calls batchSize mem₀ t₀)).Steps s s' →
      (DB.system n (server (Pam.interface hash) calls batchSize mem₀ t₀)).Reach
        (DB.GoodStep fun _ _ => True) s s' := fun hs => hs.mono fun _ _ _ _ _ => trivial
  -- The query that was pushed is the one of the program, but for its version.
  have hissued : ∀ {idx q}, DB.Issued ((queries calls).map (rebase calls)) idx q →
      ∃ p, DB.Issued (queries calls) idx p ∧ rebase calls p = q := by
    rintro idx q ⟨hpos, hq⟩
    rw [List.getElem?_map] at hq
    obtain ⟨p, hp, hpq⟩ := Option.map_eq_some_iff.mp hq
    exact ⟨p, ⟨hpos, hp⟩, hpq⟩
  refine ⟨mem₀, t₀, hbuild, fun s hs id res hres => ?_, fun hcalm s₁ s₂ s₃ hs hstop hafter hdone => ?_⟩
  · obtain ⟨q, hq, hbounded⟩ := DB.results_right hS pushes (hgood hs) hres
    obtain ⟨p, hp, hpq⟩ := hissued hq
    exact ⟨p, hp, hbounded p hpq⟩
  · have hright : ∀ idx q, ∀ x : UInt64, DB.Issued ((queries calls).map (rebase calls)) idx q →
        Bounded elems calls q x → (answers elems calls)[idx - 1]? = some x.toNat := by
      intro idx q x hq hbounded
      obtain ⟨p, hp, hpq⟩ := hissued hq
      exact DB.answer_at hp ((hbounded p hpq).2 (hcalm p hp.mem))
    have hlen : ((queries calls).map (rebase calls)).length = (answers elems calls).length := by
      rw [answers, List.length_map, List.length_map]
    exact DB.stored_iff_draining hS pushes hright hlen (hgood hs) hstop (hgood hafter) hdone

/-- Two insertions in one batch and a query between them, up to the end of `Close`. -/
theorem answers_bounded_closed :
    ∃ mem₀ t₀ s, (Pam.interface id).build ⟨#[]⟩ [5, 7] = some (mem₀, t₀) ∧
      (DB.system 1 (server (Pam.interface id) [.insert 9, .query 0 9, .insert 11] 2 mem₀ t₀)).Reachable
        s ∧ s.queryProcessor.pusher = .stopped ∧ (DB.stored 1 s.queryProcessor).Perm [(1, 3)] := by
  obtain ⟨mem₀, t₀, hbuild, -, hclose⟩ := answers_bounded id Function.injective_id ⟨#[]⟩ 2 [5, 7]
    [.insert 9, .query 0 9, .insert 11] (by unfold Fits reference; decide) 1
  have hrun : DB.closesInside 1
      (server (Pam.interface id) [.insert 9, .query 0 9, .insert 11] 2 mem₀ t₀)
      ([.start, .begin, .begin] ++ List.replicate 2 (.db ()) ++ [.push, .client 0 0] ++
        List.replicate 7 (.db ()))
      (List.replicate 12 (.client 0 0) ++ [.join, .join]) = some true := by
    cases hbuild
    decide +kernel
  have hcalm : ∀ p ∈ queries [.insert 9, .query 0 9, .insert 11],
      Undisturbed [5, 7] [.insert 9, .query 0 9, .insert 11] p := by
    intro p hp k _ hk
    obtain rfl : p = ⟨2, 0, 9⟩ := List.mem_singleton.mp hp
    refine ⟨?_, fun hlater => ?_⟩
    · exact (clean_other (by simp)).mpr ((clean_other (by simp)).mpr (clean_nil [5, 7] k))
    · obtain rfl : k = 11 := List.mem_singleton.mp hlater
      exact absurd hk (by decide)
  obtain ⟨s₁, s₂, s₃, hs₁, hstop, hafter, hdone, hdrain⟩ :=
    DB.exists_of_closesInside Nat.one_pos hrun
  have hs₃ := (hs₁.tail .stop trivial hstop).trans hafter
  exact ⟨mem₀, t₀, s₃, hbuild, hs₃, hdone,
    (hclose hcalm s₁ s₂ s₃ hs₁ hstop hafter hdone).mpr hdrain⟩

end Batch
