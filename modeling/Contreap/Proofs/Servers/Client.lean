/-
What the clients of a database have to return, and when they do.

A program is a list of calls, and the answer to one of its queries is how many elements
in the range the calls before it leave of the initial array (`answers`).  What the
clients have stored is compared with that list (`stored_perm_iff`).

Clients that wait for a root and read the tree there are alike in two of the databases.
`Rooted` is what such a database has to see to: that a root shows the elements of its
version, and that no step changes a tree of finished versions that a client may be in.
-/
import Contreap.Model.Servers
import Contreap.Proofs.Interface
import Contreap.Proofs.PointQuery
import Contreap.Proofs.Treap.Reader

namespace DB

open BinaryTree Cartesian PtrHeap Transition
open Treap hiding Call
open Sequential (Call reference)

variable {hash : UInt64 → UInt64} {elems : List UInt64} {calls : List Call} {i j n : Nat}

/-! ### The answers to a program -/

/-- A query, with its position as its version. -/
def queryAt : Call × Nat → Option Pushed
  | (.query l r, ver) => some ⟨ver, l, r⟩
  | (.insert _, _) | (.delete _, _) => none

/-- The queries of a program, as they are pushed. -/
def queries (calls : List Call) : List Pushed := (calls.zipIdx 1).filterMap queryAt

/-- How many elements in the range of a query are there after the calls up to it. -/
def count (elems : List UInt64) (calls : List Call) (p : Pushed) : Nat :=
  countRange p.l p.r (reference elems (calls.take p.ver))

/-- What is to be answered to each of them. -/
def answers (elems : List UInt64) (calls : List Call) : List Nat :=
  (queries calls).map (count elems calls)

theorem queries_concat (calls : List Call) (c : Call) :
    queries (calls ++ [c]) = queries calls ++ (queryAt (c, calls.length + 1)).toList := by
  unfold queries
  rw [List.zipIdx_append, List.filterMap_append, Nat.add_comm 1]
  cases c with
  | query l r => rfl
  | insert k => rfl
  | delete k => rfl

theorem queries_take {c : Call} (hc : calls[i]? = some c) :
    queries (calls.take (i + 1)) = queries (calls.take i) ++ (queryAt (c, i + 1)).toList := by
  obtain ⟨hlt, -⟩ := List.getElem?_eq_some_iff.mp hc
  have htake : calls.take (i + 1) = calls.take i ++ [c] := by
    rw [List.take_add_one, hc]
    rfl
  rw [htake, queries_concat, List.length_take_of_le hlt.le]

theorem queries_take_prefix (calls : List Call) (i : Nat) :
    queries (calls.take i) <+: queries calls := by
  unfold queries
  conv_rhs => rw [← List.take_append_drop i calls, List.zipIdx_append, List.filterMap_append]
  exact List.prefix_append _ _

theorem ver_of_mem_queries {p : Pushed} (hp : p ∈ queries (calls.take i)) :
    1 ≤ p.ver ∧ p.ver ≤ i ∧ calls[p.ver - 1]? = some (.query p.l p.r) := by
  obtain ⟨⟨c, ver⟩, hmem, hq⟩ := List.mem_filterMap.mp hp
  obtain ⟨hle, hlt, hc⟩ := List.mem_zipIdx hmem
  cases c with
  | query l r =>
      cases hq
      have hcall : (calls.take i)[ver - 1]? = some (.query l r) := by
        rw [List.getElem?_eq_getElem (by omega), ← hc]
      obtain ⟨hi, -⟩ := List.getElem?_eq_some_iff.mp hcall
      rw [List.length_take] at hi
      rw [List.getElem?_take_of_lt (by omega)] at hcall
      exact ⟨hle, by dsimp only; omega, hcall⟩
  | insert k => cases hq
  | delete k => cases hq

theorem Issued.of_prefix {ps qs : List Pushed} {idx : Nat} {p : Pushed} (h : Issued ps idx p)
    (hpre : ps <+: qs) : Issued qs idx p := by
  obtain ⟨rest, rfl⟩ := hpre
  exact h.append

/-! ### What has been stored

What is stored is compared with what is expected as multisets of pairs, since clients
finish in any order.
-/

/-- The index and the answer of every result. -/
def stored (n : Nat) (s : QueryProcessor.State) : List (Nat × Nat) :=
  (List.range n).flatMap fun id => (s.results id).map fun res => (res.ver, res.ret.toNat)

/-- Every answer, with the index of its query. -/
def expected (elems : List UInt64) (calls : List Call) : List (Nat × Nat) :=
  ((answers elems calls).zipIdx 1).map Prod.swap

/-- All answers have been stored if and only if each index has been, once, provided that
what is stored is right. -/
theorem stored_perm_iff {s : QueryProcessor.State} {xs : List Nat}
    (hcount : s.numQueries = xs.length)
    (hright : ∀ id, ∀ res ∈ s.results id, 1 ≤ res.ver ∧ xs[res.ver - 1]? = some res.ret.toNat) :
    (stored n s).Perm ((xs.zipIdx 1).map Prod.swap) ↔ QueryProcessor.AllAnsweredOnce n s := by
  have hfst : (stored n s).map Prod.fst = QueryProcessor.answered n s := by
    unfold stored QueryProcessor.answered
    rw [List.map_flatMap]
    simp only [List.map_map]
    rfl
  have hsnd : ((xs.zipIdx 1).map Prod.swap).map Prod.fst = List.range' 1 s.numQueries := by
    rw [List.map_map, hcount]
    exact List.zipIdx_map_snd 1 xs
  -- Either list has its answers where `xs` has them.
  have hfun : ∀ ys : List (Nat × Nat), (∀ y ∈ ys, xs[y.1 - 1]? = some y.2) →
      ys = (ys.map Prod.fst).map fun idx => (idx, xs[idx - 1]?.getD 0) := by
    intro ys hys
    rw [List.map_map]
    refine (List.map_id ys).symm.trans (List.map_congr_left fun y hy => ?_)
    simp [hys y hy]
  have hstored := hfun (stored n s) fun y hy => by
    obtain ⟨id, -, hid⟩ := List.mem_flatMap.mp hy
    obtain ⟨res, hres, rfl⟩ := List.mem_map.mp hid
    exact (hright id res hres).2
  have hexpected := hfun ((xs.zipIdx 1).map Prod.swap) fun y hy => by
    obtain ⟨⟨x, idx⟩, hx, rfl⟩ := List.mem_map.mp hy
    obtain ⟨hle, hlt, hval⟩ := List.mem_zipIdx hx
    show xs[idx - 1]? = some x
    rw [List.getElem?_eq_getElem (by omega), ← hval]
  constructor
  · intro hperm
    have hkeys := hperm.map Prod.fst
    rwa [hfst, hsnd] at hkeys
  · intro hall
    rw [hstored, hexpected, hfst, hsnd]
    exact hall.map _

/-! ### Clients at a root

A client at work reads a tree of finished versions.  It is shown by the store at every
read, so what it returns is what it would return alone.
-/

/-- A client at work on a query of a version with the elements `es`. -/
def Client.Works (F : Nat → Prop) (s : Store) (hash : UInt64 → UInt64) (es : Multiset UInt64)
    (p : Pushed) : Client → Prop
  | .idle => False
  | .wait q => q = p
  | .read k => ∃ t m, WellFormed hash t ∧ contents t = es ∧ Aims F s (target t p.l p.r) m k

section
variable {F F' : Nat → Prop} {s s' : Store} {es : Multiset UInt64} {p : Pushed} {k k' : Client}

theorem Client.Works.keep (h : k.Works F s hash es p) (hs : Retains F s F' s') :
    k.Works F' s' hash es p := by
  cases k with
  | idle => exact h
  | wait q => exact h
  | read k =>
      obtain ⟨t, m, ht, hcont, haims⟩ := h
      exact ⟨t, m, ht, hcont, haims.keep hs⟩

/-- A pointer shows the elements `es`, as a summed tree of finished versions. -/
def ShowsElems (F : Nat → Prop) (s : Store) (hash : UInt64 → UInt64) (es : Multiset UInt64)
    (t : Ptr) : Prop :=
  ∃ u, ShowsIn F s t u ∧ WellFormed hash (map Prod.fst u) ∧ contents (map Prod.fst u) = es

/-- A client comes to the root of its version, or reads one node more. -/
theorem Client.Works.work {root : Nat → Option Ptr} (h : k.Works F s hash es p)
    (hroot : ∀ t, root p.ver = some t → ShowsElems F s hash es t)
    (hrun : k.work root s = some k') : k'.Works F s hash es p := by
  cases k with
  | idle => exact h.elim
  | wait q =>
      obtain rfl : q = p := h
      obtain ⟨t, ht, rfl⟩ := Option.map_eq_some_iff.mp hrun
      obtain ⟨u, hu, hwf, hcont⟩ := hroot t ht
      exact ⟨_, _, hwf, hcont, aims_query hu hwf.treap.search q.l q.r⟩
  | read k =>
      obtain ⟨t, m, hwf, hcont, haims⟩ := h
      obtain ⟨k'', hstep, rfl⟩ := Option.map_eq_some_iff.mp hrun
      rcases haims.step with ⟨k₁, m₁, hk₁, -, hnext⟩ | ⟨x, rfl, -⟩ | ⟨rfl, -⟩
      · obtain rfl := Option.some.inj (hk₁.symm.trans hstep)
        exact ⟨t, m₁, hwf, hcont, hnext⟩
      · cases hstep
      · cases hstep

/-- A query for a range, or for a key that is stored, is to return the sum over the range. -/
theorem toNat_of_target {t : BinaryTree Datum} (ht : WellFormed hash t)
    (hroom : (contents t).card < 2 ^ 64) {l r x : UInt64} (hx : target t l r = some x) :
    x.toNat = countRange l r (contents t) := by
  rw [← toNat_sumRange l r hroom]
  unfold target at hx
  split at hx
  · next hlr =>
      subst hlr
      obtain ⟨d, hd, rfl⟩ := Option.map_eq_some_iff.mp hx
      rw [ht.sumRange_self hroom hd]
  · obtain rfl := Option.some.inj hx
    rfl

/-- What it returns is the number of elements in the range. -/
theorem Client.Works.ret {x : UInt64} (h : k.Works F s hash es p) (hroom : es.card < 2 ^ 64)
    (hret : k.ret = some x) : x.toNat = countRange p.l p.r es := by
  cases k with
  | idle => cases hret
  | wait q => cases hret
  | read k =>
      obtain ⟨t, m, hwf, rfl, haims⟩ := h
      cases k with
      | find t key => cases hret
      | estimate l r todo ret => cases hret
      | done ret =>
          obtain rfl := Option.some.inj hret
          exact toNat_of_target hwf hroom haims
      | fault => cases hret

end

/-! ### Databases whose clients read at a root -/

section
variable {σ α : Type} {S : Server σ α Client} {good : σ → α → Prop} {Inv : σ → Prop}
  {asked : σ → List Pushed} {finished : σ → Nat → Prop} {store : σ → Store}
  {root : σ → Nat → Option Ptr} {ok : Nat → Prop}

/-- A database that shows, at the roots of the versions in `ok`, what the calls leave. -/
structure Rooted (hash : UInt64 → UInt64) (elems : List UInt64) (calls : List Call)
    (S : Server σ α Client) (good : σ → α → Prop) (Inv : σ → Prop) (asked : σ → List Pushed)
    (finished : σ → Nat → Prop) (store : σ → Store) (root : σ → Nat → Option Ptr)
    (ok : Nat → Prop) : Prop where
  ask : S.ask = fun _ p => .wait p
  work : S.work = fun db k => k.work (root db) (store db)
  ret : S.ret = Client.ret
  fits : ∀ i, (reference elems (calls.take i)).card < 2 ^ 64
  init : Inv S.init ∧ asked S.init = []
  step : ∀ db a db', Inv db → good db a → S.step db a = some db' → Inv db' ∧
    asked db' = asked db ∧ Retains (finished db) (store db) (finished db') (store db')
  push : ∀ db p db', Inv db → S.push db = some (p, db') → Inv db' ∧
    asked db' = asked db ++ [p] ∧ Retains (finished db) (store db) (finished db') (store db')
  shows : ∀ db p t, Inv db → p ∈ asked db → ok p.ver → root db p.ver = some t →
    ShowsElems (finished db) (store db) hash (reference elems (calls.take p.ver)) t

/-- A client of such a database at work. -/
def Busy (hash : UInt64 → UInt64) (elems : List UInt64) (calls : List Call)
    (asked : σ → List Pushed) (finished : σ → Nat → Prop) (store : σ → Store) (ok : Nat → Prop)
    (db : σ) (p : Pushed) (k : Client) : Prop :=
  p ∈ asked db ∧ (ok p.ver →
    k.Works (finished db) (store db) hash (reference elems (calls.take p.ver)) p)

theorem Busy.keep {db db' : σ} {p : Pushed} {k : Client}
    (h : Busy hash elems calls asked finished store ok db p k) (hasked : asked db ⊆ asked db')
    (hs : Retains (finished db) (store db) (finished db') (store db')) :
    Busy hash elems calls asked finished store ok db' p k :=
  ⟨hasked h.1, fun hok => (h.2 hok).keep hs⟩

/-- **Clients at work on a root** return what the calls leave, whatever the others do. -/
theorem Rooted.serves (h : Rooted hash elems calls S good Inv asked finished store root ok) :
    Serves S good Inv asked (fun _ _ => True) (Busy hash elems calls asked finished store ok)
      fun p x => ok p.ver → x.toNat = count elems calls p where
  init := ⟨h.init.1, h.init.2, trivial⟩
  step db a db' hinv hgood hstep := by
    obtain ⟨hinv', hasked, hs⟩ := h.step db a db' hinv hgood hstep
    exact ⟨hinv', hasked, fun _ _ => trivial, fun p k hk => hk.keep (hasked ▸ List.Subset.refl _) hs⟩
  push db p db' hinv hpush := by
    obtain ⟨hinv', hasked, hs⟩ := h.push db p db' hinv hpush
    refine ⟨hinv', hasked, fun _ _ => trivial, fun p k hk => hk.keep ?_ hs⟩
    rw [hasked]
    exact List.subset_append_left _ _
  ask db p k _ hp _ := by
    rw [h.ask]
    exact ⟨hp, fun _ => rfl⟩
  work db p k k' hinv hk hwork := by
    rw [h.work] at hwork
    refine ⟨hk.1, fun hok => (hk.2 hok).work (fun t ht => ?_) hwork⟩
    exact h.shows db p t hinv hk.1 hok ht
  ret db p k x _ hk hret := by
    rw [h.ret] at hret
    exact ⟨fun hok => (hk.2 hok).ret (h.fits p.ver) hret, trivial⟩

end

/-! ### Up to `Stop` -/

section
variable {σ α κ : Type} {S : Server σ α κ} {good : σ → α → Prop} {Inv : σ → Prop}
  {asked : σ → List Pushed} {Idle : σ → κ → Prop} {Busy : σ → Pushed → κ → Prop}
  {Right : Pushed → UInt64 → Prop} {ps : List Pushed} {s s₁ s₂ s₃ : State σ κ}

/-- A database that pushes `ps`, and all of it before `Stop`. -/
structure Pushes (S : Server σ α κ) (Inv : σ → Prop) (asked : σ → List Pushed)
    (ps : List Pushed) : Prop where
  before : ∀ db, Inv db → asked db <+: ps
  closing : ∀ db, Inv db → S.closing db = true → asked db = ps

/-- What has been stored for an index is right for what is pushed there. -/
theorem results_right (hS : Serves S good Inv asked Idle Busy Right) (hps : Pushes S Inv asked ps)
    (hs : (system n S).Reach (GoodStep good) (init S) s) {id : Nat}
    {res : QueryProcessor.ResultContext} (hres : res ∈ s.queryProcessor.results id) :
    ∃ p, Issued ps res.ver p ∧ Right p res.ret := by
  have hans := answering_reachable hS hs
  obtain ⟨p, hp, hright⟩ := hans.results id res hres
  exact ⟨p, hp.of_prefix (hps.before _ hans.inv), hright⟩

/-- After `Stop` there is nothing to push any more. -/
theorem asked_all (hS : Serves S good Inv asked Idle Busy Right) (hps : Pushes S Inv asked ps)
    (hs : (system n S).Reach (GoodStep good) (init S) s₁)
    (hstop : (system n S).step s₁ .stop = some s₂)
    (hafter : (system n S).Reach (GoodStep good) s₂ s₃) :
    s₃.queryProcessor.numQueries = ps.length := by
  have hans := answering_reachable hS hs
  have hall : asked s₁.db = ps := by
    have hstop : step n S s₁ .stop = some s₂ := hstop
    simp only [step] at hstop
    split at hstop
    · next hclose => exact hps.closing _ hans.inv hclose
    · cases hstop
  have hgood : GoodStep good s₁ .stop := goodStep_stop
  have hbegin : Answering n Inv asked Idle Busy Right s₂ := answering_step hS hans hgood hstop
  have hsame : asked s₂.db = ps := by
    have hstop : step n S s₁ .stop = some s₂ := hstop
    simp only [step] at hstop
    split at hstop
    · obtain ⟨qp, -, rfl⟩ := Option.map_eq_some_iff.mp hstop
      exact hall
    · cases hstop
  have hend : Answering n Inv asked Idle Busy Right s₃ ∧ asked s₃.db = ps := by
    refine hafter.invariant (I := fun t => Answering n Inv asked Idle Busy Right t ∧ asked t.db = ps)
      ?_ ⟨hbegin, hsame⟩
    rintro t a t' ⟨ht, heq⟩ hgood hstep
    have ht' := answering_step hS ht hgood hstep
    refine ⟨ht', (hps.before _ ht'.inv).eq_of_length_le ?_⟩
    rw [← heq, ← ht.count, ← ht'.count]
    exact numQueries_le hstep
  rw [hend.1.count, hend.2]

/-- The answer that is right for the query pushed there. -/
theorem answer_at {idx : Nat} {p : Pushed} {x : UInt64} (hp : Issued (queries calls) idx p)
    (hx : x.toNat = count elems calls p) : (answers elems calls)[idx - 1]? = some x.toNat := by
  rw [answers, List.getElem?_map, hp.2, Option.map_some, hx]

variable {xs : List Nat} (hS : Serves S good Inv asked Idle Busy Right)
  (hps : Pushes S Inv asked ps)
  (hright : ∀ idx p x, Issued ps idx p → Right p x → xs[idx - 1]? = some x.toNat)
include hS hps hright

/-- What has been stored for an index is the answer there. -/
theorem results_answers (hs : (system n S).Reach (GoodStep good) (init S) s) {id : Nat}
    {res : QueryProcessor.ResultContext} (hres : res ∈ s.queryProcessor.results id) :
    1 ≤ res.ver ∧ xs[res.ver - 1]? = some res.ret.toNat := by
  obtain ⟨p, hp, hx⟩ := results_right hS hps hs hres
  exact ⟨hp.1, hright _ p _ hp hx⟩

/-- **After `Stop` the answers are what is stored**, as a multiset with their indices, if and
only if the queue was being drained when the flag was cleared. -/
theorem stored_iff_draining (hlen : ps.length = xs.length)
    (hs : (system n S).Reach (GoodStep good) (init S) s₁)
    (hstop : (system n S).step s₁ .stop = some s₂)
    (hafter : (system n S).Reach (GoodStep good) s₂ s₃)
    (hdone : s₃.queryProcessor.pusher = .stopped) :
    (stored n s₃.queryProcessor).Perm ((xs.zipIdx 1).map Prod.swap) ↔
      QueryProcessor.Draining n s₁.queryProcessor := by
  have hgood : GoodStep good s₁ .stop := goodStep_stop
  have hreach := (hs.tail .stop hgood hstop).trans hafter
  rw [← answered_once_iff hs hgood hstop hafter hdone]
  refine stored_perm_iff ?_ fun id res hres => results_answers hS hps hright hreach hres
  rw [asked_all hS hps hs hstop hafter, hlen]

end

end DB
