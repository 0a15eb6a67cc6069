/-
What the roots of a run of batches show.

The roots that `DB::Batch` lists, with `pam::interface` for its template argument, show
well-formed trees (`Version`), and what the last entries of a tree are follows from the
calls up to its version, one after the other.  A root is read at versions after the root
before it, and what is found then follows from the calls up to that one and from the
batch between them (`Listed`).

The modifier is followed through `do_update_` as for the list itself: the new tree is
computed, then linked, and no cell of an earlier tree is any different.
-/
import Contreap.Proofs.Batch.Routing
import Contreap.Proofs.Pam.History

namespace Batch

open PtrHeap Transition
open Pam (Store Tree Call layout WellFormed VersionsUpTo lastEntry lastValue findTree valueOf
  entryAfter firstEntry batchCalls readBatch updatedTree builtTree)

variable {hash : UInt64 → UInt64} {elems es : List UInt64} {calls more : List Call} {mem mem' : Store}
  {p : Ptr} {t : Tree} {n ver v : Nat} {k : UInt64} {db db' : DB Store Ptr} {m : Modifier Ptr}
  {after : After} {type : Operation} {key : UInt64}

/-! ### The tree of a version

What a root is good for has two sides: its last entries, which the next batch starts
from, and what is found in it at the versions it serves.
-/

/-- The tree of a version.  Of its nodes only the last entries are spoken of, which are
those the calls up to the version lead to. -/
structure Version (hash : UInt64 → UInt64) (elems : List UInt64) (calls : List Call) (ver : Nat)
    (t : Tree) : Prop where
  le : ver ≤ calls.length
  wellFormed : WellFormed hash t
  upTo : VersionsUpTo ver t
  entries : ∀ k, lastEntry k t = entryAfter k 1 (firstEntry elems k) (calls.take ver)

/-- The counter of a key once so many calls have been applied. -/
def counter (elems : List UInt64) (calls : List Call) (k : UInt64) : UInt64 :=
  valueOf (entryAfter k 1 (firstEntry elems k) calls)

theorem Version.lastValue (h : Version hash elems calls ver t) (k : UInt64) :
    lastValue k t = counter elems (calls.take ver) k := congrArg valueOf (h.entries k)

theorem Version.append (h : Version hash elems calls ver t) (more : List Call) :
    Version hash elems (calls ++ more) ver t where
  le := h.le.trans (by rw [List.length_append]; exact Nat.le_add_right _ _)
  wellFormed := h.wellFormed
  upTo := h.upTo
  entries k := by rw [List.take_append_of_le_length h.le, h.entries k]

/-- A batch takes one version to the next. -/
theorem Version.updated (hinj : Function.Injective hash) (h : Version hash elems calls n t)
    (hes : calls.take (n + es.length) = calls.take n ++ batchCalls type es)
    (hwf : WellFormed hash (updatedTree hash type t (n + 1) es)) :
    Version hash elems calls (n + es.length) (updatedTree hash type t (n + 1) es) where
  le := by
    have hlen := congrArg List.length hes
    rw [List.length_append, Pam.length_batchCalls, List.length_take, List.length_take,
      Nat.min_eq_left h.le] at hlen
    omega
  wellFormed := hwf
  upTo := h.upTo.updatedTree hinj type es
  entries k := by
    rw [Pam.lastEntry_updatedTree hinj type h.wellFormed.treap, h.entries k, hes,
      Pam.entryAfter_append, List.length_take, Nat.min_eq_left h.le, Nat.add_comm 1]

/-- A root that is read at versions from `n` on: it shows the tree of its version, and what
a key counts there follows from the calls up to `n` and one batch. -/
def Listed (hash : UInt64 → UInt64) (elems : List UInt64) (calls : List Call) (mem : Store)
    (n ver : Nat) (p : Ptr) : Prop :=
  ∃ t, Shows layout mem p t ∧ Version hash elems calls ver t ∧ n ≤ ver ∧
    ∃ type es, calls.take ver = calls.take n ++ batchCalls type es ∧
      ∀ v k, n ≤ v →
        findTree v k t = readBatch type (n + 1) v es (counter elems (calls.take n) k) k

theorem Listed.append (h : Listed hash elems calls mem n ver p) (more : List Call) :
    Listed hash elems (calls ++ more) mem n ver p := by
  obtain ⟨t, hp, hver, hn, type, es, hes, hread⟩ := h
  have hle := hn.trans hver.le
  refine ⟨t, hp, hver.append more, hn, type, es, ?_, ?_⟩
  · rw [List.take_append_of_le_length hver.le, List.take_append_of_le_length hle, hes]
  · rwa [List.take_append_of_le_length hle]

theorem Listed.preserves (h : Listed hash elems calls mem n ver p) (hm : Heap.Preserves mem mem') :
    Listed hash elems calls mem' n ver p := by
  obtain ⟨t, hp, hrest⟩ := h
  exact ⟨t, hp.preserved hm, hrest⟩

theorem listed_built (hinj : Function.Injective hash) (calls : List Call)
    (hp : Shows layout mem p (builtTree hash elems)) (ht : WellFormed hash (builtTree hash elems)) :
    Listed hash elems calls mem 0 0 p := by
  have hver : Version hash elems calls 0 (builtTree hash elems) :=
    ⟨Nat.zero_le _, ht, Pam.versionsUpTo_builtTree hinj elems,
      fun k => Pam.lastEntry_builtTree hinj elems k⟩
  refine ⟨_, hp, hver, le_rfl, .insert, [], rfl, fun v k hv => ?_⟩
  have hmissed : ¬ Pam.Missed (0 + 1) v [] k := fun h => List.not_mem_nil h.1
  rw [Pam.findTree_eq_last hver.upTo hv, hver.lastValue, readBatch, if_neg hmissed, List.take_nil,
    List.count_nil]
  exact (UInt64.add_zero _).symm

/-- The root that a batch makes of the last one. -/
theorem Listed.updated (hinj : Function.Injective hash) {n' : Nat}
    (h : Listed hash elems calls mem n' n p)
    (hes : calls.take (n + es.length) = calls.take n ++ batchCalls type es) :
    ∃ mem' q, Pam.updated hash type mem p (n + 1) es = some (mem', q) ∧ Heap.Preserves mem mem' ∧
      Listed hash elems calls mem' n (n + es.length) q := by
  obtain ⟨t, hp, hver, -, -⟩ := h
  obtain ⟨mem', q, hrun, hpres, hq, hwf⟩ :=
    Pam.updated_gives hinj type hp hver.wellFormed (n + 1) es
  refine ⟨mem', q, hrun, hpres, _, hq, hver.updated hinj hes hwf, Nat.le_add_right _ _, type, es,
    hes, fun v k hv => ?_⟩
  rw [Pam.findTree_updatedTree hinj type hver.wellFormed.treap hver.upTo hv, hver.lastValue]

/-! ### The list of roots -/

/-- The version of the entry before one, `0` for the first. -/
def baseOf (db : DB Store Ptr) (i : Nat) : Nat :=
  if i = 0 then 0 else ((db.store.get? (i - 1)).map RootList.ver).getD 0

/-- The call that waits for `do_update_`. -/
def After.pending : After → List Call
  | .enbuffer type key => [(type, key)]
  | _ => []

/-- The same call, wherever the modifier is. -/
def Modifier.pending : Modifier Ptr → List Call
  | .enbuffer type key => [(type, key)]
  | .update after | .link _ after | .advance after | .count after => after.pending
  | _ => []

/-- The last entry of the list, and with a new tree at hand that one, are up to date. -/
def Modifier.Current (hash : UInt64 → UInt64) (elems : List UInt64) (calls : List Call)
    (db : DB Store Ptr) : Modifier Ptr → Prop
  | .link t _ => ∃ last, db.store.get? db.root = some last ∧
      Listed hash elems calls db.mem last.ver db.versionCommitted t
  | _ => ∃ last, db.store.get? (db.store.size - 1) = some last ∧ last.ver = db.versionCommitted

/-- The buffer is of the type of the call that is to be put into it, or empty. -/
def Modifier.Typed (db : DB Store Ptr) : Modifier Ptr → Prop
  | .enbuffer type _ => db.bufferType = type ∨ db.buffer = []
  | .link _ _ | .advance _ | .count _ | .closed => db.buffer = []
  | .idle | .update _ => True

/-- Every entry of the list is the root of its version, and the calls are those that are
committed, those in the buffer and the one that waits. -/
structure Versions (hash : UInt64 → UInt64) (elems : List UInt64) (calls : List Call)
    (db : DB Store Ptr) (m : Modifier Ptr) : Prop where
  chained : Chained db m
  entries : ∀ (i : Nat) (e), db.store.get? i = some e →
    Listed hash elems calls db.mem (baseOf db i) e.ver e.t
  calls_eq : calls = calls.take db.versionCommitted ++ batchCalls db.bufferType db.buffer ++ m.pending
  submitted : db.versionSubmitted = db.versionCommitted + db.buffer.length
  current : m.Current hash elems calls db
  typed : m.Typed db

theorem baseOf_extends (hext : Extends db db') {i : Nat} {e : RootList Ptr}
    (he : db.store.get? i = some e) : baseOf db' i = baseOf db i := by
  unfold baseOf
  by_cases hi : i = 0
  · rw [if_pos hi, if_pos hi]
  · have hlt := Heap.lt_size_of_get? he
    obtain ⟨prev, hprev⟩ := Heap.get?_of_lt ((Nat.sub_le i 1).trans_lt hlt)
    obtain ⟨prev', hprev', hver, -⟩ := hext.entries (i - 1) prev hprev
    rw [if_neg hi, if_neg hi, hprev, hprev', Option.map_some, Option.map_some, hver]

namespace Versions

theorem committed_le (h : Versions hash elems calls db m) : db.versionCommitted ≤ calls.length := by
  cases m with
  | link t after =>
      obtain ⟨last, -, t', -, hver, -⟩ := h.current
      exact hver.le
  | _ =>
      obtain ⟨last, hlast, hver⟩ := h.current
      obtain ⟨t', -, hver', -⟩ := h.entries _ last hlast
      exact hver ▸ hver'.le

/-- A step that changes no entry, with more calls perhaps. -/
theorem same (h : Versions hash elems calls db m) {m' : Modifier Ptr} (more : List Call)
    (hc : Chained db' m') (hstore : db'.store = db.store) (hmem : db'.mem = db.mem)
    (hcommitted : db'.versionCommitted = db.versionCommitted)
    (hcalls : calls ++ more = calls.take db.versionCommitted
      ++ batchCalls db'.bufferType db'.buffer ++ m'.pending)
    (hsubmitted : db'.versionSubmitted = db.versionCommitted + db'.buffer.length)
    (hcurrent : m'.Current hash elems (calls ++ more) db') (htyped : m'.Typed db') :
    Versions hash elems (calls ++ more) db' m' where
  chained := hc
  entries i e he := by
    rw [hstore] at he
    have hbase : baseOf db' i = baseOf db i := by
      unfold baseOf
      rw [hstore]
    rw [hbase, hmem]
    exact (h.entries i e he).append more
  calls_eq := by rwa [hcommitted, List.take_append_of_le_length h.committed_le]
  submitted := by rwa [hcommitted]
  current := hcurrent
  typed := htyped

/-! ### `do_update_` -/

theorem newTree_eq (db : DB Store Ptr) (q : Ptr) :
    newTree (Pam.interface hash) db q
      = Pam.updated hash db.bufferType db.mem q (db.versionCommitted + 1) db.buffer := by
  unfold newTree Pam.updated
  cases db.bufferType <;> rfl

/-- The calls in the buffer are the next ones. -/
theorem take_committed (h : Versions hash elems calls db m) :
    calls.take (db.versionCommitted + db.buffer.length)
      = calls.take db.versionCommitted ++ batchCalls db.bufferType db.buffer := by
  have hlen : (calls.take db.versionCommitted ++ batchCalls db.bufferType db.buffer).length
      = db.versionCommitted + db.buffer.length := by
    rw [List.length_append, List.length_take, Nat.min_eq_left h.committed_le, Pam.length_batchCalls]
  conv_lhs => rw [h.calls_eq]
  exact List.take_left' hlen

/-- The tree that is computed holds the calls in the buffer, and no cell of an earlier
tree is any different. -/
theorem applyBuffer (hinj : Function.Injective hash)
    (h : Versions hash elems calls db (.update after)) :
    ∃ db' q, applyBuffer (Pam.interface hash) db = some (db', q) ∧
      Versions hash elems calls db' (.link q after) := by
  obtain ⟨last, hlast, hver⟩ := h.current
  have hroot : db.store.size - 1 = db.root := by
    rw [h.chained.root]
    rfl
  rw [hroot] at hlast
  have hbuffer : calls.take (last.ver + db.buffer.length)
      = calls.take last.ver ++ batchCalls db.bufferType db.buffer := by
    rw [hver]
    exact h.take_committed
  obtain ⟨mem', q, hrun, hpres, hq⟩ := (h.entries _ last hlast).updated hinj hbuffer
  rw [hver, ← newTree_eq] at hrun
  have happly : Batch.applyBuffer (Pam.interface hash) db = some ({ db with
      mem := mem', versionCommitted := db.versionCommitted + db.buffer.length, buffer := [] }, q) := by
    simp only [Batch.applyBuffer, hlast, hrun, Option.bind_eq_bind, Option.bind_some]
  refine ⟨_, q, happly, h.chained.applyBuffer happly, fun i e he => ?_, ?_, ?_, ?_, rfl⟩
  · exact (h.entries i e he).preserves hpres
  · show calls = calls.take (db.versionCommitted + db.buffer.length) ++ [] ++ after.pending
    rw [List.append_nil, h.take_committed]
    exact h.calls_eq
  · exact h.submitted
  · exact ⟨last, hlast, hver ▸ hq⟩

/-- The new root is listed at the end, with the version it was computed for. -/
theorem linkNext {q : Ptr} (h : Versions hash elems calls db (.link q after)) :
    Versions hash elems calls (linkNext db q) (.advance after) := by
  obtain ⟨hsize, hnew, hold⟩ := get?_linkNext h.chained
  have hext : Extends db (Batch.linkNext db q) := linkNext_extends h.chained
  obtain ⟨last, hlast, hq⟩ := h.current
  have hroot : db.store.size - 1 = db.root := by
    rw [h.chained.root]
    rfl
  refine ⟨h.chained.linkNext, fun i e he => ?_, h.calls_eq, h.submitted, ?_, h.typed⟩
  · have hi := Heap.lt_size_of_get? he
    rw [hsize] at hi
    rcases Nat.lt_succ_iff_lt_or_eq.mp hi with hlt | rfl
    · obtain ⟨e₀, he₀⟩ := Heap.get?_of_lt hlt
      obtain ⟨e₁, he₁, hver, ht, -⟩ := hext.entries i e₀ he₀
      obtain rfl := Option.some.inj (he.symm.trans he₁)
      rw [baseOf_extends hext he₀, hver, ht]
      exact h.entries i e₀ he₀
    · rw [hnew] at he
      obtain rfl := Option.some.inj he
      obtain ⟨last', hlast', hver, -⟩ := hext.entries _ last hlast
      have hbase : baseOf (Batch.linkNext db q) db.store.size = last.ver := by
        rw [baseOf, if_neg (by rw [h.chained.root]; exact Nat.succ_ne_zero _), hroot, hlast',
          Option.map_some, hver]
        rfl
      rw [hbase]
      exact hq
  · refine ⟨⟨db.versionCommitted, q, some db.root, none⟩, ?_, rfl⟩
    rw [hsize]
    exact hnew

theorem advanceRoot (h : Versions hash elems calls db (.advance after)) :
    ∃ db', advanceRoot db = some db' ∧ Versions hash elems calls db' (.count after) := by
  obtain ⟨db', hrun, hc⟩ := h.chained.advanceRoot
  refine ⟨db', hrun, ?_⟩
  have hsame : ∃ a, db' = { db with root := a } := by
    simp only [Batch.advanceRoot, Option.bind_eq_bind] at hrun
    obtain ⟨root, -, hrest⟩ := Option.bind_eq_some_iff.mp hrun
    obtain ⟨next, -, heq⟩ := Option.bind_eq_some_iff.mp hrest
    exact ⟨next, (Option.some.inj heq).symm⟩
  obtain ⟨a, rfl⟩ := hsame
  exact ⟨hc, h.entries, h.calls_eq, h.submitted, h.current, h.typed⟩

/-- Counting changes no entry, and the call that waited goes on. -/
theorem countVersion (h : Versions hash elems calls db (.count after)) :
    Versions hash elems calls (countVersion db) (resume after) := by
  have hc : Chained (Batch.countVersion db) (resume after : Modifier Ptr) := by
    refine h.chained.congr rfl rfl rfl ?_ ?_ le_rfl
    · cases after <;> rfl
    · cases after <;> rfl
  have hbuffer : db.buffer = [] := h.typed
  have hcalls := h.calls_eq
  have hcurrent := h.current
  refine ⟨hc, h.entries, ?_, h.submitted, ?_, ?_⟩
  · cases after <;> exact hcalls
  · cases after <;> exact hcurrent
  · cases after with
    | enbuffer type key => exact Or.inr hbuffer
    | «return» => trivial
    | close => exact hbuffer

theorem doUpdate (hinj : Function.Injective hash)
    (h : Versions hash elems calls db (.update after)) :
    ∃ db', doUpdate (Pam.interface hash) db = some db' ∧
      Versions hash elems calls db' (resume after) := by
  obtain ⟨db₁, q, hrun₁, h₁⟩ := h.applyBuffer hinj
  obtain ⟨db₂, hrun₂, h₂⟩ := h₁.linkNext.advanceRoot
  refine ⟨Batch.countVersion db₂, ?_, h₂.countVersion⟩
  simp only [Batch.doUpdate, hrun₁, hrun₂, Option.bind_eq_bind, Option.bind_some]

/-! ### Calls

`Insert` and `Delete` apply the buffer before or after the key is put in, or not at all,
and `Close` if it is not empty.  The list of calls is divided between what is committed,
what is in the buffer, and the call in progress.
-/

/-- The key goes from the call to the end of the buffer. -/
theorem putBuffer (h : Versions hash elems calls db (.enbuffer type key)) {m' : Modifier Ptr}
    (hm' : m' = .idle ∨ m' = .update .return) :
    Versions hash elems calls (putBuffer db type key) m' := by
  have hc : Chained (Batch.putBuffer db type key) m' := by
    refine h.chained.congr rfl rfl rfl ?_ ?_ le_rfl
    · rcases hm' with rfl | rfl <;> rfl
    · rcases hm' with rfl | rfl <;> rfl
  have hcalls : calls = calls.take db.versionCommitted ++ batchCalls type (db.buffer ++ [key]) := by
    have htype : batchCalls db.bufferType db.buffer = batchCalls type db.buffer := by
      rcases h.typed with htype | hnil
      · rw [htype]
      · rw [hnil]
        rfl
    conv_lhs => rw [h.calls_eq, htype]
    rw [List.append_assoc]
    exact congrArg _ (Pam.batchCalls_concat type db.buffer key).symm
  have hsubmitted : db.versionSubmitted + 1 = db.versionCommitted + (db.buffer ++ [key]).length := by
    rw [h.submitted, List.length_append, List.length_singleton, Nat.add_assoc]
  have hcurrent := h.current
  refine ⟨hc, h.entries, ?_, hsubmitted, ?_, ?_⟩
  · rcases hm' with rfl | rfl <;> exact hcalls.trans (List.append_nil _).symm
  · rcases hm' with rfl | rfl <;> exact hcurrent
  · rcases hm' with rfl | rfl <;> trivial

/-- A new call waits until it has put its key into the buffer. -/
theorem call (h : Versions hash elems calls db .idle) (type : Operation) (key : UInt64) :
    Versions hash elems (calls ++ [(type, key)]) db
      (if db.bufferType ≠ type then .update (.enbuffer type key) else .enbuffer type key) := by
  have hcalls : calls ++ [(type, key)] = calls.take db.versionCommitted
      ++ batchCalls db.bufferType db.buffer ++ [(type, key)] :=
    congrArg (fun cs => cs ++ [(type, key)]) (h.calls_eq.trans (List.append_nil _))
  by_cases htype : db.bufferType ≠ type
  · rw [if_pos htype]
    exact h.same _ (h.chained.congr rfl rfl rfl rfl rfl le_rfl) rfl rfl rfl hcalls h.submitted
      h.current trivial
  · rw [if_neg htype]
    exact h.same _ (h.chained.congr rfl rfl rfl rfl rfl le_rfl) rfl rfl rfl hcalls h.submitted
      h.current (Or.inl (not_ne_iff.mp htype))

theorem updateEnbuffer_eq {T : Backend Store Ptr} {db₁ : DB Store Ptr}
    (hrun : (if db.bufferType ≠ type then Batch.doUpdate T db else some db) = some db₁) :
    Batch.updateEnbuffer T db type key
      = if (Batch.putBuffer db₁ type key).buffer.length = (Batch.putBuffer db₁ type key).batchSize then
          Batch.doUpdate T (Batch.putBuffer db₁ type key)
        else some (Batch.putBuffer db₁ type key) := by
  by_cases htype : db.bufferType ≠ type
  · rw [if_pos htype] at hrun
    simp only [Batch.updateEnbuffer, if_pos htype, hrun, Option.bind_eq_bind, Option.bind_some]
  · rw [if_neg htype] at hrun
    obtain rfl := Option.some.inj hrun
    simp only [Batch.updateEnbuffer, if_neg htype, Option.bind_eq_bind, Option.bind_some]

/-- A whole call, as it is made without clients. -/
theorem updateEnbuffer (hinj : Function.Injective hash) (h : Versions hash elems calls db .idle)
    (type : Operation) (key : UInt64) :
    ∃ db', updateEnbuffer (Pam.interface hash) db type key = some db' ∧
      Versions hash elems (calls ++ [(type, key)]) db' .idle := by
  have hcall := h.call type key
  obtain ⟨db₁, hrun₁, h₁⟩ : ∃ db₁, (if db.bufferType ≠ type then
      Batch.doUpdate (Pam.interface hash) db else some db) = some db₁ ∧
        Versions hash elems (calls ++ [(type, key)]) db₁ (.enbuffer type key) := by
    by_cases htype : db.bufferType ≠ type
    · rw [if_pos htype] at hcall ⊢
      exact hcall.doUpdate hinj
    · rw [if_neg htype] at hcall ⊢
      exact ⟨db, rfl, hcall⟩
  by_cases hfull : (Batch.putBuffer db₁ type key).buffer.length
      = (Batch.putBuffer db₁ type key).batchSize
  · obtain ⟨db', hrun', h'⟩ := (h₁.putBuffer (Or.inr rfl)).doUpdate hinj
    exact ⟨db', (updateEnbuffer_eq hrun₁).trans ((if_pos hfull).trans hrun'), h'⟩
  · exact ⟨_, (updateEnbuffer_eq hrun₁).trans (if_neg hfull), h₁.putBuffer (Or.inl rfl)⟩

/-- The calls one after the other. -/
theorem updates (hinj : Function.Injective hash) :
    ∀ (more : List Call) {calls : List Call} {db : DB Store Ptr},
      Versions hash elems calls db .idle →
      ∃ db', updates (Pam.interface hash) db more = some db' ∧
        Versions hash elems (calls ++ more) db' .idle := by
  intro more
  induction more with
  | nil =>
      intro calls db h
      exact ⟨db, rfl, by rwa [List.append_nil]⟩
  | cons c more ih =>
      intro calls db h
      obtain ⟨db₁, hrun₁, h₁⟩ := h.updateEnbuffer hinj c.1 c.2
      obtain ⟨db', hrun', h'⟩ := ih h₁
      refine ⟨db', ?_, by rwa [List.append_cons]⟩
      rw [Batch.updates, hrun₁, Option.bind_some, hrun']

theorem closeCall (h : Versions hash elems calls db .idle) :
    Versions hash elems calls db (if db.buffer.length > 0 then .update .close else .closed) := by
  have hcalls := h.calls_eq
  by_cases hbuffer : db.buffer.length > 0
  · rw [if_pos hbuffer]
    exact ⟨h.chained.congr rfl rfl rfl rfl rfl le_rfl, h.entries, hcalls, h.submitted, h.current,
      trivial⟩
  · rw [if_neg hbuffer]
    exact ⟨h.chained.congr rfl rfl rfl rfl rfl le_rfl, h.entries, hcalls, h.submitted, h.current,
      List.length_eq_zero_iff.mp (Nat.eq_zero_of_not_pos hbuffer)⟩

theorem close (hinj : Function.Injective hash) (h : Versions hash elems calls db .idle) :
    ∃ db', close (Pam.interface hash) db = some db' ∧ Versions hash elems calls db' .closed := by
  have hclose := h.closeCall
  unfold Batch.close
  by_cases hbuffer : db.buffer.length > 0
  · rw [if_pos hbuffer] at hclose ⊢
    exact hclose.doUpdate hinj
  · rw [if_neg hbuffer] at hclose ⊢
    exact ⟨db, rfl, hclose⟩

/-- Once the database is closed every call is committed, and the last root has them all. -/
theorem closed (h : Versions hash elems calls db .closed) :
    db.versionCommitted = calls.length ∧ ∃ e t, db.store.get? db.root = some e ∧
      e.ver = calls.length ∧ Shows layout db.mem e.t t ∧ Version hash elems calls calls.length t := by
  have hcommitted : db.versionCommitted = calls.length := by
    have hbuffer : db.buffer = [] := h.typed
    have hlen := congrArg List.length h.calls_eq
    rw [hbuffer, List.length_append, List.length_append, List.length_take,
      Nat.min_eq_left h.committed_le] at hlen
    exact hlen.symm
  obtain ⟨e, he, hver⟩ := h.current
  have hroot : db.store.size - 1 = db.root := by
    rw [h.chained.root]
    rfl
  obtain ⟨t, ht, hversion, -⟩ := h.entries _ e he
  have hlast : e.ver = calls.length := hver.trans hcommitted
  exact ⟨hcommitted, e, t, hroot ▸ he, hlast, ht, hlast ▸ hversion⟩

end Versions

/-! ### Runs -/

theorem versions_init (hinj : Function.Injective hash) (batchSize : Nat) {q : Ptr}
    (hq : Shows layout mem q (builtTree hash elems)) (ht : WellFormed hash (builtTree hash elems)) :
    Versions hash elems [] (init batchSize mem q) .idle := by
  refine ⟨chained_init batchSize mem q, fun i e he => ?_, rfl, rfl, ⟨_, rfl, rfl⟩, trivial⟩
  cases i with
  | zero =>
      obtain rfl := Option.some.inj he
      exact listed_built hinj [] hq ht
  | succ i => cases he

/-- Each step of the modifier moves calls from one of the three places to the next. -/
theorem Versions.modifierStep {s s' : State Store Ptr} (hinj : Function.Injective hash)
    (h : Versions hash elems s.calls s.db s.modifier)
    (hstep : modifierStep (Pam.interface hash) s = some s') :
    Versions hash elems s'.calls s'.db s'.modifier := by
  unfold Batch.modifierStep at hstep
  cases hm : s.modifier with
  | idle =>
      rw [hm] at hstep
      cases hstep
  | enbuffer type key =>
      rw [hm] at hstep h
      cases hstep
      refine h.putBuffer ?_
      dsimp only
      split
      · exact Or.inr rfl
      · exact Or.inl rfl
  | update after =>
      rw [hm] at hstep h
      obtain ⟨db', q, hrun, h'⟩ := h.applyBuffer hinj
      rw [hrun] at hstep
      cases hstep
      exact h'
  | link q after =>
      rw [hm] at hstep h
      cases hstep
      exact h.linkNext
  | advance after =>
      rw [hm] at hstep h
      obtain ⟨db', hrun, h'⟩ := h.advanceRoot
      rw [hrun] at hstep
      cases hstep
      exact h'
  | count after =>
      rw [hm] at hstep h
      cases hstep
      exact h.countVersion
  | closed =>
      rw [hm] at hstep
      cases hstep

/-- Only the modifier and new calls change what the roots are about. -/
theorem Versions.step {s s' : State Store Ptr} {act : Action} (hinj : Function.Injective hash)
    (h : Versions hash elems s.calls s.db s.modifier)
    (hstep : step (Pam.interface hash) s act = some s') :
    Versions hash elems s'.calls s'.db s'.modifier := by
  cases act with
  | call type key =>
      simp only [Batch.step] at hstep
      split at hstep
      · next hm =>
          cases hstep
          rw [hm] at h
          exact h.call type key
      · cases hstep
  | close =>
      simp only [Batch.step] at hstep
      split at hstep
      · next hm =>
          cases hstep
          rw [hm] at h
          exact h.closeCall
      · cases hstep
  | modifier => exact h.modifierStep hinj hstep
  | query id q =>
      simp only [Batch.step] at hstep
      split at hstep
      · cases hstep
        exact h
      · cases hstep
  | client id =>
      obtain ⟨hdb, hm, hcalls, -⟩ := clientStep_same hstep
      rwa [hdb, hm, hcalls]

/-- **The roots of every reachable state hold the versions of the calls so far.** -/
theorem versions_reachable (hinj : Function.Injective hash) {batchSize : Nat} {q : Ptr}
    {s : State Store Ptr} (hbuild : (Pam.interface hash).build mem elems = some (mem', q))
    (hs : (system (Pam.interface hash) batchSize mem' q).Reachable s) :
    Versions hash elems s.calls s.db s.modifier := by
  obtain ⟨mem₁, q₁, hrun, -, hq, ht⟩ := Pam.build_gives hinj mem elems
  obtain ⟨rfl, rfl⟩ := Prod.mk.inj (Option.some.inj (hbuild.symm.trans hrun))
  exact hs.invariant (I := fun s => Versions hash elems s.calls s.db s.modifier)
    (fun _ _ _ h _ hstep => h.step hinj hstep) (versions_init hinj batchSize hq ht)

/-- A run of calls that is closed at its end. -/
theorem run_versions (hinj : Function.Injective hash) (batchSize : Nat) (mem : Store)
    (elems : List UInt64) (calls : List Call) :
    ∃ db, run (Pam.interface hash) batchSize mem elems calls = some db ∧
      Versions hash elems calls db .closed := by
  obtain ⟨mem', q, hbuild, -, hq, ht⟩ := Pam.build_gives hinj mem elems
  obtain ⟨db₁, hrun₁, h₁⟩ := (versions_init hinj batchSize hq ht).updates hinj calls
  obtain ⟨db, hrun, h⟩ := h₁.close hinj
  refine ⟨db, ?_, h⟩
  have hbuild' : (Pam.interface hash).build mem elems = some (mem', q) := hbuild
  simp only [run, hbuild', hrun₁, hrun, Option.bind_eq_bind, Option.bind_some]

/--
**The batch size does not matter.**  Two runs of the same calls, each closed at its end,
come to roots whose trees are the same: in shape and, node by node, in key, priority,
last entry and aggregates.  Both have committed every call, and what the last entry of a
key is follows from the calls one after the other.
-/
theorem batch_size_irrelevant (hash : UInt64 → UInt64) (hinj : Function.Injective hash)
    (mem : Store) (elems : List UInt64) (calls : List Call) (b₁ b₂ : Nat) :
    ∃ db₁ db₂ e₁ e₂ t₁ t₂,
      run (Pam.interface hash) b₁ mem elems calls = some db₁ ∧
      run (Pam.interface hash) b₂ mem elems calls = some db₂ ∧
      db₁.store.get? db₁.root = some e₁ ∧ db₂.store.get? db₂.root = some e₂ ∧
      Shows layout db₁.mem e₁.t t₁ ∧ Shows layout db₂.mem e₂.t t₂ ∧
      t₁.map Pam.Datum.summary = t₂.map Pam.Datum.summary ∧
      db₁.versionCommitted = calls.length ∧ db₂.versionCommitted = calls.length ∧
      ∀ k, lastEntry k t₁ = entryAfter k 1 (firstEntry elems k) calls ∧
        lastEntry k t₂ = entryAfter k 1 (firstEntry elems k) calls := by
  obtain ⟨db₁, hrun₁, h₁⟩ := run_versions hinj b₁ mem elems calls
  obtain ⟨db₂, hrun₂, h₂⟩ := run_versions hinj b₂ mem elems calls
  obtain ⟨hcommitted₁, e₁, t₁, he₁, -, ht₁, hver₁⟩ := h₁.closed
  obtain ⟨hcommitted₂, e₂, t₂, he₂, -, ht₂, hver₂⟩ := h₂.closed
  have hentries₁ := hver₁.entries
  have hentries₂ := hver₂.entries
  rw [List.take_length] at hentries₁ hentries₂
  exact ⟨db₁, db₂, e₁, e₂, t₁, t₂, hrun₁, hrun₂, he₁, he₂, ht₁, ht₂,
    hver₁.wellFormed.summary_eq hver₂.wellFormed fun k => (hentries₁ k).trans (hentries₂ k).symm,
    hcommitted₁, hcommitted₂, fun k => ⟨hentries₁ k, hentries₂ k⟩⟩

/-- A full buffer against a change of type, with an empty buffer committed on the way. -/
theorem batch_size_irrelevant_mixed :
    ∃ db₁ db₂ e₁ e₂ t₁ t₂,
      run (Pam.interface id) 1 ⟨#[]⟩ [5, 7, 5] [(.insert, 9), (.delete, 5), (.insert, 5)] = some db₁ ∧
      run (Pam.interface id) 4 ⟨#[]⟩ [5, 7, 5] [(.insert, 9), (.delete, 5), (.insert, 5)] = some db₂ ∧
      db₁.store.get? db₁.root = some e₁ ∧ db₂.store.get? db₂.root = some e₂ ∧
      Shows layout db₁.mem e₁.t t₁ ∧ Shows layout db₂.mem e₂.t t₂ ∧
      t₁.map Pam.Datum.summary = t₂.map Pam.Datum.summary ∧
      db₁.versionCommitted = 3 ∧ db₂.versionCommitted = 3 ∧
      ∀ k, lastEntry k t₁ = entryAfter k 1 (firstEntry [5, 7, 5] k)
          [(.insert, 9), (.delete, 5), (.insert, 5)] ∧
        lastEntry k t₂ = entryAfter k 1 (firstEntry [5, 7, 5] k)
          [(.insert, 9), (.delete, 5), (.insert, 5)] :=
  batch_size_irrelevant id Function.injective_id ⟨#[]⟩ [5, 7, 5]
    [(.insert, 9), (.delete, 5), (.insert, 5)] 1 4

end Batch
