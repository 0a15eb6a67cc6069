/-
The three databases behind `DB::Interface`, with their threads.

`calls` is what the program asks for, in order.  In `Sequential` the modifier does all
the work of a call; in `Contreap` it is the master of a scheduler whose threads go on by
themselves; in `Batch` it puts updates into a buffer and now and then applies it.  The
clients of the first two wait for the version of a query and then read the tree at its
root; those of the third go through the list of roots with a cursor of their own.
-/
import Mathlib.Data.Nat.Log
import Contreap.Model.Batch
import Contreap.Model.Interface
import Contreap.Model.Reader
import Contreap.Model.Scheduler
import Contreap.Model.Sequential

namespace DB

open PtrHeap

/-- A client that waits for a root and reads the tree there. -/
inductive Client
  | idle
  | wait (p : Pushed)
  | read (k : Treap.Reader)
  deriving DecidableEq, Repr

namespace Client

/-- `root ver` is the root of a version, once the wait for it is over. -/
def work (root : Nat → Option Ptr) (s : Treap.Store) : Client → Option Client
  | .idle => none
  | .wait p => (root p.ver).map fun t => .read (.query t p.l p.r)
  | .read k => (k.step s).map .read

/-- What it has returned. -/
def ret : Client → Option UInt64
  | .read k => k.ret?
  | _ => none

/-- It has returned, or has followed the null pointer. -/
def ended : Client → Bool
  | .read (.done _) | .read .fault => true
  | _ => false

end Client

end DB

/-! ### `Sequential` -/

namespace Sequential

open PtrHeap Treap

/-- Where the modifier is in a call. -/
inductive Modifier
  | idle
  /-- About to store the root of the version it has counted. -/
  | root (c : Call) (ver : Nat)
  | augment (ver : Nat)
  | push (ver : Nat) (l r : UInt64)
  deriving DecidableEq, Repr

/-- The database, and where its modifier is. -/
structure Shared where
  db : DB
  modifier : Modifier

/-- The root a call stores. -/
def newRoot (hash : UInt64 → UInt64) (s : Store) (ver : Nat) (tPast : Ptr) : Call → Option (Store × Ptr)
  | .query _ _ => some (s, tPast)
  | .insert k => searchInsert (recursionBound s) s ver tPast (hash k) k
  | .delete k => searchDelete (recursionBound s) s ver tPast (hash k) k

/-- Where the modifier goes on when the root is there. -/
def afterRoot (ver : Nat) : Call → Modifier
  | .query l r => .push ver l r
  | .insert _ | .delete _ => .augment ver

/-- A call in the order of its writes: the version is counted, its root is stored, and the
tree is augmented or the query pushed. -/
def modifierStep (hash : UInt64 → UInt64) (calls : List Call) (s : Shared) : Option Shared :=
  match s.modifier with
  | .idle => do
      let c ← calls[s.db.numVersions]?
      let ver := 1 + s.db.numVersions
      some { db := { s.db with numVersions := ver }, modifier := .root c ver }
  | .root c ver => do
      let tPast ← s.db.roots[ver - 1]?
      let (store, t) ← newRoot hash s.db.store ver tPast c
      let db ← setRoot s.db store ver t
      some { db := db, modifier := afterRoot ver c }
  | .augment ver => do
      let t ← s.db.roots[ver]?
      let (store, _) ← augment (recursionBound s.db.store) s.db.store t
      some { db := { s.db with store := store }, modifier := .idle }
  | .push _ _ _ => none

/-- `roots_[ver]`, for a version that has been counted. -/
def rootOf (db : DB) (ver : Nat) : Option Ptr :=
  if db.numVersions < ver then none else db.roots[ver]?

/-- The database `Init` has left as `db₀`, asked for `calls`. -/
def server (hash : UInt64 → UInt64) (calls : List Call) (db₀ : DB) :
    DB.Server Shared Unit DB.Client where
  init := ⟨db₀, .idle⟩
  step s _ := modifierStep hash calls s
  own _ := true
  push s :=
    match s.modifier with
    | .push ver l r => some (⟨ver, l, r⟩, { s with modifier := .idle })
    | _ => none
  closing s := s.modifier = .idle ∧ s.db.numVersions = calls.length
  fresh := .idle
  ask _ p := .wait p
  work s k := k.work (rootOf s.db) s.db.store
  ret := DB.Client.ret

end Sequential

/-! ### `Contreap` -/

namespace Contreap

open Scheduler

/-- `ceil(2 * log2(num_threads))` is the least exponent with `num_threads ^ 2` below the power. -/
def decideNumPipes (numThreads : Nat) : Nat :=
  if numThreads < 16 then numThreads / 2 else Nat.clog 2 (numThreads ^ 2)

/-- The threads that are no pipes, but at least one. -/
def decideNumWorkers (numThreads : Nat) : Nat :=
  let p := numThreads - decideNumPipes numThreads
  if p > 0 then p else 1

/-- A query takes a version of its own, in which nothing changes. -/
def toOp : Sequential.Call → Op
  | .query _ _ => .nop
  | .insert k => .insertElem k
  | .delete k => .deleteElem k

/-- The scheduler `Init` makes, for a program that makes these calls. -/
def config (hash : UInt64 → UInt64) (numThreads blockSize m : Nat) (heap₀ : Treap.Store)
    (t₀ : PtrHeap.Ptr) (calls : List Sequential.Call) : Config where
  numPipes := decideNumPipes numThreads
  numWorkers := decideNumWorkers numThreads
  blockSize := blockSize
  numTasks := m
  hash := hash
  ops := calls.map toOp
  heap₀ := heap₀
  t₀ := t₀

/-- The scheduler, and the query whose version it has just been asked for. -/
structure Shared where
  scheduler : Scheduler.State
  pending : Option (UInt64 × UInt64)

/-- What is to be pushed when the call has returned. -/
def rangeOf : Sequential.Call → Option (UInt64 × UInt64)
  | .query l r => some (l, r)
  | .insert _ | .delete _ => none

/-- All threads of the scheduler have come to their end. -/
def joined (c : Config) (s : Scheduler.State) : Bool :=
  (∀ i < c.numPipes, (s.pipes (i + 1)).pos = c.numTasks + 1) ∧
    s.boarder.localSubmitted = c.numTasks ∧ s.boarder.storing = false ∧
    (∀ i < c.numWorkers, (s.workers (i + 1)).at_ = .stopped) ∧
    s.collector.localCommitted = c.numTasks

/-- The master starts a call only when the one before has returned. -/
def step (c : Config) (calls : List Sequential.Call) (s : Shared) (a : Action) : Option Shared :=
  if a = .master ∧ s.scheduler.master = .idle then
    if s.pending = none then do
      let call ← calls[s.scheduler.numIssued]?
      let scheduler ← Scheduler.step c s.scheduler .master
      some ⟨scheduler, rangeOf call⟩
    else none
  else (Scheduler.step c s.scheduler a).map fun scheduler => { s with scheduler := scheduler }

/-- The database `Init` has left, with the master of its scheduler as the modifier. -/
def server (c : Config) (calls : List Sequential.Call) : DB.Server Shared Action DB.Client where
  init := ⟨Scheduler.init c, none⟩
  step := step c calls
  own a := a = .master
  push s :=
    match s.pending with
    | some (l, r) =>
        if s.scheduler.master = .idle then
          some (⟨s.scheduler.numIssued, l, r⟩, { s with pending := none })
        else none
    | none => none
  closing s := s.pending = none ∧ s.scheduler.master = .idle ∧
    s.scheduler.numIssued = calls.length ∧ joined c s.scheduler
  fresh := .idle
  ask _ p := .wait p
  work s k := k.work (getSnapshot c s.scheduler) s.scheduler.heap
  ret := DB.Client.ret

/-! ### One client, in the midst of the scheduler's threads

`server` lets its clients read between two steps of the threads, which is all there is to
see of a version whose tasks are done.  A snapshot may be returned before that, and then
a client also comes to nodes that are half written.  A search takes one field of a node
besides its key, which never changes, so that a read of a node is one step.
-/

/-- The scheduler, and a client that runs `processor_function_`. -/
structure Asked where
  scheduler : Scheduler.State
  client : DB.Client

/-- Whose turn it is. -/
inductive Turn
  | thread (a : Action)
  /-- The client reads a node, or is past its wait for the version. -/
  | client (m : Moment)

/-- The reads a turn takes. -/
def Turn.reads : Turn → Nat
  | .thread _ => 0
  | .client _ => 1

/-- A thread takes a step, or the client reads what there is to see at a moment. -/
def askedStep (c : Config) (s : Asked) : Turn → Option Asked
  | .thread a => (Scheduler.step c s.scheduler a).map fun t => { s with scheduler := t }
  | .client m => do
      let heap ← seen c s.scheduler m
      let client ← s.client.work (getSnapshot c s.scheduler) heap
      some { s with client := client }

/-- A client that takes a query when the scheduler is in `s`. -/
def asked (c : Config) (s : Scheduler.State) (p : DB.Pushed) : Transition.System Asked Turn :=
  ⟨⟨s, .wait p⟩, askedStep c⟩

end Contreap

/-! ### `Batch` -/

namespace Batch

/-- The modifier of a batch, with no clients, and how many calls have been made. -/
structure Shared (M N : Type) where
  state : State M N
  made : Nat

/-- A client, and what it has returned. -/
structure Local where
  client : Client
  ret : Option UInt64

section
variable {M N : Type} (T : Backend M N)

/-- The modifier begins the next call, goes on with the one it is in, or closes.  A query
is pushed, which is no step of its own. -/
def sharedStep (calls : List Sequential.Call) (s : Shared M N) : Option (Shared M N) :=
  match s.state.modifier with
  | .idle =>
      match calls[s.made]? with
      | some (.insert k) => (step T s.state (.call .insert k)).map fun t => ⟨t, s.made + 1⟩
      | some (.delete k) => (step T s.state (.call .delete k)).map fun t => ⟨t, s.made + 1⟩
      | some (.query _ _) => none
      | none => (step T s.state .close).map fun t => { s with state := t }
  | _ => (step T s.state .modifier).map fun t => { s with state := t }

/-- A client's step touches nothing but what is its own. -/
def localStep (s : State M N) (k : Local) : Option Local :=
  (clientStep T { s with clients := fun _ => k.client, answers := [] } 0).map fun t =>
    ⟨t.clients 0, t.answers.head?.map Answer.ret⟩

/-- The database `Init` has left, asked for `calls`. -/
def server (calls : List Sequential.Call) (batchSize : Nat) (mem : M) (t₀ : N) :
    DB.Server (Shared M N) Unit Local where
  init := ⟨start batchSize mem t₀, 0⟩
  step s _ := sharedStep T calls s
  own _ := true
  push s :=
    match s.state.modifier, calls[s.made]? with
    | .idle, some (.query l r) =>
        some (⟨s.state.db.versionSubmitted, l, r⟩, { s with made := s.made + 1 })
    | _, _ => none
  closing s :=
    match s.state.modifier with
    | .closed => true
    | _ => false
  fresh := ⟨⟨0, 0, 0, .idle⟩, none⟩
  ask k p := ⟨{ k.client with at_ := .back ⟨p.ver, p.l, p.r⟩ }, none⟩
  work s k := localStep T s.state k
  ret := Local.ret

end

end Batch
