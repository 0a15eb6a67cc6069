/-
`DB::Batch`: updates are buffered and applied together.

The modifier thread collects updates of one type until the buffer is full or the type
changes, applies them to the last tree, and appends the new tree to a doubly linked list
of roots.  The client threads answer queries from this list while it grows.  Each keeps a
cursor into it from one query to the next, and moves it back and forth to the root that
holds the version asked for.

The trees are those of the class the template is instantiated with, a parameter here:
`M` is the memory they are in, and `N` a pointer to one.
A step of the system is one step of one thread: of the modifier between two writes to
what is shared, and of a client one test of its loops.
-/
import Mathlib.Logic.Function.Basic
import Contreap.Lib.Heap
import Contreap.Lib.Transition

namespace Batch

open PtrHeap

/-- What `Batch` uses of its template argument. -/
structure Backend (M N : Type) where
  build : M → List UInt64 → Option (M × N)
  inserted : M → N → Nat → List UInt64 → Option (M × N)
  deleted : M → N → Nat → List UInt64 → Option (M × N)
  find : M → N → Nat → UInt64 → Option UInt64
  rangeEstimate : M → N → Nat → UInt64 → UInt64 → Option UInt64

/-- What a buffered update asks for; a batch holds updates of one type. -/
inductive Operation
  | insert
  | delete
  deriving DecidableEq, Repr

/-- An entry of the list of roots: a tree, and the last version it holds. -/
structure RootList (N : Type) where
  ver : Nat
  t : N
  prev : Ptr
  next : Ptr

/-- The first `buffer_count_` entries of `buffer_` are the list `buffer`. -/
structure DB (M N : Type) where
  mem : M
  batchSize : Nat
  bufferType : Operation
  buffer : List UInt64
  versionSubmitted : Nat
  versionCommitted : Nat
  store : Heap (RootList N)
  root : Addr
  root0 : Addr
  numVersions : Nat

section
variable {M N : Type} (T : Backend M N)

/-! ### The modifier

Between two writes to what clients read, the modifier has a place of its own, and the
functions here are cut at these places.
-/

/-- What `Init` leaves, with the tree that `build` returns. -/
def init (batchSize : Nat) (mem : M) (t₀ : N) : DB M N where
  mem := mem
  batchSize := batchSize
  bufferType := .insert
  buffer := []
  versionSubmitted := 0
  versionCommitted := 0
  store := ⟨#[⟨0, t₀, none, none⟩]⟩
  root := 0
  root0 := 0
  numVersions := 0

/-- The tree that the buffer makes of `t`; its first version follows those applied before.
-/
def newTree (db : DB M N) (t : N) : Option (M × N) :=
  match db.bufferType with
  | .insert => T.inserted db.mem t (db.versionCommitted + 1) db.buffer
  | .delete => T.deleted db.mem t (db.versionCommitted + 1) db.buffer

/-- `do_update_` up to where the tree is to be appended. -/
def applyBuffer (db : DB M N) : Option (DB M N × N) := do
  let root ← db.store.get? db.root
  let (mem, t) ← newTree T db root.t
  some ({ db with
    mem := mem, versionCommitted := db.versionCommitted + db.buffer.length, buffer := [] }, t)

/-- An entry for the new tree, linked behind the last one. -/
def linkNext (db : DB M N) (t : N) : DB M N :=
  let (store, a) := db.store.alloc ⟨db.versionCommitted, t, some db.root, none⟩
  { db with store := store.modify db.root fun e => { e with next := some a } }

/-- The modifier goes on to the entry it has just linked. -/
def advanceRoot (db : DB M N) : Option (DB M N) := do
  let root ← db.store.get? db.root
  let next ← root.next
  some { db with root := next }

/-- From now on a client may go on to the new entry. -/
def countVersion (db : DB M N) : DB M N := { db with numVersions := db.numVersions + 1 }

/-- Apply the buffer, append the tree and count it. -/
def doUpdate (db : DB M N) : Option (DB M N) := do
  let (db, t) ← applyBuffer T db
  let db ← advanceRoot (linkNext db t)
  some (countVersion db)

/-- A key at the end of the buffer; its version is given out here, long before the batch
is applied. -/
def putBuffer (db : DB M N) (type : Operation) (key : UInt64) : DB M N :=
  { db with
    bufferType := type
    buffer := db.buffer ++ [key]
    versionSubmitted := db.versionSubmitted + 1 }

/-- `Insert` and `Delete`.  A change of type empties the buffer before the key goes in,
and a full buffer is emptied after. -/
def updateEnbuffer (db : DB M N) (type : Operation) (key : UInt64) : Option (DB M N) := do
  let db ← if db.bufferType ≠ type then doUpdate T db else some db
  let db := putBuffer db type key
  if db.buffer.length = db.batchSize then doUpdate T db else some db

/-- What is left in the buffer is applied; an empty batch is not. -/
def close (db : DB M N) : Option (DB M N) :=
  if db.buffer.length > 0 then doUpdate T db else some db

/-- Calls of `Insert` and `Delete`. -/
def updates (db : DB M N) : List (Operation × UInt64) → Option (DB M N)
  | [] => some db
  | (type, key) :: rest => (updateEnbuffer T db type key).bind fun db => updates db rest

/-- `Init`, calls of `Insert` and `Delete`, and `Close`. -/
def run (batchSize : Nat) (mem : M) (elems : List UInt64) (us : List (Operation × UInt64)) :
    Option (DB M N) := do
  let (mem, t₀) ← T.build mem elems
  let db ← updates T (init batchSize mem t₀) us
  close T db

/-! ### Queries -/

/-- What a client is asked for. -/
structure Query where
  ver : Nat
  l : UInt64
  r : UInt64
  deriving DecidableEq, Repr

/-- The end of `process_range_query_`, at the root it has come to. -/
def evaluate (mem : M) (e : RootList N) (q : Query) : Option UInt64 :=
  if q.l = q.r then T.find mem e.t q.ver q.l else T.rangeEstimate mem e.t q.ver q.l q.r

/-! ### Threads -/

/-- What the modifier does after `do_update_`. -/
inductive After
  | enbuffer (type : Operation) (key : UInt64)
  | return
  | close
  deriving DecidableEq, Repr

/-- Where the modifier is. -/
inductive Modifier (N : Type)
  /-- Between two calls. -/
  | idle
  /-- About to put a key into the buffer. -/
  | enbuffer (type : Operation) (key : UInt64)
  /-- At the start of `do_update_`. -/
  | update (after : After)
  /-- With a new tree, about to append it. -/
  | link (t : N) (after : After)
  | advance (after : After)
  | count (after : After)
  | closed

/-- Where a client is in `process_range_query_`. -/
inductive ClientAt
  | idle
  /-- At the head of the loop that goes back. -/
  | back (q : Query)
  /-- At the head of the loop that goes on. -/
  | forward (q : Query)
  /-- At the head of the loop inside it. -/
  | inner (q : Query)
  | evaluate (q : Query)
  /-- A null pointer is followed. -/
  | fault
  deriving DecidableEq, Repr

/-- What a client keeps from one query to the next, and where it is. -/
structure Client where
  curVid : Nat
  lastVid : Nat
  curRoot : Addr
  at_ : ClientAt
  deriving DecidableEq, Repr

/-- A query, and what was returned for it. -/
structure Answer where
  query : Query
  ret : UInt64
  deriving DecidableEq, Repr

/-- The database and its threads, and what has been called and answered so far. -/
structure State (M N : Type) where
  db : DB M N
  modifier : Modifier N
  clients : Nat → Client
  /-- The calls of `Insert` and `Delete`, in order. -/
  calls : List (Operation × UInt64)
  answers : List Answer

/-- A call begins, a client is given a query, or one of them takes its next step. -/
inductive Action
  | call (type : Operation) (key : UInt64)
  | close
  | modifier
  | query (id : Nat) (q : Query)
  | client (id : Nat)
  deriving DecidableEq, Repr

/-- Every client starts at the first root. -/
def start (batchSize : Nat) (mem : M) (t₀ : N) : State M N where
  db := init batchSize mem t₀
  modifier := .idle
  clients := fun _ => ⟨0, 0, 0, .idle⟩
  calls := []
  answers := []

/-- The other clients are left as they are. -/
def State.setClient (s : State M N) (id : Nat) (k : Client) : State M N :=
  { s with clients := Function.update s.clients id k }

/-- Where the modifier goes on when the new entry is counted. -/
def resume : After → Modifier N
  | .enbuffer type key => .enbuffer type key
  | .return => .idle
  | .close => .closed

/-- The modifier inside a call, up to its next write to what is shared. -/
def modifierStep (s : State M N) : Option (State M N) :=
  match s.modifier with
  | .idle => none
  | .enbuffer type key =>
      let db := putBuffer s.db type key
      some { s with
        db := db, modifier := if db.buffer.length = db.batchSize then .update .return else .idle }
  | .update after => do
      let (db, t) ← applyBuffer T s.db
      some { s with db := db, modifier := .link t after }
  | .link t after => some { s with db := linkNext s.db t, modifier := .advance after }
  | .advance after => do
      let db ← advanceRoot s.db
      some { s with db := db, modifier := .count after }
  | .count after => some { s with db := countVersion s.db, modifier := resume after }
  | .closed => none

/-- The entry a pointer is followed to. -/
def entry (db : DB M N) (p : Ptr) : Option (Addr × RootList N) := do
  let a ← p
  let e ← db.store.get? a
  some (a, e)

/-- One test of the loops of `process_range_query_`, and the move it decides on.
Following the null pointer is a `fault`. -/
def clientStep (s : State M N) (id : Nat) : Option (State M N) :=
  let k := s.clients id
  match k.at_, entry s.db (some k.curRoot) with
  | .idle, _ | .fault, _ => none
  | .back q, some (_, cur) =>
      if k.curRoot = s.db.root0 then some (s.setClient id { k with at_ := .forward q })
      else
        match entry s.db cur.prev with
        | none => some (s.setClient id { k with at_ := .fault })
        | some (a, prev) =>
            if q.ver ≤ prev.ver then
              some (s.setClient id { k with curVid := k.curVid - 1, curRoot := a })
            else some (s.setClient id { k with at_ := .forward q })
  | .forward q, some (_, cur) =>
      some (s.setClient id { k with at_ := if q.ver > cur.ver then .inner q else .evaluate q })
  | .inner q, some (_, cur) =>
      if q.ver > cur.ver ∧ k.curVid < k.lastVid then
        match entry s.db cur.next with
        | none => some (s.setClient id { k with at_ := .fault })
        | some (a, _) => some (s.setClient id { k with curVid := k.curVid + 1, curRoot := a })
      else if q.ver > cur.ver then
        some (s.setClient id { k with lastVid := s.db.numVersions, at_ := .forward q })
      else some (s.setClient id { k with at_ := .forward q })
  | .evaluate q, some (_, cur) =>
      (evaluate T s.db.mem cur q).map fun ret =>
        { s.setClient id { k with at_ := .idle } with answers := s.answers ++ [⟨q, ret⟩] }
  | _, none => some (s.setClient id { k with at_ := .fault })

/-- A call begins only when the one before has returned, and a client takes one query at a
time. -/
def step (s : State M N) : Action → Option (State M N)
  | .call type key =>
      match s.modifier with
      | .idle =>
          some { s with
            calls := s.calls ++ [(type, key)]
            modifier := if s.db.bufferType ≠ type then .update (.enbuffer type key)
              else .enbuffer type key }
      | _ => none
  | .close =>
      match s.modifier with
      | .idle => some { s with modifier := if s.db.buffer.length > 0 then .update .close else .closed }
      | _ => none
  | .modifier => modifierStep T s
  | .query id q =>
      if (s.clients id).at_ = .idle then
        some (s.setClient id { s.clients id with at_ := .back q })
      else none
  | .client id => clientStep T s id

/-- The modifier and any number of clients, interleaved at will. -/
def system (batchSize : Nat) (mem : M) (t₀ : N) : Transition.System (State M N) Action :=
  ⟨start batchSize mem t₀, step T⟩

/-! ### The list of roots

A root holds the versions after the one before it, up to its own.  The first holds
everything up to its version.
-/

/-- The entry a number of links away from the first one. -/
def follow (db : DB M N) : Nat → Ptr
  | 0 => some db.root0
  | i + 1 => do
      let a ← follow db i
      let e ← db.store.get? a
      e.next

/-- An entry of the list from which a query of this version is to be answered. -/
def Serves (db : DB M N) (ver : Nat) (a : Addr) : Prop :=
  ∃ e, db.store.get? a = some e ∧ ver ≤ e.ver ∧
    (a = db.root0 ∨ ∃ p prev, e.prev = some p ∧ db.store.get? p = some prev ∧ prev.ver < ver)

end

end Batch
