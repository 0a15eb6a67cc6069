/-
`DB::Interface`: a database and the query processor in front of it.

A database is what the template classes have in common.  One thread, the modifier,
issues the calls of the interface; a database may have threads of its own; and the
clients of the query processor compute the answers, reading what the others write.  A
`Server` says of one database what a step of its threads is, where the modifier calls
`Push` and `Stop`, and what a client does from taking a query to returning.

The system is the server together with the query processor.  Its steps interleave at
will, except that the modifier is in `Start`, in a call, or in `Stop`.
-/
import Contreap.Model.QueryProcessor

namespace DB

/-- What `Push` is given. -/
structure Pushed where
  ver : Nat
  l : UInt64
  r : UInt64
  deriving DecidableEq, Repr

/-- A database, apart from its query processor. -/
structure Server (σ α κ : Type) where
  /-- What `Init` leaves, up to `Start`. -/
  init : σ
  step : σ → α → Option σ
  /-- Whether it is the modifier that takes the step. -/
  own : α → Bool
  /-- What the modifier is about to push, and where it is after that. -/
  push : σ → Option (Pushed × σ)
  /-- Whether the modifier is at `Stop`. -/
  closing : σ → Bool
  /-- What a client starts with. -/
  fresh : κ
  /-- At the beginning of `do_process_`. -/
  ask : κ → Pushed → κ
  /-- A step in `do_process_`; clients write nothing that others read. -/
  work : σ → κ → Option κ
  /-- What `do_process_` has returned, if it has. -/
  ret : κ → Option UInt64

/-- The database, its query processor, and what each client has of its own. -/
structure State (σ κ : Type) where
  db : σ
  queryProcessor : QueryProcessor.State
  locals : Nat → κ

/-- A step of the query processor, or of a thread of the database. -/
inductive Action (α : Type)
  | start
  | begin
  | db (a : α)
  | push
  | stop
  | join
  /-- The next step of a client; `pick` chooses the element a dequeue delivers. -/
  | client (id pick : Nat)

section
variable {σ α κ : Type} (numClients : Nat) (S : Server σ α κ)

/-- Nothing has been started yet. -/
def init : State σ κ where
  db := S.init
  queryProcessor := QueryProcessor.init
  locals := fun _ => S.fresh

/-- A step of the query processor in which no answer is stored. -/
def processorStep (s : State σ κ) (a : QueryProcessor.Action) : Option (State σ κ) :=
  (QueryProcessor.step numClients (fun _ _ _ => 0) s.queryProcessor a).map fun qp =>
    { s with queryProcessor := qp }

/-- The query of a client, as it was pushed. -/
def pushedOf (q : QueryProcessor.QueryContext) : Pushed := ⟨q.ver, q.l, q.r⟩

/-- A client that takes a query goes on to `do_process_`. -/
def dequeued (s : State σ κ) (id : Nat) : State σ κ :=
  match s.queryProcessor.clients id with
  | .processing q =>
      { s with locals := Function.update s.locals id (S.ask (s.locals id) (pushedOf q)) }
  | _ => s

/-- A client that holds a query works on it until there is something to return, which it
stores; any other takes its next step in `process_`. -/
def clientStep (s : State σ κ) (id pick : Nat) : Option (State σ κ) :=
  match s.queryProcessor.clients id with
  | .processing _ =>
      match S.ret (s.locals id) with
      | some ret =>
          (QueryProcessor.processStep (fun _ _ _ => ret) s.queryProcessor id pick).map fun qp =>
            { s with queryProcessor := qp }
      | none =>
          (S.work s.db (s.locals id)).map fun k =>
            { s with locals := Function.update s.locals id k }
  | _ =>
      (QueryProcessor.processStep (fun _ _ _ => 0) s.queryProcessor id pick).map fun qp =>
        dequeued S { s with queryProcessor := qp } id

/-- What the modifier does by itself, and what it pushes, falls between `Start` and
`Stop`. -/
def step (s : State σ κ) : Action α → Option (State σ κ)
  | .start => processorStep numClients s .start
  | .begin => processorStep numClients s .begin
  | .db a =>
      if S.own a = true ∧ s.queryProcessor.pusher ≠ .serving then none
      else (S.step s.db a).map fun db => { s with db := db }
  | .push => do
      let (p, db) ← S.push s.db
      processorStep numClients { s with db := db } (.push p.ver p.l p.r)
  | .stop => if S.closing s.db = true then processorStep numClients s .stop else none
  | .join => processorStep numClients s .join
  | .client id pick => if id < numClients then clientStep S s id pick else none

/-- A database with `numClients` clients in front of it. -/
def system : Transition.System (State σ κ) (Action α) := ⟨init S, step numClients S⟩

end

end DB
