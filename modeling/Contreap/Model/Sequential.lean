/-
`DB::Sequential`: the persistent treap, one update at a time.

One thread issues the calls, and `roots_` keeps the root of every version.  The array
is as long as `Init` is told, `m + 1`; a call beyond that is out of bounds, `none`
here.  A query is a version of its own that shares its root with the one before it,
and is answered later, by whoever processes it, from the root of its version.
-/
import Mathlib.Algebra.Order.Group.Multiset
import Contreap.Model.Treap

namespace Sequential

open PtrHeap Treap

/-- The calls of the interface. -/
inductive Call
  | query (l r : UInt64)
  | insert (k : UInt64)
  | delete (k : UInt64)
  deriving DecidableEq, Repr

/-- The nodes of all versions, and the root of each. -/
structure DB where
  store : Store
  numVersions : Nat
  roots : Array Ptr

section
variable (hash : UInt64 → UInt64)

/-- Version `0` is the tree of the elements, and the roots of the others are null. -/
def init (m : Nat) (elems : List UInt64) : Option DB := do
  let (s, t) ← buildParallel hash ⟨#[]⟩ elems
  some { store := s, numVersions := 0, roots := (Array.replicate (m + 1) none).setIfInBounds 0 t }

/-- Store the root of the version just issued, if there is room for it. -/
def setRoot (db : DB) (s : Store) (ver : Nat) (t : Ptr) : Option DB :=
  if ver < db.roots.size then
    some { store := s, numVersions := ver, roots := db.roots.setIfInBounds ver t }
  else none

/-- A version in which nothing changes. -/
def query (db : DB) : Option DB := do
  let ver := 1 + db.numVersions
  let t ← db.roots[ver - 1]?
  setRoot db db.store ver t

/-- The key goes into the tree of the version before, and the new tree is augmented. -/
def insert (db : DB) (k : UInt64) : Option DB := do
  let ver := 1 + db.numVersions
  let tPast ← db.roots[ver - 1]?
  let (s, t) ← searchInsert (recursionBound db.store) db.store ver tPast (hash k) k
  let (s, _) ← augment (recursionBound s) s t
  setRoot db s ver t

/-- The key is taken out of the tree of the version before, and the new tree is augmented.
-/
def delete (db : DB) (k : UInt64) : Option DB := do
  let ver := 1 + db.numVersions
  let tPast ← db.roots[ver - 1]?
  let (s, t) ← searchDelete (recursionBound db.store) db.store ver tPast (hash k) k
  let (s, _) ← augment (recursionBound s) s t
  setRoot db s ver t

/-- A call of the interface. -/
def call (db : DB) : Call → Option DB
  | .query _ _ => query db
  | .insert k => insert hash db k
  | .delete k => delete hash db k

/-- The calls of a program, in order. -/
def calls (db : DB) : List Call → Option DB
  | [] => some db
  | c :: rest => (call hash db c).bind fun db => calls db rest

end

/-- `range_estimate(roots_[ver], l, r)`. -/
def estimate (db : DB) (ver : Nat) (l r : UInt64) : Option UInt64 := do
  let t ← db.roots[ver]?
  rangeEstimateOpen db.store t l r

/-- The answer to a query once its version is there; a key that is not stored has no
node to read the counter from. -/
def processorFunction (db : DB) (ver : Nat) (l r : UInt64) : Option UInt64 := do
  if db.numVersions < ver then none
  else if l = r then
    let t ← db.roots[ver]?
    let t ← find (recursionBound db.store) db.store t l
    let n ← t.bind db.store.get?
    some n.val
  else estimate db ver l r

/-! ### What the calls are for

An array is a multiset.  A deletion takes one element away, and does nothing if there is
none.
-/

/-- The multiset of elements after one call. -/
def effect (m : Multiset UInt64) : Call → Multiset UInt64
  | .query _ _ => m
  | .insert k => k ::ₘ m
  | .delete k => m.erase k

/-- The multiset of elements after a sequence of calls. -/
def reference (elems : List UInt64) (cs : List Call) : Multiset UInt64 :=
  cs.foldl effect (elems : Multiset UInt64)

end Sequential
