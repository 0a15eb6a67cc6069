/-
A client that reads a tree while other threads write.

A query goes through the nodes of a tree one after the other, and other threads take
steps in between.  `Reader` is where a client is in `find(t, l)->val` or in
`range_estimate(t, l, r)`: the second calls itself for the left subtree first, then for
the right one, and adds the counter of the node at the end, so what is left to do is a
list of subtrees and counters.  A step reads one node, from the store as it is then.
-/
import Contreap.Model.Treap

namespace Treap

open PtrHeap

/-- What is still to be added to a sum. -/
inductive Pending
  | subtree (t : Ptr) (d : RangeCover)
  | counter (t : Addr)
  deriving DecidableEq, Repr

/-- Where a client is in a query. -/
inductive Reader
  | find (t : Ptr) (key : UInt64)
  | estimate (l r : UInt64) (todo : List Pending) (ret : UInt64)
  | done (ret : UInt64)
  /-- The null pointer has been followed. -/
  | fault
  deriving DecidableEq, Repr

/-- The calls `range_estimate` makes at a node, and the counter it adds after them. -/
def splitRange (n : Node) (t : Addr) (l r : UInt64) : RangeCover → List Pending
  | .openOpen =>
      if r < n.key then [.subtree n.lch .openOpen]
      else if l > n.key then [.subtree n.rch .openOpen]
      else [.subtree n.lch .openClose, .subtree n.rch .closeOpen, .counter t]
  | .openClose =>
      if l > n.key then [.subtree n.rch .openClose]
      else [.subtree n.lch .openClose, .subtree n.rch .closeClose, .counter t]
  | .closeOpen =>
      if r < n.key then [.subtree n.lch .closeOpen]
      else [.subtree n.lch .closeClose, .subtree n.rch .closeOpen, .counter t]
  | .closeClose => []

namespace Reader

/-- The next read.  A search that has found no node reads through the null pointer. -/
def step (s : Store) : Reader → Option Reader
  | .find none _ => some .fault
  | .find (some t) key => do
      let n ← s.get? t
      some (if key = n.key then .done n.val else .find (if key < n.key then n.lch else n.rch) key)
  | .estimate _ _ [] ret => some (.done ret)
  | .estimate l r (.subtree none _ :: todo) ret => some (.estimate l r todo ret)
  | .estimate l r (.subtree (some t) d :: todo) ret => do
      let n ← s.get? t
      some (.estimate l r (splitRange n t l r d ++ todo)
        (if d = .closeClose then ret + n.aug else ret))
  | .estimate l r (.counter t :: todo) ret => do
      let n ← s.get? t
      some (.estimate l r todo (ret + n.val))
  | .done _ | .fault => none

/-- The query for a range at the root of a tree. -/
def query (t : Ptr) (l r : UInt64) : Reader :=
  if l = r then .find t l else .estimate l r [.subtree t .openOpen] 0

/-- What the query returns, once it does. -/
def ret? : Reader → Option UInt64
  | .done ret => some ret
  | _ => none

end Reader

end Treap
