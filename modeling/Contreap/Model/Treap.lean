/-
The persistent treap: nodes, and the functions that build, update and read it.

Nodes live in an explicit store and are reached through nullable pointers, as in the
source.  A function that follows links takes the store as it is and gives back the
store as it leaves it; `none` stands for what C++ leaves undefined, reading through a
pointer that shows no node.  Recursion over links is bounded by a fuel, since nothing
in a store says that links do not run in a circle; the callers pass `recursionBound`,
and running out of it is `none` as well.

The priority hash is a parameter.  Branches of a `par_do` work on separate trees and
are run one after the other.
-/
import Contreap.Lib.Heap
import Contreap.Lib.Word

namespace Treap

open PtrHeap

/-! ### `node.hpp` -/

/-- A node of version `ver`, which later versions may share. -/
structure Node where
  ver : Nat
  pry : UInt64
  key : UInt64
  /-- The counter of the key. -/
  val : UInt64
  /-- The sum of the counters below, `0` when it has not been computed. -/
  aug : UInt64
  lch : Ptr
  rch : Ptr
  deriving DecidableEq, Repr

/-- The memory the nodes are in. -/
abbrev Store := Heap Node

/-- What `aug` is before it is computed. -/
def augUninitialized : UInt64 := 0

/-- A node for a key that is new. -/
def makeNode (s : Store) (ver : Nat) (pry key : UInt64) : Store × Addr :=
  s.alloc ⟨ver, pry, key, 1, augUninitialized, none, none⟩

/-- The key and the counter of a node, without its links and its aggregate. -/
def makeWeakCopy (s : Store) (t : Node) (ver : Nat) : Store × Addr :=
  s.alloc ⟨ver, t.pry, t.key, t.val, augUninitialized, none, none⟩

/-- What is left of a deleted node; nothing may depend on it. -/
def releaseNode (s : Store) (t : Addr) : Store :=
  s.modify t fun _ => ⟨0, 0, 0, 0, 0, none, none⟩

/-- `t->lch = p` -/
def setLch (s : Store) (t : Addr) (p : Ptr) : Store := s.modify t fun n => { n with lch := p }

/-- `t->rch = p` -/
def setRch (s : Store) (t : Addr) (p : Ptr) : Store := s.modify t fun n => { n with rch := p }

/-- `t->val = v` -/
def setVal (s : Store) (t : Addr) (v : UInt64) : Store := s.modify t fun n => { n with val := v }

/-- `t->aug = v` -/
def setAug (s : Store) (t : Addr) (v : UInt64) : Store := s.modify t fun n => { n with aug := v }

/-- Enough fuel for any recursion over the links of a store that has no circle. -/
def recursionBound (s : Store) : Nat := s.size + 1

/-! ### `search_insert.hpp` -/

/-- The nodes with keys up to `key`, and the others.  The nodes on the way are copied, and
the tree stays as it is. -/
def splitCopy : Nat → Store → Nat → Ptr → UInt64 → Option (Store × Ptr × Ptr)
  | 0, _, _, _, _ => none
  | _ + 1, s, _, none, _ => some (s, none, none)
  | fuel + 1, s, ver, some t, key => do
      let n ← s.get? t
      if key < n.key then
        let (s, tR) := makeWeakCopy s n ver
        let s := setRch s tR n.rch
        let (s, tL, lch) ← splitCopy fuel s ver n.lch key
        some (setLch s tR lch, tL, some tR)
      else
        let (s, tL) := makeWeakCopy s n ver
        let s := setLch s tL n.lch
        let (s, rch, tR) ← splitCopy fuel s ver n.rch key
        some (setRch s tL rch, some tL, tR)

/-- A node for a new key, on top of the tree that is split by it. -/
def processDeploy (fuel : Nat) (s : Store) (ver : Nat) (tPast : Ptr) (pry key : UInt64) :
    Option (Store × Ptr) := do
  let (s, tNew) := makeNode s ver pry key
  let (s, lch, rch) ← splitCopy fuel s ver tPast key
  some (setRch (setLch s tNew lch) tNew rch, some tNew)

/-- Copy the way down to the key.  If its node is met, the copy counts one more; otherwise
a node is deployed where the priorities have it. -/
def searchInsert : Nat → Store → Nat → Ptr → UInt64 → UInt64 → Option (Store × Ptr)
  | 0, _, _, _, _, _ => none
  | _ + 1, s, ver, none, pry, key =>
      let (s, tNew) := makeNode s ver pry key
      some (s, some tNew)
  | fuel + 1, s, ver, some tPast, pry, key => do
      let n ← s.get? tPast
      if n.pry > pry then
        let (s, tNew) := makeWeakCopy s n ver
        if key < n.key then
          let s := setRch s tNew n.rch
          let (s, lch) ← searchInsert fuel s ver n.lch pry key
          some (setLch s tNew lch, some tNew)
        else
          let s := setLch s tNew n.lch
          let (s, rch) ← searchInsert fuel s ver n.rch pry key
          some (setRch s tNew rch, some tNew)
      else if n.key = key then
        let (s, tNew) := makeWeakCopy s n ver
        let s := setVal s tNew (n.val + 1)
        let s := setLch s tNew n.lch
        let s := setRch s tNew n.rch
        some (s, some tNew)
      else
        processDeploy (fuel + 1) s ver (some tPast) pry key

/-! ### `search_delete.hpp` -/

/-- The nodes of two trees, the keys of the first below those of the second. -/
def processConcat : Nat → Store → Nat → Ptr → Ptr → Option (Store × Ptr)
  | 0, _, _, _, _ => none
  | _ + 1, s, _, none, tR => some (s, tR)
  | _ + 1, s, _, some tL, none => some (s, some tL)
  | fuel + 1, s, ver, some tL, some tR => do
      let nL ← s.get? tL
      let nR ← s.get? tR
      if nL.pry > nR.pry then
        let (s, tNew) := makeWeakCopy s nL ver
        let s := setLch s tNew nL.lch
        let (s, rch) ← processConcat fuel s ver nL.rch (some tR)
        some (setRch s tNew rch, some tNew)
      else
        let (s, tNew) := makeWeakCopy s nR ver
        let s := setRch s tNew nR.rch
        let (s, lch) ← processConcat fuel s ver (some tL) nR.lch
        some (setLch s tNew lch, some tNew)

/-- Copy the way down to the key.  If its node is met, the copy counts one less, or the
subtrees are joined when the counter was `1`; otherwise nothing changes from there on. -/
def searchDelete : Nat → Store → Nat → Ptr → UInt64 → UInt64 → Option (Store × Ptr)
  | 0, _, _, _, _, _ => none
  | _ + 1, s, _, none, _, _ => some (s, none)
  | fuel + 1, s, ver, some tPast, pry, key => do
      let n ← s.get? tPast
      if n.pry > pry then
        let (s, tNew) := makeWeakCopy s n ver
        if key < n.key then
          let s := setRch s tNew n.rch
          let (s, lch) ← searchDelete fuel s ver n.lch pry key
          some (setLch s tNew lch, some tNew)
        else
          let s := setLch s tNew n.lch
          let (s, rch) ← searchDelete fuel s ver n.rch pry key
          some (setRch s tNew rch, some tNew)
      else if n.key = key then
        if n.val = 1 then
          processConcat (recursionBound s + recursionBound s) s ver n.lch n.rch
        else
          let (s, tNew) := makeWeakCopy s n ver
          let s := setVal s tNew (n.val - 1)
          let s := setLch s tNew n.lch
          let s := setRch s tNew n.rch
          some (s, some tNew)
      else
        some (s, some tPast)

/-! ### `build.hpp`

These three write in place: the trees they work on have one owner.
-/

/-- The nodes with keys up to `key`, and the others. -/
def split : Nat → Store → Ptr → UInt64 → Option (Store × Ptr × Ptr)
  | 0, _, _, _ => none
  | _ + 1, s, none, _ => some (s, none, none)
  | fuel + 1, s, some t, key => do
      let n ← s.get? t
      if key < n.key then
        let (s, tL, lch) ← split fuel s n.lch key
        some (setLch s t lch, tL, some t)
      else
        let (s, rch, tR) ← split fuel s n.rch key
        some (setRch s t rch, some t, tR)

/-- The union of two trees.  Of two nodes with one key the second stays, with the sum of
the counters. -/
def merge : Nat → Store → Ptr → Ptr → Option (Store × Ptr)
  | 0, _, _, _ => none
  | _ + 1, s, none, t₁ => some (s, t₁)
  | _ + 1, s, some t₀, none => some (s, some t₀)
  | fuel + 1, s, some t₀, some t₁ => do
      let n₀ ← s.get? t₀
      let n₁ ← s.get? t₁
      if n₀.key = n₁.key then
        let s := setVal s t₁ (n₁.val + n₀.val)
        let (s, lch) ← merge fuel s n₀.lch n₁.lch
        let s := setLch s t₁ lch
        let (s, rch) ← merge fuel s n₀.rch n₁.rch
        let s := setRch s t₁ rch
        some (releaseNode s t₀, some t₁)
      else if n₀.pry > n₁.pry then
        let (s, tL, tR) ← split fuel s (some t₁) n₀.key
        let (s, lch) ← merge fuel s n₀.lch tL
        let s := setLch s t₀ lch
        let (s, rch) ← merge fuel s n₀.rch tR
        some (setRch s t₀ rch, some t₀)
      else
        let (s, tL, tR) ← split fuel s (some t₀) n₁.key
        let (s, lch) ← merge fuel s tL n₁.lch
        let s := setLch s t₁ lch
        let (s, rch) ← merge fuel s tR n₁.rch
        some (setRch s t₁ rch, some t₁)

/-- The array is a list, its two halves a `take` and a `drop`. -/
def build (hash : UInt64 → UInt64) : Nat → Store → List UInt64 → Option (Store × Ptr)
  | 0, _, _ => none
  | _ + 1, s, [] => some (s, none)
  | _ + 1, s, [elem] =>
      let (s, t) := makeNode s 0 (hash elem) elem
      some (s, some t)
  | fuel + 1, s, elems => do
      let (s, t₀) ← build hash fuel s (elems.take (elems.length / 2))
      let (s, t₁) ← build hash fuel s (elems.drop (elems.length / 2))
      merge (recursionBound s) s t₀ t₁

/-! ### `augment.hpp` -/

/-- The sum of the counters below, computed wherever it is not there yet. -/
def augment : Nat → Store → Ptr → Option (Store × UInt64)
  | 0, _, _ => none
  | _ + 1, s, none => some (s, 0)
  | fuel + 1, s, some t => do
      let n ← s.get? t
      if n.aug ≠ augUninitialized then some (s, n.aug)
      else
        let (s, augL) ← augment fuel s n.lch
        let (s, augR) ← augment fuel s n.rch
        some (setAug s t (augL + n.val + augR), augL + n.val + augR)

/-- The same, with the branches of the upper levels in parallel. -/
def augmentParallel (fuel : Nat) (s : Store) (t : Ptr) : Option (Store × UInt64) :=
  augment fuel s t

/-- The tree of an array, augmented. -/
def buildParallel (hash : UInt64 → UInt64) (s : Store) (elems : List UInt64) :
    Option (Store × Ptr) := do
  let (s, t) ← build hash (elems.length + 1) s elems
  let (s, _) ← augmentParallel (recursionBound s) s t
  some (s, t)

/-! ### `query.hpp` -/

/-- The node of a key, or the null pointer. -/
def find : Nat → Store → Ptr → UInt64 → Option Ptr
  | 0, _, _, _ => none
  | _ + 1, _, none, _ => some none
  | fuel + 1, s, some t, key => do
      let n ← s.get? t
      if key = n.key then some (some t)
      else find fuel s (if key < n.key then n.lch else n.rch) key

/-- On which sides a subtree may have keys beyond the range. -/
inductive RangeCover
  | openOpen
  | openClose
  | closeOpen
  | closeClose
  deriving DecidableEq, Repr

/-- The sum of the counters in a range, by the aggregates of the subtrees inside it. -/
def rangeEstimate : Nat → Store → Ptr → UInt64 → UInt64 → RangeCover → Option UInt64
  | 0, _, _, _, _, _ => none
  | _ + 1, _, none, _, _, _ => some 0
  | fuel + 1, s, some t, l, r, d => do
      let n ← s.get? t
      match d with
      | .openOpen =>
          if r < n.key then rangeEstimate fuel s n.lch l r d
          else if l > n.key then rangeEstimate fuel s n.rch l r d
          else
            let retL ← rangeEstimate fuel s n.lch l r .openClose
            let retR ← rangeEstimate fuel s n.rch l r .closeOpen
            some (retL + n.val + retR)
      | .openClose =>
          if l > n.key then rangeEstimate fuel s n.rch l r d
          else
            let retL ← rangeEstimate fuel s n.lch l r d
            let retR ← rangeEstimate fuel s n.rch l r .closeClose
            some (retL + n.val + retR)
      | .closeOpen =>
          if r < n.key then rangeEstimate fuel s n.lch l r d
          else
            let retL ← rangeEstimate fuel s n.lch l r .closeClose
            let retR ← rangeEstimate fuel s n.rch l r d
            some (retL + n.val + retR)
      | .closeClose => some n.aug

/-- `range_estimate` without a cover, as the callers use it. -/
def rangeEstimateOpen (s : Store) (t : Ptr) (l r : UInt64) : Option UInt64 :=
  rangeEstimate (recursionBound s) s t l r .openOpen

end Treap
