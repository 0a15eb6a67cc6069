/-
The batched treap: versioned counters, and the functions that apply a batch.

A node keeps the counter of its key at several versions, the earliest first.  A batch
is first built into a tree of its own, by functions that write in place, and is then
merged into or subtracted from the tree of the last version by functions that copy
what belongs to that tree.  Whether a node may be written is read off `vstat`, which is
set when the node is augmented and never before.  Versions are natural numbers, and the
all-ones word `vstat_uninitialized` is `none`: a version of that number, which the code
would take for a node that is not augmented, is outside of the model.

Nodes live in an explicit store and are reached through nullable pointers.  As for the
persistent treap, `none` stands for what C++ leaves undefined and for an assertion that
fails, recursion over links is bounded by a fuel, the priority hash is a parameter, and
the branches of a `par_do` are run one after the other.
-/
import Contreap.Model.Batch
import Contreap.Lib.Word

namespace Pam

open PtrHeap

/-! ### `node.hpp` -/

/-- A counter, and the version from which on it holds. -/
structure ValVer where
  val : UInt64
  ver : Nat
  deriving DecidableEq, Repr

/-- The array `vals` of `nvals` entries; there is always one. -/
abbrev ValVers := {vs : List ValVer // vs ≠ []}

namespace ValVers

/-- One entry. -/
def single (x : ValVer) : ValVers := ⟨[x], List.cons_ne_nil x []⟩

/-- `vals[0]` -/
def first (vs : ValVers) : ValVer := vs.1.head vs.2

/-- `vals[nvals-1]` -/
def last (vs : ValVers) : ValVer := vs.1.getLast vs.2

end ValVers

/-- What a node holds besides its links. -/
structure Datum where
  /-- The version of `aug`; `none` is `vstat_uninitialized`, which is no version. -/
  vstat : Option Nat
  pry : UInt64
  key : UInt64
  vals : ValVers
  /-- The sum of the counters below, `0` when it has not been computed. -/
  aug : UInt64
  deriving DecidableEq

/-- A datum between two links. -/
structure Node extends Datum where
  lch : Ptr
  rch : Ptr
  deriving DecidableEq

/-- The memory the nodes are in. -/
abbrev Store := Heap Node

/-- What `aug` is before it is computed. -/
def augUninitialized : UInt64 := 0

/-- One counter, and not augmented. -/
def newDatum (pry key : UInt64) (x : ValVer) : Datum :=
  ⟨none, pry, key, .single x, augUninitialized⟩

/-- A new node, without links. -/
def makeNode (s : Store) (ver : Nat) (pry key val : UInt64) : Store × Addr :=
  s.alloc ⟨newDatum pry key ⟨val, ver⟩, none, none⟩

/-- Only the last value is copied. -/
def makeWeakCopy (s : Store) (t : Node) : Store × Addr :=
  makeNode s t.vals.last.ver t.pry t.key t.vals.last.val

/-- `none` if the assertion fails. -/
def subtreeVstat (s : Store) : Ptr → Option Nat
  | none => some 0
  | some t => (s.get? t).bind fun n => n.vstat

/-- What is left of a deleted node; nothing may depend on it. -/
def releaseNode (s : Store) (t : Addr) : Store :=
  s.modify t fun _ => ⟨newDatum 0 0 ⟨0, 0⟩, none, none⟩

/-- Every node of the tree is deleted, the root last. -/
def releaseTree : Nat → Store → Ptr → Option Store
  | 0, _, _ => none
  | _ + 1, s, none => some s
  | fuel + 1, s, some t => do
      let n ← s.get? t
      let s ← releaseTree fuel s n.lch
      let s ← releaseTree fuel s n.rch
      some (releaseNode s t)

/-- `t->lch = p` -/
def setLch (s : Store) (t : Addr) (p : Ptr) : Store := s.modify t fun n => { n with lch := p }

/-- `t->rch = p` -/
def setRch (s : Store) (t : Addr) (p : Ptr) : Store := s.modify t fun n => { n with rch := p }

/-- The node gets another array of counters. -/
def setVals (s : Store) (t : Addr) (vs : ValVers) : Store :=
  s.modify t fun n => { n with vals := vs }

/-- Enough fuel for any recursion over the links of a store that has no circle. -/
def recursionBound (s : Store) : Nat := s.size + 1

/-! ### `build.hpp` and `build_versioned.hpp`

These write in place: the trees they work on have one owner.  `merge` and
`merge_versioned` differ in what becomes of the values of two nodes of one key, `build`
and `build_versioned` also in the versions of the second half.
-/

/-- The nodes with keys up to `key`, and the others. -/
def split : Nat → Store → Ptr → UInt64 → Option (Store × Ptr × Ptr)
  | 0, _, _, _ => none
  | _ + 1, s, none, _ => some (s, none, none)
  | fuel + 1, s, some t, key => do
      let n ← s.get? t
      if key < n.key then
        let (s, tL, lch) ← split fuel s n.lch key
        some (setLch s t lch, tL, some t)
      else
        let (s, rch, tR) ← split fuel s n.rch key
        some (setRch s t rch, some t, tR)

/-- `t_0->vals[0].val += t_1->vals[0].val` -/
def addFirst (vs ws : ValVers) : ValVers :=
  ⟨{ vs.first with val := vs.first.val + ws.first.val } :: vs.1.tail, List.cons_ne_nil _ _⟩

/-- Values in the first are always earlier than those in the second. -/
def mergeValues (vs ws : ValVers) : ValVers :=
  ⟨vs.1 ++ ws.1.map fun x => { x with val := vs.last.val + x.val },
    fun h => vs.2 (List.append_eq_nil_iff.mp h).1⟩

/-- The union of two trees.  Of two nodes with one key the first stays, with what
`combine` makes of the counters of both. -/
def mergeWith (combine : ValVers → ValVers → ValVers) :
    Nat → Store → Ptr → Ptr → Option (Store × Ptr)
  | 0, _, _, _ => none
  | _ + 1, s, none, t₁ => some (s, t₁)
  | _ + 1, s, some t₀, none => some (s, some t₀)
  | fuel + 1, s, some t₀, some t₁ => do
      let n₀ ← s.get? t₀
      let n₁ ← s.get? t₁
      if n₀.key = n₁.key then
        let s := setVals s t₀ (combine n₀.vals n₁.vals)
        let (s, lch) ← mergeWith combine fuel s n₀.lch n₁.lch
        let s := setLch s t₀ lch
        let (s, rch) ← mergeWith combine fuel s n₀.rch n₁.rch
        let s := setRch s t₀ rch
        some (releaseNode s t₁, some t₀)
      else if n₀.pry > n₁.pry then
        let (s, tL, tR) ← split fuel s (some t₁) n₀.key
        let (s, lch) ← mergeWith combine fuel s n₀.lch tL
        let s := setLch s t₀ lch
        let (s, rch) ← mergeWith combine fuel s n₀.rch tR
        some (setRch s t₀ rch, some t₀)
      else
        let (s, tL, tR) ← split fuel s (some t₀) n₁.key
        let (s, lch) ← mergeWith combine fuel s tL n₁.lch
        let s := setLch s t₁ lch
        let (s, rch) ← mergeWith combine fuel s tR n₁.rch
        some (setRch s t₁ rch, some t₁)

/-- All counters are of one version, and are added up. -/
def merge : Nat → Store → Ptr → Ptr → Option (Store × Ptr) := mergeWith addFirst

/-- The counters of the second tree come later, and go on from those of the first. -/
def mergeVersioned : Nat → Store → Ptr → Ptr → Option (Store × Ptr) := mergeWith mergeValues

/-- The array is a list, its two halves a `take` and a `drop`; `later` is what the length
of the first half adds to the versions of the second. -/
def buildWith (hash : UInt64 → UInt64) (combine : ValVers → ValVers → ValVers)
    (later : Nat → Nat) : Nat → Store → Nat → List UInt64 → Option (Store × Ptr)
  | 0, _, _, _ => none
  | _ + 1, s, _, [] => some (s, none)
  | _ + 1, s, ver, [elem] =>
      let (s, t) := makeNode s ver (hash elem) elem 1
      some (s, some t)
  | fuel + 1, s, ver, elems => do
      let half := elems.length / 2
      let (s, t₀) ← buildWith hash combine later fuel s ver (elems.take half)
      let (s, t₁) ← buildWith hash combine later fuel s (ver + later half) (elems.drop half)
      mergeWith combine (recursionBound s + recursionBound s) s t₀ t₁

/-- The tree of an array whose elements are all of one version. -/
def build (hash : UInt64 → UInt64) (fuel : Nat) (s : Store) (elems : List UInt64) :
    Option (Store × Ptr) := buildWith hash addFirst (fun _ => 0) fuel s 0 elems

/-- The tree of an array in which every element is a version of its own. -/
def buildVersioned (hash : UInt64 → UInt64) :
    Nat → Store → Nat → List UInt64 → Option (Store × Ptr) :=
  buildWith hash mergeValues fun half => half

/-! ### `copy_merge.hpp` -/

/-- The counters of a batch go on from what the tree has had before. -/
def updateValues (s : Store) (t : Addr) (valBase : UInt64) : Store :=
  s.modify t fun n => { n with
    vals := ⟨n.vals.1.map fun x => { x with val := x.val + valBase },
      fun h => n.vals.2 (List.map_eq_nil_iff.mp h)⟩ }

/-- The node loses its links. -/
def expose (s : Store) (t : Addr) : Store :=
  s.modify t fun n => { n with lch := none, rch := none }

/-- `split` on a tree that is to stay as it is: the nodes on the way are copied. -/
def copySplit : Nat → Store → Ptr → UInt64 → Option (Store × Ptr × Ptr)
  | 0, _, _, _ => none
  | _ + 1, s, none, _ => some (s, none, none)
  | fuel + 1, s, some t, key => do
      let n ← s.get? t
      if key < n.key then
        let (s, tR) := makeWeakCopy s n
        let s := setRch s tR n.rch
        let (s, tL, lch) ← copySplit fuel s n.lch key
        some (setLch s tR lch, tL, some tR)
      else
        let (s, tL) := makeWeakCopy s n
        let s := setLch s tL n.lch
        let (s, rch, tR) ← copySplit fuel s n.rch key
        some (setRch s tL rch, some tL, tR)

/-- The node on top, and what is to be merged on either side of it. -/
structure Placement where
  tNew : Addr
  tOldL : Ptr
  tInsL : Ptr
  tOldR : Ptr
  tInsR : Ptr

/-- `copy_merge` up to where it calls itself. -/
def placeRoot (fuel : Nat) (s : Store) (tOld tIns : Addr) : Option (Store × Placement) := do
  let nOld ← s.get? tOld
  let nIns ← s.get? tIns
  if nOld.pry > nIns.pry then
    let (s, tNew) := makeWeakCopy s nOld
    let (s, tInsL, tInsR) ← split fuel s (some tIns) nOld.key
    some (s, ⟨tNew, nOld.lch, tInsL, nOld.rch, tInsR⟩)
  else
    let s := expose s tIns
    if nOld.key = nIns.key then
      some (updateValues s tIns nOld.vals.last.val, ⟨tIns, nOld.lch, nIns.lch, nOld.rch, nIns.rch⟩)
    else
      let (s, tOldL, tOldR) ← copySplit fuel s (some tOld) nIns.key
      some (s, ⟨tIns, tOldL, nIns.lch, tOldR, nIns.rch⟩)

/-- A batch merged into a tree.  The nodes of the batch are written to, those of the tree
are copied. -/
def copyMerge : Nat → Store → Ptr → Ptr → Option (Store × Ptr)
  | 0, _, _, _ => none
  | _ + 1, s, none, tIns => some (s, tIns)
  | _ + 1, s, some tOld, none => some (s, some tOld)
  | fuel + 1, s, some tOld, some tIns => do
      let (s, top) ← placeRoot fuel s tOld tIns
      let (s, lch) ← copyMerge fuel s top.tOldL top.tInsL
      let s := setLch s top.tNew lch
      let (s, rch) ← copyMerge fuel s top.tOldR top.tInsR
      some (setRch s top.tNew rch, some top.tNew)

/-! ### `copy_subtract.hpp`

The tree of the batch is taken apart along the way: what is left of it after a node has
served is joined again, or released.
-/

/-- A node that has been augmented is persistent. -/
def makeCopyIfNeed (s : Store) (t : Addr) (n : Node) : Store × Addr :=
  match n.vstat with
  | none => (s, t)
  | some _ => makeWeakCopy s n

/-- The nodes of two trees, the keys of the first below those of the second. -/
def copyConcat : Nat → Store → Ptr → Ptr → Option (Store × Ptr)
  | 0, _, _, _ => none
  | _ + 1, s, none, tR => some (s, tR)
  | _ + 1, s, some tL, none => some (s, some tL)
  | fuel + 1, s, some tL, some tR => do
      let nL ← s.get? tL
      let nR ← s.get? tR
      if nL.pry > nR.pry then
        let (s, tNew) := makeCopyIfNeed s tL nL
        let s := setLch s tNew nL.lch
        let (s, rch) ← copyConcat fuel s nL.rch (some tR)
        some (setRch s tNew rch, some tNew)
      else
        let (s, tNew) := makeCopyIfNeed s tR nR
        let (s, lch) ← copyConcat fuel s (some tL) nR.lch
        let s := setLch s tNew lch
        let nR ← s.get? tR
        some (setRch s tNew nR.rch, some tNew)

/-- A tree without the keys of a batch; the batch is deleted on the way. -/
def copySubtract : Nat → Store → Ptr → Ptr → Option (Store × Ptr)
  | 0, _, _, _ => none
  | fuel + 1, s, none, tDet => do
      let s ← releaseTree fuel s tDet
      some (s, none)
  | _ + 1, s, some tOld, none => some (s, some tOld)
  | fuel + 1, s, some tOld, some tDet => do
      let nOld ← s.get? tOld
      let nDet ← s.get? tDet
      if nOld.key = nDet.key then
        let (s, tNewL) ← copySubtract fuel s nOld.lch nDet.lch
        let (s, tNewR) ← copySubtract fuel s nOld.rch nDet.rch
        let s := releaseNode s tDet
        copyConcat (recursionBound s + recursionBound s) s tNewL tNewR
      else if nOld.pry > nDet.pry then
        let (s, tNew) := makeWeakCopy s nOld
        let (s, tDetL, tDetR) ← split fuel s (some tDet) nOld.key
        let (s, lch) ← copySubtract fuel s nOld.lch tDetL
        let s := setLch s tNew lch
        let (s, rch) ← copySubtract fuel s nOld.rch tDetR
        some (setRch s tNew rch, some tNew)
      else
        let (s, tDetNew) ← copyConcat (recursionBound s + recursionBound s) s nDet.lch nDet.rch
        let s := releaseNode s tDet
        copySubtract fuel s (some tOld) tDetNew

/-! ### `augment.hpp`

A node that has a `vstat` is in a tree that has been augmented, and so is everything
below it.
-/

/-- The aggregate of a node, with the version it is of. -/
def setAug (s : Store) (t : Addr) (aug : UInt64) (vstat : Nat) : Store :=
  s.modify t fun n => { n with aug := aug, vstat := some vstat }

/-- The sum of the counters below, computed wherever it is not there yet. -/
def augmentParallel : Nat → Store → Ptr → Option (Store × UInt64)
  | 0, _, _ => none
  | _ + 1, s, none => some (s, 0)
  | fuel + 1, s, some t => do
      let n ← s.get? t
      match n.vstat with
      | some _ => some (s, n.aug)
      | none =>
          let (s, augL) ← augmentParallel fuel s n.lch
          let (s, augR) ← augmentParallel fuel s n.rch
          let aug := augL + n.vals.last.val + augR
          let vstatL ← subtreeVstat s n.lch
          let vstatR ← subtreeVstat s n.rch
          some (setAug s t aug (max n.vals.last.ver (max vstatL vstatR)), aug)

/-! ### `query.hpp`

An aggregate counts the last entries of a subtree.  It may be taken for the sum at a
version from the latest of these entries on, which is what `vstat` is for.
-/

/-- The counter at version `v`, among the entries from `x` on. -/
def findValueFrom (v : Nat) : ValVer → List ValVer → UInt64
  | x, [] => x.val
  | x, y :: rest => if v < y.ver then x.val else findValueFrom v y rest

/-- The counter at version `v`, which is `0` before the first entry. -/
def findValue (vs : ValVers) (v : Nat) : UInt64 :=
  if v < vs.first.ver then 0 else findValueFrom v vs.first vs.1.tail

/-- The counter of a key at a version, `0` if there is no node for it. -/
def find : Nat → Store → Ptr → Nat → UInt64 → Option UInt64
  | 0, _, _, _, _ => none
  | _ + 1, _, none, _, _ => some 0
  | fuel + 1, s, some t, v, k => do
      let n ← s.get? t
      if k = n.key then some (findValue n.vals v)
      else find fuel s (if k < n.key then n.lch else n.rch) v k

/-- On which sides a subtree may have keys beyond the range. -/
inductive RangeCover
  | openOpen
  | openClose
  | closeOpen
  | closeClose
  deriving DecidableEq, Repr

/-- The sum of the counters in a range at a version.  The aggregate of a subtree inside
the range is used if its version is not a later one. -/
def rangeEstimate : Nat → Store → Ptr → Nat → UInt64 → UInt64 → RangeCover → Option UInt64
  | 0, _, _, _, _, _, _ => none
  | _ + 1, _, none, _, _, _, _ => some 0
  | fuel + 1, s, some t, v, l, r, d => do
      let n ← s.get? t
      match d with
      | .openOpen =>
          if r < n.key then rangeEstimate fuel s n.lch v l r d
          else if l > n.key then rangeEstimate fuel s n.rch v l r d
          else
            let retL ← rangeEstimate fuel s n.lch v l r .openClose
            let retR ← rangeEstimate fuel s n.rch v l r .closeOpen
            some (retL + findValue n.vals v + retR)
      | .openClose =>
          if l > n.key then rangeEstimate fuel s n.rch v l r d
          else
            let retL ← rangeEstimate fuel s n.lch v l r d
            let retR ← rangeEstimate fuel s n.rch v l r .closeClose
            some (retL + findValue n.vals v + retR)
      | .closeOpen =>
          if r < n.key then rangeEstimate fuel s n.lch v l r d
          else
            let retL ← rangeEstimate fuel s n.lch v l r .closeClose
            let retR ← rangeEstimate fuel s n.rch v l r d
            some (retL + findValue n.vals v + retR)
      | .closeClose =>
          if n.vstat.any (· ≤ v) then some n.aug
          else
            let retL ← rangeEstimate fuel s n.lch v l r d
            let retR ← rangeEstimate fuel s n.rch v l r d
            some (retL + findValue n.vals v + retR)

/-! ### `interface.hpp` -/

namespace Interface

variable (hash : UInt64 → UInt64)

/-- The tree of the first version. -/
def build (s : Store) (elems : List UInt64) : Option (Store × Ptr) := do
  let (s, t) ← Pam.build hash (elems.length + 1) s elems
  let (s, _) ← augmentParallel (recursionBound s) s t
  some (s, t)

/-- The tree after a batch of insertions, the first of which is version `ver`. -/
def inserted (s : Store) (tOld : Ptr) (ver : Nat) (elems : List UInt64) :
    Option (Store × Ptr) := do
  let (s, tDet) ← buildVersioned hash (elems.length + 1) s ver elems
  let (s, t) ← copyMerge (recursionBound s + recursionBound s) s tOld tDet
  let (s, _) ← augmentParallel (recursionBound s) s t
  some (s, t)

/-- The tree after a batch of deletions, the first of which is version `ver`. -/
def deleted (s : Store) (tOld : Ptr) (ver : Nat) (elems : List UInt64) :
    Option (Store × Ptr) := do
  let (s, tDet) ← buildVersioned hash (elems.length + 1) s ver elems
  let (s, t) ← copySubtract (recursionBound s + elems.length + 1) s tOld tDet
  let (s, _) ← augmentParallel (recursionBound s) s t
  some (s, t)

/-- `find` from the root of a tree. -/
def find (s : Store) (t : Ptr) (v : Nat) (k : UInt64) : Option UInt64 :=
  Pam.find (recursionBound s) s t v k

/-- `range_estimate` without a cover, as the callers use it. -/
def rangeEstimate (s : Store) (t : Ptr) (v : Nat) (l r : UInt64) : Option UInt64 :=
  Pam.rangeEstimate (recursionBound s) s t v l r .openOpen

end Interface

/-- The class `DB::Batch` is instantiated with. -/
def interface (hash : UInt64 → UInt64) : Batch.Backend Store Ptr where
  build := Interface.build hash
  inserted := Interface.inserted hash
  deleted := Interface.deleted hash
  find := Interface.find
  rangeEstimate := Interface.rangeEstimate

end Pam
