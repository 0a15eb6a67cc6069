/-
Workload files: how `main.cpp` reads them, and how the `ycsbc` client writes them.

The client draws operations from a workload and calls the database interface; the
database `Export` writes each call to a file instead of answering it.  What the client
does depends on the database only through the interface, so the client is written for
any implementation of it.

A file is a list of bytes and a string a list of characters.  A structure is written as
it lies in memory, with padding of unspecified content after the type of a transaction.
What a random generator draws is a parameter: of a transaction the operation, the key
(the one that `NextTransactionKey` keeps) and the scan length.  `none` stands for an
abort, and for a read past the end of the file.
-/
import Contreap.Lib.Wire

open Wire

namespace Main

/-! ### `main.cpp` -/

/-- An operation, as it is read from the file. -/
structure TxContext where
  type : UInt8
  arg0 : UInt64
  arg1 : UInt64
  deriving DecidableEq, Repr

/-- A structure of 24 bytes: the words are aligned. -/
def readTx : Read TxContext := fun bs => do
  let type ← bs.head?
  let (arg0, bs) ← readWord (bs.drop 8)
  let (arg1, bs) ← readWord bs
  some (⟨type, arg0, arg1⟩, bs)

/-- What `main` reads from the file. -/
structure Workload where
  n : UInt64
  m : UInt64
  elems : List UInt64
  txs : List TxContext
  deriving DecidableEq, Repr

/-- Two numbers, then so many elements and so many operations. -/
def readWorkload (fs : List UInt8) : Option Workload := do
  let (n, fs) ← readWord fs
  let (m, fs) ← readWord fs
  let (elems, fs) ← readMany readWord n.toNat fs
  let (txs, _) ← readMany readTx m.toNat fs
  some ⟨n, m, elems, txs⟩

/-- What is called on the database. -/
inductive Request
  | query (l r : UInt64)
  | insert (k : UInt64)
  | delete (k : UInt64)
  deriving DecidableEq, Repr

/-- `none` if the type is unknown: nothing is called then. -/
def TxContext.request (tx : TxContext) : Option Request :=
  if tx.type = 0 then some (.query tx.arg0 tx.arg1)
  else if tx.type = 1 then some (.insert tx.arg0)
  else if tx.type = 2 then some (.delete tx.arg0)
  else none

end Main

namespace Ycsbc

/-! ### `core/utils.h` -/

/-- What the hash starts from. -/
def kFNVOffsetBasis64 : UInt64 := 0xCBF29CE484222325

/-- What every round multiplies by. -/
def kFNVPrime64 : UInt64 := 1099511628211

/-- The loop of `FNVHash64`, so many rounds before its end. -/
def fnvRounds : Nat → UInt64 → UInt64 → UInt64
  | 0, _, hash => hash
  | i + 1, val, hash => fnvRounds i (val >>> 8) ((hash ^^^ (val &&& 0x00ff)) * kFNVPrime64)

/-- The eight bytes of a number, the lowest first. -/
def fnvHash64 (val : UInt64) : UInt64 := fnvRounds 8 val kFNVOffsetBasis64

/-! ### `core/core_workload.h` -/

/-- What the names of keys depend on. -/
structure CoreWorkload where
  /-- What `key_generator_` returns next. -/
  keyGenerator : UInt64
  orderedInserts : Bool
  zeroPadding : Int32

namespace CoreWorkload

/-- The number in the name of a key. -/
def number (wl : CoreWorkload) (keyNum : UInt64) : UInt64 :=
  if wl.orderedInserts then keyNum else fnvHash64 keyNum

/-- `user`, zeros up to the width asked for, and the number. -/
def buildKeyName (wl : CoreWorkload) (keyNum : UInt64) : List Char :=
  let keyNumStr := Nat.toDigits 10 (wl.number keyNum).toNat
  let zeros := wl.zeroPadding - Int32.ofNat keyNumStr.length
  ['u', 's', 'e', 'r'] ++ List.replicate zeros.toInt.toNat '0' ++ keyNumStr

/-- A key that has not been used before. -/
def nextSequenceKey (wl : CoreWorkload) : CoreWorkload × List Char :=
  ({ wl with keyGenerator := wl.keyGenerator + 1 }, wl.buildKeyName wl.keyGenerator)

end CoreWorkload

/-- What a transaction may do. -/
inductive Operation
  | insert
  | read
  | update
  | scan
  | readModifyWrite
  deriving DecidableEq, Repr

/-- What the generators draw for a transaction. -/
structure Draw where
  operation : Operation
  keyNum : UInt64
  scanLength : UInt64
  deriving DecidableEq, Repr

/-! ### `core/db.h` -/

/-- The database interface, but for table, fields and values. -/
structure DB (σ : Type) where
  init : σ → Option σ
  close : σ → Option σ
  read : σ → List Char → Option σ
  scan : σ → List Char → Int32 → Option σ
  update : σ → List Char → Option σ
  insert : σ → List Char → Option σ
  delete : σ → List Char → Option σ

/-! ### `core/client.h` and `ycsbc.cc` -/

variable {σ : Type} (db : DB σ)

/-- Insert the next key. -/
def doInsert (wl : CoreWorkload) (s : σ) : Option (CoreWorkload × σ) := do
  let (wl, key) := wl.nextSequenceKey
  let s ← db.insert s key
  some (wl, s)

/-- The length of a scan becomes an `int`. -/
def doTransaction (wl : CoreWorkload) (d : Draw) (s : σ) : Option (CoreWorkload × σ) :=
  match d.operation with
  | .read => do
      let s ← db.read s (wl.buildKeyName d.keyNum)
      some (wl, s)
  | .update => do
      let s ← db.update s (wl.buildKeyName d.keyNum)
      some (wl, s)
  | .insert => doInsert db wl s
  | .scan => do
      let s ← db.scan s (wl.buildKeyName d.keyNum) (Int32.ofNat d.scanLength.toNat)
      some (wl, s)
  | .readModifyWrite => do
      let s ← db.read s (wl.buildKeyName d.keyNum)
      let s ← db.update s (wl.buildKeyName d.keyNum)
      some (wl, s)

/-- The load phase. -/
def doInserts : Nat → CoreWorkload → σ → Option (CoreWorkload × σ)
  | 0, wl, s => some (wl, s)
  | n + 1, wl, s => do
      let (wl, s) ← doInsert db wl s
      doInserts n wl s

/-- The transaction phase. -/
def doTransactions : List Draw → CoreWorkload → σ → Option (CoreWorkload × σ)
  | [], wl, s => some (wl, s)
  | d :: draws, wl, s => do
      let (wl, s) ← doTransaction db wl d s
      doTransactions draws wl s

/-- `main` of `ycsbc.cc` with one thread. -/
def run (wl : CoreWorkload) (recordCount : Nat) (draws : List Draw) (s : σ) : Option σ := do
  let s ← db.init s
  let (wl, s) ← doInserts db recordCount wl s
  let s ← db.close s
  let s ← db.init s
  let (_, s) ← doTransactions db draws wl s
  db.close s

/-! ### `db/export.hpp` -/

/-- An operation, as it is written to the file. -/
structure TxContext where
  type : UInt8
  arg0 : UInt64
  arg1 : UInt64

/-- The file, and what the next call depends on. -/
structure Export where
  fs : List UInt8
  running : Bool
  inited : Bool
  numRecords : UInt64
  numTransactions : UInt64
  updateDelete : Bool

/-- The type of a query in the file. -/
def opQuery : UInt8 := 0

/-- The type of an insertion. -/
def opInsert : UInt8 := 1

/-- The type of a deletion. -/
def opDelete : UInt8 := 2

/-- What `strtoull` skips. -/
def isSpace (c : Char) : Bool := c.toNat = 32 || (9 ≤ c.toNat && c.toNat ≤ 13)

/-- To base ten, as the C library specifies it. -/
def strtoull (str : List Char) : UInt64 :=
  let str := str.dropWhile isSpace
  let negative := str.head? = some '-'
  let str := if negative || str.head? = some '+' then str.tail else str
  let value := Nat.ofDigitChars 10 (str.takeWhile Char.isDigit) 0
  if 2 ^ 64 ≤ value then UInt64.ofNat (2 ^ 64 - 1)
  else if negative then - UInt64.ofNat value
  else UInt64.ofNat value

/-- The number behind `user`. -/
def str2key (str : List Char) : UInt64 := strtoull (str.drop 4)

namespace Export

/-- The content of the padding may be any, and another one at every place of the file. -/
def txBytes (padding : Fin 7 → UInt8) (tx : TxContext) : List UInt8 :=
  tx.type :: List.ofFn padding ++ word tx.arg0 ++ word tx.arg1

/-- Files are only appended to. -/
def write (s : Export) (bytes : List UInt8) : Export := { s with fs := s.fs ++ bytes }

variable (padding : Nat → Fin 7 → UInt8)

/-- What lies in the padding depends on the place in the file. -/
def writeTx (s : Export) (tx : TxContext) : Export := s.write (txBytes (padding s.fs.length) tx)

/-- An insertion has its key in both arguments. -/
def exportInsert (s : Export) (key : UInt64) : Export := s.writeTx padding ⟨opInsert, key, key⟩

/-- So has a deletion. -/
def exportDelete (s : Export) (key : UInt64) : Export := s.writeTx padding ⟨opDelete, key, key⟩

/-- A query for all keys from `l` to `r`. -/
def exportQuery (s : Export) (l r : UInt64) : Export := s.writeTx padding ⟨opQuery, l, r⟩

/-- The header is written the first time. -/
def init (s : Export) : Option Export :=
  if s.running then none
  else
    let s := { s with running := true }
    some (if s.inited then s else (s.write (word s.numRecords)).write (word s.numTransactions))

/-- After the first time, transactions are expected. -/
def close (s : Export) : Option Export := some { s with inited := true, running := false }

/-- A point query. -/
def read (s : Export) (key : List Char) : Option Export :=
  if !s.inited then none
  else
    let k := str2key key
    some (s.exportQuery padding k k)

/-- A range query for so many consecutive keys. -/
def scan (s : Export) (key : List Char) (len : Int32) : Option Export :=
  if !s.inited then none
  else
    let l := str2key key
    let r := l + UInt64.ofNat (if 0 < len then len - 1 else 0).toInt.toNat
    some (s.exportQuery padding l r)

/-- An insertion or a deletion, as the settings say. -/
def update (s : Export) (key : List Char) : Option Export :=
  if !s.inited then none
  else if s.updateDelete then some (s.exportDelete padding (str2key key))
  else some (s.exportInsert padding (str2key key))

/-- In the load phase an element, and afterwards an operation. -/
def insert (s : Export) (key : List Char) : Option Export :=
  if s.inited then some (s.exportInsert padding (str2key key))
  else some (s.write (word (str2key key)))

/-- An operation; there is none in the load phase. -/
def delete (s : Export) (key : List Char) : Option Export :=
  if !s.inited then none
  else some (s.exportDelete padding (str2key key))

end Export

/-- `Export`, as an implementation of the interface. -/
def exportDB (padding : Nat → Fin 7 → UInt8) : DB Export where
  init := Export.init
  close := Export.close
  read := Export.read padding
  scan := Export.scan padding
  update := Export.update padding
  insert := Export.insert padding
  delete := Export.delete padding

/-- The database that `CreateDB` makes. -/
def newExport (numRecords numTransactions : Nat) (updateDelete : Bool) : Export :=
  ⟨[], false, false, UInt64.ofNat numRecords, UInt64.ofNat numTransactions, updateDelete⟩

/-- The file that is left. -/
def exportRun (padding : Nat → Fin 7 → UInt8) (wl : CoreWorkload) (updateDelete : Bool)
    (recordCount : Nat) (draws : List Draw) : Option (List UInt8) :=
  (run (exportDB padding) wl recordCount draws
    (newExport recordCount draws.length updateDelete)).map Export.fs

end Ycsbc
