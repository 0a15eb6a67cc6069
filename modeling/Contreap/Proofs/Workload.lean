/-
Reading back an exported workload.

The file is a header with two counts, the loaded keys, and one transaction for every
call the client made; the names of the keys are decimal numbers, padded with zeros, and
the number is read off the name again (`str2key_names`).  So what `main.cpp` reads is as
many of these transactions as the header says.

The header is written before the first call and counts the draws, while a
read-modify-write makes two calls: with one of them the last calls are not read.  And
the upper end of a scan is computed modulo `2 ^ 64`, so that a scan across the largest
key comes back as an interval that contains no key (`export_read_back`).
-/
import Contreap.Model.Workload
import Mathlib.Data.List.Forall2
import Mathlib.Data.List.TakeWhile

namespace Ycsbc

open Wire

/-! ### Names of keys

A name is padded with zeros, which do not change the number, and its digits are read to
the end.
-/

/-- A key name: the number in decimal, behind any number of zeros. -/
def Names (key : List Char) (k : UInt64) : Prop :=
  ∃ zeros, key = ['u', 's', 'e', 'r'] ++ List.replicate zeros '0' ++ Nat.toDigits 10 k.toNat

theorem names_buildKeyName (wl : CoreWorkload) (keyNum : UInt64) :
    Names (wl.buildKeyName keyNum) (wl.number keyNum) := ⟨_, rfl⟩

theorem not_isSpace_of_isDigit {c : Char} (hc : c.isDigit = true) : isSpace c = false := by
  obtain ⟨hlo, hhi⟩ : 48 ≤ c.toNat ∧ c.toNat ≤ 57 := by
    simpa [Char.isDigit, UInt32.le_iff_toNat_le] using hc
  have h₁ : c.toNat ≠ 32 := by omega
  have h₂ : ¬ c.toNat ≤ 13 := by omega
  simp [isSpace, h₁, h₂]

theorem ne_of_isDigit {c d : Char} (hc : c.isDigit = true) (hd : d.isDigit = false) : c ≠ d := by
  intro heq
  rw [heq, hd] at hc
  cases hc

/-- Digits are read to the end. -/
theorem strtoull_digits {ds : List Char} (hds : ∀ c ∈ ds, c.isDigit = true)
    (hlt : Nat.ofDigitChars 10 ds 0 < 2 ^ 64) :
    strtoull ds = UInt64.ofNat (Nat.ofDigitChars 10 ds 0) := by
  have hspace : ds.dropWhile isSpace = ds := by
    cases ds with
    | nil => rfl
    | cons c cs => exact List.dropWhile_cons_of_neg (by simp [not_isSpace_of_isDigit (hds c (by simp))])
  have hsign : ∀ d : Char, d.isDigit = false → ds.head? ≠ some d := by
    intro d hd hhead
    exact ne_of_isDigit (hds d (List.mem_of_mem_head? hhead)) hd rfl
  have hall : ds.takeWhile Char.isDigit = ds := List.takeWhile_eq_self_iff.2 hds
  have hminus : (ds.head? = some '-') = False := eq_false (hsign '-' rfl)
  have hplus : (ds.head? = some '+') = False := eq_false (hsign '+' rfl)
  simp only [strtoull, hspace, hminus, hplus, decide_false, Bool.or_self, Bool.false_eq_true,
    if_false, hall, if_neg (not_le.mpr hlt)]

/-- The zeros in front and the digits behind are read as one number. -/
theorem str2key_names {key : List Char} {k : UInt64} (h : Names key k) : str2key key = k := by
  obtain ⟨zeros, rfl⟩ := h
  have hvalue : Nat.ofDigitChars 10 (List.replicate zeros '0' ++ Nat.toDigits 10 k.toNat) 0
      = k.toNat := by
    rw [Nat.ofDigitChars_append, Nat.ofDigitChars_replicate_zero, Nat.mul_zero,
      Nat.ofDigitChars_ten_toDigits]
  have hdigits : ∀ c ∈ List.replicate zeros '0' ++ Nat.toDigits 10 k.toNat, c.isDigit = true := by
    intro c hc
    rcases List.mem_append.mp hc with hc | hc
    · rw [List.eq_of_mem_replicate hc]
      rfl
    · exact Nat.isDigit_of_mem_toDigits (by decide) (by decide) hc
  show strtoull (List.replicate zeros '0' ++ Nat.toDigits 10 k.toNat) = k
  rw [strtoull_digits hdigits (by rw [hvalue]; exact UInt64.toNat_lt k), hvalue, UInt64.ofNat_toNat]

/-! ### What the client issues

The client does not look at what a database returns, so the calls it makes can be
collected by one that only records them.
-/

/-- A call of the database interface. -/
inductive Call
  | read (key : List Char)
  | scan (key : List Char) (len : Int32)
  | update (key : List Char)
  | insert (key : List Char)
  | delete (key : List Char)

/-- A database that keeps a list of the calls it gets. -/
def recorder : DB (List Call) where
  init := some
  close := some
  read s key := some (s ++ [.read key])
  scan s key len := some (s ++ [.scan key len])
  update s key := some (s ++ [.update key])
  insert s key := some (s ++ [.insert key])
  delete s key := some (s ++ [.delete key])

/-- The length of a scan, as an `int`. -/
def Draw.len (d : Draw) : Int32 := Int32.ofNat d.scanLength.toNat

/-- The calls that are made for a transaction. -/
def Draw.calls (wl : CoreWorkload) (d : Draw) : List Call :=
  match d.operation with
  | .read => [.read (wl.buildKeyName d.keyNum)]
  | .update => [.update (wl.buildKeyName d.keyNum)]
  | .insert => [.insert (wl.buildKeyName wl.keyGenerator)]
  | .scan => [.scan (wl.buildKeyName d.keyNum) d.len]
  | .readModifyWrite => [.read (wl.buildKeyName d.keyNum), .update (wl.buildKeyName d.keyNum)]

/-- Only an insertion uses up a key. -/
def Draw.next (wl : CoreWorkload) (d : Draw) : CoreWorkload :=
  match d.operation with
  | .insert => wl.nextSequenceKey.1
  | _ => wl

/-- The calls that are made for all transactions. -/
def issued (wl : CoreWorkload) : List Draw → List Call
  | [] => []
  | d :: draws => d.calls wl ++ issued (d.next wl) draws

/-- The workload after all transactions. -/
def Draw.nextAll (wl : CoreWorkload) : List Draw → CoreWorkload
  | [] => wl
  | d :: draws => nextAll (d.next wl) draws

/-- The workload once so many keys have been inserted. -/
def CoreWorkload.advance (wl : CoreWorkload) : Nat → CoreWorkload
  | 0 => wl
  | n + 1 => advance wl.nextSequenceKey.1 n

/-- The keys that are inserted one after the other. -/
def sequenceKeys (wl : CoreWorkload) : Nat → List (List Char)
  | 0 => []
  | n + 1 => wl.buildKeyName wl.keyGenerator :: sequenceKeys wl.nextSequenceKey.1 n

theorem doTransaction_recorder (wl : CoreWorkload) (d : Draw) (s : List Call) :
    doTransaction recorder wl d s = some (d.next wl, s ++ d.calls wl) := by
  unfold doTransaction Draw.next Draw.calls
  cases d.operation with
  | insert => rfl
  | read => rfl
  | update => rfl
  | scan => rfl
  | readModifyWrite => exact congrArg (fun t => some (wl, t)) (List.append_assoc s _ _)

theorem doTransactions_recorder (draws : List Draw) (wl : CoreWorkload) (s : List Call) :
    doTransactions recorder draws wl s = some (Draw.nextAll wl draws, s ++ issued wl draws) := by
  induction draws generalizing wl s with
  | nil =>
      rw [issued, List.append_nil]
      rfl
  | cons d draws ih =>
      rw [doTransactions, doTransaction_recorder]
      simp only [Option.bind_eq_bind, Option.bind_some, ih, issued, Draw.nextAll, List.append_assoc]

theorem doInserts_recorder (n : Nat) (wl : CoreWorkload) (s : List Call) :
    doInserts recorder n wl s
      = some (wl.advance n, s ++ (sequenceKeys wl n).map Call.insert) := by
  induction n generalizing wl s with
  | zero =>
      rw [sequenceKeys, List.map_nil, List.append_nil]
      rfl
  | succ n ih =>
      rw [sequenceKeys, List.map_cons]
      refine (ih wl.nextSequenceKey.1 (s ++ [.insert (wl.buildKeyName wl.keyGenerator)])).trans ?_
      rw [List.append_assoc]
      rfl

/-! ### What is written

Before the keys are loaded a call writes a key, and afterwards a transaction.  So the
file is the header, the keys and the transactions, in this order.
-/

/-- It has the same fields on both sides. -/
def TxContext.toMain (tx : TxContext) : Main.TxContext := ⟨tx.type, tx.arg0, tx.arg1⟩

theorem gives_txBytes (padding : Fin 7 → UInt8) (tx : TxContext) :
    Gives Main.readTx (Export.txBytes padding tx) tx.toMain := by
  intro rest
  have hdrop : (Export.txBytes padding tx ++ rest).drop 8 = word tx.arg0 ++ (word tx.arg1 ++ rest) := by
    unfold Export.txBytes
    rw [List.append_assoc, List.append_assoc]
    exact List.drop_left' (by simp)
  have hhead : (Export.txBytes padding tx ++ rest).head? = some tx.type := rfl
  simp only [Main.readTx, hhead, hdrop, Option.bind_eq_bind, Option.bind_some, readWord_word]
  rfl

/-- The transaction that is written for a call. -/
def Call.tx (updateDelete : Bool) : Call → TxContext
  | .read key => ⟨opQuery, str2key key, str2key key⟩
  | .scan key len =>
      ⟨opQuery, str2key key,
        str2key key + UInt64.ofNat (if 0 < len then len - 1 else 0).toInt.toNat⟩
  | .update key =>
      if updateDelete then ⟨opDelete, str2key key, str2key key⟩
      else ⟨opInsert, str2key key, str2key key⟩
  | .insert key => ⟨opInsert, str2key key, str2key key⟩
  | .delete key => ⟨opDelete, str2key key, str2key key⟩

section
variable (padding : Nat → Fin 7 → UInt8)

/-- What a call appends to the file, once keys are loaded. -/
def Export.writeCall (s : Export) (c : Call) : Export := s.writeTx padding (c.tx s.updateDelete)

theorem update_eq {s : Export} (hs : s.inited = true) (key : List Char) :
    s.update padding key = some (s.writeCall padding (.update key)) := by
  rw [Export.update, hs, Export.writeCall, Call.tx]
  cases s.updateDelete <;> rfl

/-- After loading, every call writes one transaction. -/
theorem doTransaction_export {s : Export} (hs : s.inited = true) (wl : CoreWorkload) (d : Draw) :
    doTransaction (exportDB padding) wl d s
      = some (d.next wl, (d.calls wl).foldl (Export.writeCall padding) s) := by
  have hread : ∀ key, s.read padding key = some (s.writeCall padding (.read key)) := by
    intro key
    rw [Export.read, hs]
    rfl
  have hscan : ∀ key len, s.scan padding key len = some (s.writeCall padding (.scan key len)) := by
    intro key len
    rw [Export.scan, hs]
    rfl
  have hinsert : ∀ key, s.insert padding key = some (s.writeCall padding (.insert key)) := by
    intro key
    rw [Export.insert, if_pos hs]
    rfl
  unfold doTransaction Draw.next Draw.calls
  cases d.operation with
  | insert =>
      simp only [doInsert, exportDB, hinsert, Option.bind_eq_bind, Option.bind_some,
        CoreWorkload.nextSequenceKey, List.foldl_cons, List.foldl_nil]
  | read =>
      simp only [exportDB, hread, Option.bind_eq_bind, Option.bind_some, List.foldl_cons,
        List.foldl_nil]
  | update =>
      simp only [exportDB, update_eq padding hs, Option.bind_eq_bind, Option.bind_some,
        List.foldl_cons, List.foldl_nil]
  | scan =>
      simp only [exportDB, hscan, Option.bind_eq_bind, Option.bind_some, List.foldl_cons,
        List.foldl_nil, Draw.len]
  | readModifyWrite =>
      have hs' : (s.writeCall padding (.read (wl.buildKeyName d.keyNum))).inited = true := hs
      simp only [exportDB, hread, update_eq padding hs', Option.bind_eq_bind, Option.bind_some,
        List.foldl_cons, List.foldl_nil]

theorem inited_writeCalls (cs : List Call) {s : Export} (hs : s.inited = true) :
    (cs.foldl (Export.writeCall padding) s).inited = true := by
  induction cs generalizing s with
  | nil => exact hs
  | cons c cs ih => exact ih (s := s.writeCall padding c) hs

theorem doTransactions_export (draws : List Draw) (wl : CoreWorkload) {s : Export}
    (hs : s.inited = true) :
    doTransactions (exportDB padding) draws wl s
      = some (Draw.nextAll wl draws, (issued wl draws).foldl (Export.writeCall padding) s) := by
  induction draws generalizing wl s with
  | nil => rfl
  | cons d draws ih =>
      have hs' := inited_writeCalls padding (d.calls wl) hs
      rw [doTransactions, doTransaction_export padding hs]
      simp only [Option.bind_eq_bind, Option.bind_some, ih _ hs', issued, Draw.nextAll,
        List.foldl_append]

/-- The file then goes on with these transactions. -/
theorem holds_writeCalls (cs : List Call) (s : Export) :
    ∃ bytes, (cs.foldl (Export.writeCall padding) s).fs = s.fs ++ bytes ∧
      Holds Main.readTx bytes (cs.map fun c => (c.tx s.updateDelete).toMain) := by
  induction cs generalizing s with
  | nil => exact ⟨[], (List.append_nil _).symm, .nil⟩
  | cons c cs ih =>
      obtain ⟨bytes, hfs, hholds⟩ := ih (s.writeCall padding c)
      refine ⟨_, ?_, .cons (gives_txBytes (padding s.fs.length) (c.tx s.updateDelete)) hholds⟩
      rw [List.foldl_cons, hfs, ← List.append_assoc]
      rfl

/-- Before that, every insertion writes a key. -/
theorem doInserts_export (n : Nat) (wl : CoreWorkload) {s : Export} (hs : s.inited = false) :
    doInserts (exportDB padding) n wl s
      = some (wl.advance n, s.write (((sequenceKeys wl n).map str2key).flatMap word)) := by
  induction n generalizing wl s with
  | zero =>
      refine congrArg (fun fs => some (wl, ({ s with fs := fs } : Export))) ?_
      exact (List.append_nil _).symm
  | succ n ih =>
      have hone : doInsert (exportDB padding) wl s = some (wl.nextSequenceKey.1,
          s.write (word (str2key (wl.buildKeyName wl.keyGenerator)))) := by
        simp only [doInsert, CoreWorkload.nextSequenceKey, exportDB, Export.insert, hs,
          Bool.false_eq_true, if_false, Option.bind_eq_bind, Option.bind_some]
      rw [doInserts, hone]
      simp only [Option.bind_eq_bind, Option.bind_some]
      rw [ih wl.nextSequenceKey.1 (s := s.write _) hs, sequenceKeys, List.map_cons,
        List.flatMap_cons, Export.write, Export.write, Export.write, List.append_assoc]
      rfl

end

/-- The file that is exported, in its parts. -/
theorem exportRun_eq (padding : Nat → Fin 7 → UInt8) (wl : CoreWorkload) (updateDelete : Bool)
    (recordCount : Nat)
    (draws : List Draw) :
    ∃ bytes, exportRun padding wl updateDelete recordCount draws
        = some (word (UInt64.ofNat recordCount) ++ word (UInt64.ofNat draws.length)
          ++ ((sequenceKeys wl recordCount).map str2key).flatMap word ++ bytes) ∧
      Holds Main.readTx bytes
        ((issued (wl.advance recordCount) draws).map fun c => (c.tx updateDelete).toMain) := by
  let s₀ : Export := newExport recordCount draws.length updateDelete
  let s₁ : Export := { ((s₀.write (word s₀.numRecords)).write (word s₀.numTransactions)) with
    running := true }
  let s₂ : Export := { s₁.write (((sequenceKeys wl recordCount).map str2key).flatMap word) with
    inited := true
    running := true }
  obtain ⟨bytes, hfs, hholds⟩ :=
    holds_writeCalls padding (issued (wl.advance recordCount) draws) s₂
  refine ⟨bytes, ?_, hholds⟩
  have hrun : run (exportDB padding) wl recordCount draws s₀ = some
      { (issued (wl.advance recordCount) draws).foldl (Export.writeCall padding) s₂ with
        inited := true
        running := false } := by
    have hinit : (exportDB padding).init s₀ = some s₁ := rfl
    have hinserts := doInserts_export padding recordCount wl (s := s₁) rfl
    have htrans := doTransactions_export padding draws (wl.advance recordCount) (s := s₂) rfl
    simp only [run, hinit, hinserts, Option.bind_eq_bind, Option.bind_some]
    exact (congrArg (fun o => Option.bind o _) htrans).trans rfl
  rw [exportRun, show newExport recordCount draws.length updateDelete = s₀ from rfl, hrun,
    Option.map_some]
  refine congrArg some (hfs.trans ?_)
  rfl

/-! ### What is read -/

theorem length_sequenceKeys (n : Nat) (wl : CoreWorkload) : (sequenceKeys wl n).length = n := by
  induction n generalizing wl with
  | zero => rfl
  | succ n ih => rw [sequenceKeys, List.length_cons, ih]

theorem length_calls (wl : CoreWorkload) (d : Draw) :
    (d.calls wl).length = if d.operation = .readModifyWrite then 2 else 1 := by
  unfold Draw.calls
  cases d.operation <;> rfl

theorem length_issued_ge (draws : List Draw) (wl : CoreWorkload) :
    draws.length ≤ (issued wl draws).length := by
  induction draws generalizing wl with
  | nil => exact le_rfl
  | cons d draws ih =>
      have htail := ih (d.next wl)
      have hhead : 1 ≤ (d.calls wl).length := by
        rw [length_calls]
        split <;> decide
      rw [issued, List.length_append, List.length_cons]
      omega

/-- There are as many calls as draws if none of them reads before it writes. -/
theorem length_issued_iff (draws : List Draw) (wl : CoreWorkload) :
    (issued wl draws).length = draws.length ↔ ∀ d ∈ draws, d.operation ≠ .readModifyWrite := by
  induction draws generalizing wl with
  | nil => simp [issued]
  | cons d draws ih =>
      have hge := length_issued_ge draws (d.next wl)
      rw [issued, List.length_append, List.length_cons, length_calls, List.forall_mem_cons,
        ← ih (d.next wl)]
      by_cases hd : d.operation = .readModifyWrite
      · rw [if_pos hd]
        exact iff_of_false (by omega) fun h => h.1 hd
      · rw [if_neg hd, and_iff_right hd]
        omega

/-- `main.cpp` reads the header, the keys, and the transactions the header counts. -/
theorem readWorkload_exportRun (padding : Nat → Fin 7 → UInt8) (wl : CoreWorkload)
    (updateDelete : Bool) (recordCount : Nat) (draws : List Draw) (hn : recordCount < 2 ^ 64)
    (hm : draws.length < 2 ^ 64) :
    ∃ file, exportRun padding wl updateDelete recordCount draws = some file ∧
      Main.readWorkload file = some ⟨UInt64.ofNat recordCount, UInt64.ofNat draws.length,
        (sequenceKeys wl recordCount).map str2key,
        ((issued (wl.advance recordCount) draws).map fun c => (c.tx updateDelete).toMain).take
          draws.length⟩ := by
  obtain ⟨bytes, hfile, hholds⟩ := exportRun_eq padding wl updateDelete recordCount draws
  refine ⟨_, hfile, ?_⟩
  have hlen : ((sequenceKeys wl recordCount).map str2key).length = recordCount := by
    rw [List.length_map, length_sequenceKeys]
  obtain ⟨rest, helems, hrest⟩ := (holds_words ((sequenceKeys wl recordCount).map str2key)).readMany
    hlen.ge bytes
  obtain ⟨rest', htxs, -⟩ := hholds.readMany (n := draws.length)
    (by rw [List.length_map]; exact length_issued_ge draws _) []
  rw [List.append_nil] at htxs
  rw [List.take_of_length_le hlen.le, hrest hlen.symm] at helems
  rw [Main.readWorkload, List.append_assoc, List.append_assoc, readWord_word]
  simp only [Option.bind_eq_bind, Option.bind_some, readWord_word,
    UInt64.toNat_ofNat_of_lt' hn, UInt64.toNat_ofNat_of_lt' hm, helems, htxs]

/-! ### Whether it is what was issued

Transactions are compared with calls one by one.  The header counts draws, and two calls
of one draw are two transactions.
-/

/-- How a call is to be answered: the key is the one the name stands for, and the
interval of a scan has as many keys as its length says. -/
def Call.ComesBack (updateDelete : Bool) (request : Option Main.Request) : Call → Prop
  | .read key => ∃ k, Names key k ∧ request = some (.query k k)
  | .scan key len => ∃ k l r, Names key k ∧ request = some (.query l r) ∧
      (1 ≤ len.toInt → ∀ j : UInt64, l ≤ j ∧ j ≤ r ↔
        (k.toNat : Int) ≤ j.toNat ∧ (j.toNat : Int) ≤ k.toNat + len.toInt - 1)
  | .update key => ∃ k, Names key k ∧
      request = some (if updateDelete then .delete k else .insert k)
  | .insert key => ∃ k, Names key k ∧ request = some (.insert k)
  | .delete key => ∃ k, Names key k ∧ request = some (.delete k)

/-- The last key of a scan is a key. -/
def Draw.Fits (wl : CoreWorkload) (d : Draw) : Prop :=
  1 ≤ d.len.toInt → (wl.number d.keyNum).toNat + d.len.toInt - 1 < 2 ^ 64

/-- The interval that is written for a scan is right unless it wraps around. -/
theorem scan_interval {k : UInt64} {len : Int32} (hlen : 1 ≤ len.toInt) :
    (∀ j : UInt64, k ≤ j ∧ j ≤ k + UInt64.ofNat (if 0 < len then len - 1 else 0).toInt.toNat ↔
        (k.toNat : Int) ≤ j.toNat ∧ (j.toNat : Int) ≤ k.toNat + len.toInt - 1) ↔
      k.toNat + len.toInt - 1 < 2 ^ 64 := by
  have hpos : 0 < len := Int32.lt_iff_toInt_lt.mpr (lt_of_lt_of_le Int.zero_lt_one hlen)
  have hone : (1 : Int32) ≤ len := Int32.le_iff_toInt_le.mpr hlen
  have hsub : (len - 1).toInt = len.toInt - 1 := Int32.toInt_sub_of_le len 1 (by decide) hone
  have hmax := Int32.toInt_lt len
  have hk := UInt64.toNat_lt k
  rw [if_pos hpos, hsub]
  obtain ⟨n, hn⟩ : ∃ n : Nat, len.toInt - 1 = n := ⟨(len.toInt - 1).toNat, by omega⟩
  rw [hn, Int.toNat_natCast]
  have hnat : (UInt64.ofNat n).toNat = n := UInt64.toNat_ofNat_of_lt' (show n < 2 ^ 64 by omega)
  have hadd := UInt64.toNat_add k (UInt64.ofNat n)
  rw [hnat] at hadd
  simp only [UInt64.le_iff_toNat_le]
  constructor
  · intro h
    by_contra hover
    have hself := ((h k).mpr ⟨le_rfl, by omega⟩).2
    omega
  · intro hfit j
    rw [Nat.mod_eq_of_lt (by omega)] at hadd
    omega

theorem request_scan (updateDelete : Bool) (key : List Char) (len : Int32) :
    ((Call.scan key len).tx updateDelete).toMain.request
      = some (.query (str2key key)
          (str2key key + UInt64.ofNat (if 0 < len then len - 1 else 0).toInt.toNat)) := rfl

section
variable {key : List Char} {k : UInt64} (updateDelete : Bool) (hname : Names key k)
include hname

theorem names_str2key : Names key (str2key key) := by
  rw [str2key_names hname]
  exact hname

theorem comesBack_read :
    (Call.read key).ComesBack updateDelete ((Call.read key).tx updateDelete).toMain.request :=
  ⟨_, names_str2key hname, rfl⟩

theorem comesBack_insert :
    (Call.insert key).ComesBack updateDelete ((Call.insert key).tx updateDelete).toMain.request :=
  ⟨_, names_str2key hname, rfl⟩

theorem comesBack_update :
    (Call.update key).ComesBack updateDelete ((Call.update key).tx updateDelete).toMain.request := by
  refine ⟨_, names_str2key hname, ?_⟩
  cases updateDelete <;> rfl

end

/-- One draw: its calls are written as transactions, and read back as what the client
issued unless a scan runs over the largest key. -/
theorem comesBack_calls (wl wl' : CoreWorkload) (updateDelete : Bool) (d : Draw)
    (hnum : ∀ x, wl'.number x = wl.number x) :
    (∀ c ∈ d.calls wl', c.ComesBack updateDelete (c.tx updateDelete).toMain.request) ↔
      (d.operation = .scan → d.Fits wl) := by
  have hname := names_buildKeyName wl' d.keyNum
  unfold Draw.calls
  cases hop : d.operation with
  | read =>
      have hback := comesBack_read updateDelete hname
      exact iff_of_true (List.forall_mem_singleton.mpr hback) (by simp)
  | update =>
      have hback := comesBack_update updateDelete hname
      exact iff_of_true (List.forall_mem_singleton.mpr hback) (by simp)
  | insert =>
      have hback := comesBack_insert updateDelete (names_buildKeyName wl' wl'.keyGenerator)
      exact iff_of_true (List.forall_mem_singleton.mpr hback) (by simp)
  | readModifyWrite =>
      have hread := comesBack_read updateDelete hname
      have hupdate := comesBack_update updateDelete hname
      exact iff_of_true (List.forall_mem_cons.mpr ⟨hread, List.forall_mem_singleton.mpr hupdate⟩)
        (by simp)
  | scan =>
      have hkey : str2key (wl'.buildKeyName d.keyNum) = wl.number d.keyNum :=
        (str2key_names hname).trans (hnum d.keyNum)
      constructor
      · intro h _ hlen
        obtain ⟨k, l, r, hk, hreq, hall⟩ := h _ List.mem_cons_self
        obtain rfl : str2key (wl'.buildKeyName d.keyNum) = k := str2key_names hk
        obtain ⟨hl, hr⟩ := Main.Request.query.inj (Option.some.inj ((request_scan ..).symm.trans hreq))
        have hfits := hall hlen
        rw [← hl, ← hr, scan_interval hlen, hkey] at hfits
        exact hfits
      · intro h c hc
        obtain rfl := List.mem_singleton.mp hc
        refine ⟨_, _, _, names_str2key hname, request_scan .., fun hlen => (scan_interval hlen).mpr ?_⟩
        rw [hkey]
        exact h rfl hlen

/-- All draws, one after the other. -/
theorem comesBack_issued (wl : CoreWorkload) (updateDelete : Bool) (draws : List Draw)
    (wl' : CoreWorkload) (hnum : ∀ x, wl'.number x = wl.number x) :
    (∀ c ∈ issued wl' draws, c.ComesBack updateDelete (c.tx updateDelete).toMain.request) ↔
      ∀ d ∈ draws, d.operation = .scan → d.Fits wl := by
  induction draws generalizing wl' with
  | nil => simp [issued]
  | cons d draws ih =>
      have hnext : ∀ x, (d.next wl').number x = wl.number x := by
        intro x
        rw [← hnum x]
        unfold Draw.next
        cases d.operation <;> rfl
      rw [issued, List.forall_mem_append, List.forall_mem_cons,
        comesBack_calls wl wl' updateDelete d hnum, ih (d.next wl') hnext]

theorem number_advance (n : Nat) (wl : CoreWorkload) (x : UInt64) :
    (wl.advance n).number x = wl.number x := by
  induction n generalizing wl with
  | zero => rfl
  | succ n ih => exact ih wl.nextSequenceKey.1

theorem forall₂_loaded (n : Nat) (wl : CoreWorkload) :
    List.Forall₂ (fun c k => ∃ key, c = Call.insert key ∧ Names key k)
      ((sequenceKeys wl n).map Call.insert) ((sequenceKeys wl n).map str2key) := by
  induction n generalizing wl with
  | zero => exact .nil
  | succ n ih =>
      have hname := names_buildKeyName wl wl.keyGenerator
      exact .cons ⟨_, rfl, names_str2key hname⟩ (ih wl.nextSequenceKey.1)

/-- The workload that is read is the one that was issued. -/
structure ReadBack (updateDelete : Bool) (loaded calls : List Call) (w : Main.Workload) : Prop where
  numRecords : w.n.toNat = loaded.length
  numTransactions : w.m.toNat = calls.length
  records : List.Forall₂ (fun c k => ∃ key, c = Call.insert key ∧ Names key k) loaded w.elems
  transactions : List.Forall₂ (fun c tx => c.ComesBack updateDelete tx.request) calls w.txs

/-! ### Both phases

The keys that are loaded come first, in their order, and the transactions after them.
Reading is exact unless a scan is too long.
-/

/--
**An exported workload is read back as it was issued, if nothing is read to be modified
and no scan wraps around**, and only then.  The calls are those that a database in the
place of the exporting one gets in the same run.
-/
theorem export_read_back (padding : Nat → Fin 7 → UInt8) (wl : CoreWorkload)
    (updateDelete : Bool) (recordCount : Nat) (draws : List Draw) (hn : recordCount < 2 ^ 64)
    (hm : draws.length < 2 ^ 64) :
    ∃ wl' wl'' loaded calls file w,
      doInserts recorder recordCount wl [] = some (wl', loaded) ∧
      doTransactions recorder draws wl' [] = some (wl'', calls) ∧
      exportRun padding wl updateDelete recordCount draws = some file ∧
      Main.readWorkload file = some w ∧
      (ReadBack updateDelete loaded calls w ↔
        (∀ d ∈ draws, d.operation ≠ .readModifyWrite) ∧
          ∀ d ∈ draws, d.operation = .scan → d.Fits wl) := by
  obtain ⟨file, hfile, hread⟩ :=
    readWorkload_exportRun padding wl updateDelete recordCount draws hn hm
  refine ⟨_, _, _, _, file, _, doInserts_recorder recordCount wl [],
    doTransactions_recorder draws (wl.advance recordCount) [], hfile, hread, ?_⟩
  rw [List.nil_append, List.nil_append, ← length_issued_iff draws (wl.advance recordCount),
    ← comesBack_issued wl updateDelete draws (wl.advance recordCount) (number_advance recordCount wl)]
  have hmnat : (UInt64.ofNat draws.length).toNat = draws.length := UInt64.toNat_ofNat_of_lt' hm
  have hnnat : (UInt64.ofNat recordCount).toNat = recordCount := UInt64.toNat_ofNat_of_lt' hn
  have hall : (issued (wl.advance recordCount) draws).length = draws.length →
      (((issued (wl.advance recordCount) draws).map fun c => (c.tx updateDelete).toMain).take
        draws.length) = (issued (wl.advance recordCount) draws).map fun c =>
          (c.tx updateDelete).toMain := fun hlen =>
    List.take_of_length_le (by rw [List.length_map, hlen])
  have hsame : List.Forall₂ (fun c c' => c.ComesBack updateDelete (c'.tx updateDelete).toMain.request)
      (issued (wl.advance recordCount) draws) (issued (wl.advance recordCount) draws) ↔
        ∀ c ∈ issued (wl.advance recordCount) draws,
          c.ComesBack updateDelete (c.tx updateDelete).toMain.request := List.forall₂_same
  rw [← hsame]
  constructor
  · intro h
    have hlen := h.numTransactions.symm.trans hmnat
    have htxs := h.transactions
    rw [hall hlen, List.forall₂_map_right_iff] at htxs
    exact ⟨hlen, htxs⟩
  · rintro ⟨hlen, hback⟩
    refine ⟨?_, hmnat.trans hlen.symm, forall₂_loaded recordCount wl, ?_⟩
    · rw [List.length_map, length_sequenceKeys]
      exact hnnat
    · rw [hall hlen, List.forall₂_map_right_iff]
      exact hback

/-- Two keys are loaded, then one is read and one scan is made. -/
theorem export_read_back_two :
    ∃ wl' wl'' loaded calls file w,
      doInserts recorder 2 ⟨0, false, 1⟩ [] = some (wl', loaded) ∧
      doTransactions recorder [⟨.read, 1, 0⟩, ⟨.scan, 0, 10⟩] wl' [] = some (wl'', calls) ∧
      exportRun (fun _ _ => 0) ⟨0, false, 1⟩ true 2 [⟨.read, 1, 0⟩, ⟨.scan, 0, 10⟩] = some file ∧
      Main.readWorkload file = some w ∧
      (ReadBack true loaded calls w ↔
        (∀ d ∈ [⟨.read, 1, 0⟩, ⟨.scan, 0, 10⟩], Draw.operation d ≠ .readModifyWrite) ∧
          ∀ d ∈ [⟨.read, 1, 0⟩, ⟨.scan, 0, 10⟩], Draw.operation d = .scan →
            d.Fits ⟨0, false, 1⟩) :=
  export_read_back (fun _ _ => 0) ⟨0, false, 1⟩ true 2 [⟨.read, 1, 0⟩, ⟨.scan, 0, 10⟩] (by decide)
    (by decide)

/-- A key is read to be modified: the client makes two calls, one of them is read back. -/
theorem export_read_back_fails :
    (doTransactions recorder [⟨.readModifyWrite, 0, 1⟩] ⟨1, true, 1⟩ []).map Prod.snd
      = some [.read ['u', 's', 'e', 'r', '0'], .update ['u', 's', 'e', 'r', '0']] ∧
    (exportRun (fun _ _ => 0) ⟨0, true, 1⟩ false 1 [⟨.readModifyWrite, 0, 1⟩]).bind
        Main.readWorkload = some ⟨1, 1, [0], [⟨0, 0, 0⟩]⟩ ∧
    ¬ ∀ file w, exportRun (fun _ _ => 0) ⟨0, true, 1⟩ false 1 [⟨.readModifyWrite, 0, 1⟩] = some file →
      Main.readWorkload file = some w →
      ReadBack false [.insert ['u', 's', 'e', 'r', '0']]
        [.read ['u', 's', 'e', 'r', '0'], .update ['u', 's', 'e', 'r', '0']] w := by
  have hrun : (exportRun (fun _ _ => 0) ⟨0, true, 1⟩ false 1 [⟨.readModifyWrite, 0, 1⟩]).bind
      Main.readWorkload = some ⟨1, 1, [0], [⟨0, 0, 0⟩]⟩ := rfl
  refine ⟨rfl, hrun, fun h => ?_⟩
  obtain ⟨file, hfile, hread⟩ := Option.bind_eq_some_iff.mp hrun
  have hcount := (h file _ hfile hread).numTransactions
  exact absurd hcount (by decide)

end Ycsbc
