/-
`aes_hash`: the hash that gives a key its priority.

A register of 128 bits is a state of the cipher: byte `r + 4 * c`, counted from the
lowest, is in row `r` and column `c`.  The integer is copied into all of it, goes through
one or two rounds, and the lowest bytes are read back.  The round keys are drawn once and
for all when the first integer of a width is hashed; here they are parameters.
-/
import Contreap.Lib.Rijndael
import Contreap.Lib.Wire

namespace AesHash

open Rijndael Wire

/-- `_mm_set1_epi64x` and the others, for an integer of `k` bytes. -/
def set1 (k n : Nat) : State := fun r c =>
  ⟨((leBytes k n).getD ((r + 4 * c) % k) 0).toBitVec⟩

/-- The lowest `k` bytes of a register. -/
def low (k : Nat) (s : State) : Nat :=
  ofLeBytes ((List.range k).map fun i => UInt8.ofBitVec (byte s i).bits)

/-- Eight bytes, through two rounds. -/
def hash64 (key key64 : State) (x : UInt64) : UInt64 :=
  let r := set1 8 x.toNat
  let r := aesenc r key
  let r := aesenc r key64
  UInt64.ofNat (low 8 r)

/-- Four bytes, through one round. -/
def hash32 (key : State) (x : UInt32) : UInt32 :=
  let r := set1 4 x.toNat
  let r := aesenc r key
  UInt32.ofNat (low 4 r)

/-- Two bytes, through one round. -/
def hash16 (key : State) (x : UInt16) : UInt16 :=
  let r := set1 2 x.toNat
  let r := aesenc r key
  UInt16.ofNat (low 2 r)

/-- One byte, through one round. -/
def hash8 (key : State) (x : UInt8) : UInt8 :=
  let r := set1 1 x.toNat
  let r := aesenc r key
  UInt8.ofNat (low 1 r)

end AesHash
