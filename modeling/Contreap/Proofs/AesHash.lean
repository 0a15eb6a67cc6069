/-
The priority hash is perfect.

An integer stands in the register several times over, and only its first copy is read
back.  No byte is lost all the same.  One round takes a diagonal of the state to a column
of the result, and a diagonal has a byte from every column.  With four copies of a word a
diagonal is the word.  With two copies of eight bytes two diagonals are needed, the first
two columns of the second round are made from two diagonals of the first, and whatever the
key in between these tell all of it, because the state before it repeats after two
columns (`round_period`).

For the short widths a column holds two bytes in turn, or one, and what mixing makes of it
is read in one or two rows only, which is enough to tell them apart.

That is all the treap asks of its priorities: whatever keys were drawn, a tree built and
updated with them is the well-formed tree of its multiset (`history_wellFormed`).
-/
import Contreap.Model.AesHash
import Contreap.Proofs.Treap.History

namespace AesHash

open Rijndael Wire

variable {k m n : Nat} {s t key : State}

/-! ### Integers in a register -/

/-- Byte `i` of an integer of `k` bytes. -/
def byteAt (k n i : Nat) : Byte := ⟨((leBytes k n).getD i 0).toBitVec⟩

theorem set1_apply (k n : Nat) (r c : Fin 4) : set1 k n r c = byteAt k n ((r + 4 * c) % k) := rfl

/-- An integer is told by its bytes. -/
theorem eq_of_byteAt (hm : m < 256 ^ k) (hn : n < 256 ^ k)
    (h : ∀ i < k, byteAt k m i = byteAt k n i) : m = n := by
  have hbytes : leBytes k m = leBytes k n := by
    apply List.ext_getElem
    · rw [length_leBytes, length_leBytes]
    · intro i hi hi'
      have heq := congrArg Byte.bits (h i (length_leBytes k m ▸ hi))
      simp only [byteAt, List.getD_eq_getElem?_getD, List.getElem?_eq_getElem hi,
        List.getElem?_eq_getElem hi', Option.getD_some] at heq
      exact UInt8.toBitVec_inj.mp heq
  rw [← Nat.mod_eq_of_lt hm, ← Nat.mod_eq_of_lt hn, ← ofLeBytes_leBytes, ← ofLeBytes_leBytes, hbytes]

theorem low_lt (k : Nat) (s : State) : low k s < 256 ^ k := by
  have := ofLeBytes_lt ((List.range k).map fun i => UInt8.ofBitVec (byte s i).bits)
  rwa [List.length_map, List.length_range] at this

/-- The bytes read back are those of the register. -/
theorem eq_of_low (h : low k s = low k t) {r c : Fin 4} (hi : r + 4 * c < k) : s r c = t r c := by
  have hbytes := ofLeBytes_inj (by simp) h
  have hbyte := List.map_inj_left.mp hbytes (r + 4 * c) (List.mem_range.mpr hi)
  rw [byte_at, byte_at] at hbyte
  ext1
  exact UInt8.toBitVec_inj.mpr hbyte

/-- The key cancels. -/
theorem round_eq {r c : Fin 4} (h : aesenc s key r c = aesenc t key r c) :
    Rijndael.round s r c = Rijndael.round t r c :=
  add_right_cancel h

/-! ### Columns alike

A register filled with a short integer is the same in every column, so one column of the
result tells all that there is to tell.
-/

/-- The first column after a round of a register of short integers. -/
theorem round_zero (k n : Nat) (hk : 4 % k = 0) (r : Fin 4) :
    Rijndael.round (set1 k n) r 0 = mixColumn (fun i => subByte (byteAt k n (i % k))) r := by
  have hindex : ∀ i : Fin 4, ((i : Nat) + 4 * ((0 + i : Fin 4) : Nat)) % k = i % k := by
    intro i
    rw [Nat.add_mod, Nat.mul_mod, hk, Nat.zero_mul, Nat.zero_mod, Nat.add_zero, Nat.mod_mod]
  unfold Rijndael.round mixColumns subBytes shiftRows
  simp only [set1_apply, hindex]

theorem four_bytes (hm : m < 256 ^ 4) (hn : n < 256 ^ 4)
    (h : low 4 (aesenc (set1 4 m) key) = low 4 (aesenc (set1 4 n) key)) : m = n := by
  have hcolumn : mixColumn (fun i => subByte (byteAt 4 m (i % 4)))
      = mixColumn (fun i => subByte (byteAt 4 n (i % 4))) := by
    funext r
    rw [← round_zero 4 m rfl, ← round_zero 4 n rfl]
    exact round_eq (eq_of_low h (by simp))
  apply eq_of_byteAt hm hn
  intro i hi
  have hbyte := subByte_injective (congrFun (mixColumn_injective hcolumn) ⟨i, hi⟩)
  rwa [Nat.mod_eq_of_lt hi] at hbyte

theorem two_bytes (hm : m < 256 ^ 2) (hn : n < 256 ^ 2)
    (h : low 2 (aesenc (set1 2 m) key) = low 2 (aesenc (set1 2 n) key)) : m = n := by
  have hrow : ∀ r : Fin 4, r + 4 * ((0 : Fin 4) : Nat) < 2 →
      mixColumn (fun i => subByte (byteAt 2 m (i % 2))) r
        = mixColumn (fun i => subByte (byteAt 2 n (i % 2))) r := by
    intro r hr
    rw [← round_zero 2 m rfl, ← round_zero 2 n rfl]
    exact round_eq (eq_of_low h hr)
  obtain ⟨h₀, h₁⟩ := circulant_pair Byte.add_self xtime (hrow 0 (by decide)) (hrow 1 (by decide))
  apply eq_of_byteAt hm hn
  intro i hi
  match i, hi with
  | 0, _ => exact subByte_injective h₀
  | 1, _ => exact subByte_injective h₁

theorem one_byte (hm : m < 256 ^ 1) (hn : n < 256 ^ 1)
    (h : low 1 (aesenc (set1 1 m) key) = low 1 (aesenc (set1 1 n) key)) : m = n := by
  have hrow : mixColumn (fun i => subByte (byteAt 1 m (i % 1))) 0
      = mixColumn (fun i => subByte (byteAt 1 n (i % 1))) 0 := by
    rw [← round_zero 1 m rfl, ← round_zero 1 n rfl]
    exact round_eq (eq_of_low h (by decide))
  simp only [Nat.mod_one] at hrow
  have hbyte := (circulant_pair Byte.add_self xtime hrow hrow).1
  apply eq_of_byteAt hm hn
  intro i hi
  rw [Nat.lt_one_iff.mp hi]
  exact subByte_injective hbyte

/-! ### Two columns in turn

A register filled with eight bytes repeats after two columns.  A round keeps that, which
is why two columns of the result of the second round lead back to the integer.
-/

/-- A register of eight bytes in two copies. -/
theorem set1_period (n : Nat) (r c : Fin 4) : set1 8 n r (c + 2) = set1 8 n r c := by
  have hindex : ∀ r c : Fin 4, ((r : Nat) + 4 * ((c + 2 : Fin 4) : Nat)) % 8 = (r + 4 * c) % 8 := by
    decide
  rw [set1_apply, set1_apply, hindex]

/-- Two rounds, with a key in between that is not looked at. -/
theorem eight_bytes {key64 : State} (hm : m < 256 ^ 8) (hn : n < 256 ^ 8)
    (h : low 8 (aesenc (aesenc (set1 8 m) key) key64)
      = low 8 (aesenc (aesenc (set1 8 n) key) key64)) : m = n := by
  have hfirst : ∀ r, aesenc (set1 8 m) key r (0 + r) = aesenc (set1 8 n) key r (0 + r) :=
    round_column fun r => round_eq (eq_of_low h (by omega))
  have hsecond : ∀ r, aesenc (set1 8 m) key r (1 + r) = aesenc (set1 8 n) key r (1 + r) :=
    round_column fun r => round_eq (eq_of_low h (by omega))
  -- The two diagonals, and what repeats after two columns, are everything.
  have hround : ∀ r c, Rijndael.round (set1 8 m) r c = Rijndael.round (set1 8 n) r c := by
    intro r c
    have hplace : ∀ r c : Fin 4, c = 0 + r ∨ c = 1 + r ∨ c = 0 + r + 2 ∨ c = 1 + r + 2 := by decide
    rcases hplace r c with rfl | rfl | rfl | rfl
    · exact round_eq (hfirst r)
    · exact round_eq (hsecond r)
    · rw [round_period (set1_period m), round_period (set1_period n)]
      exact round_eq (hfirst r)
    · rw [round_period (set1_period m), round_period (set1_period n)]
      exact round_eq (hsecond r)
  have hbytes : ∀ r c, set1 8 m r c = set1 8 n r c := by
    intro r c
    have hcell := round_column (c := c - r) (fun r' => hround r' (c - r)) r
    rwa [show c - r + r = c by omega] at hcell
  apply eq_of_byteAt hm hn
  intro i hi
  have hcell := hbytes (Fin.ofNat 4 i) (Fin.ofNat 4 (i / 4))
  have hindex : (Fin.ofNat 4 i : Nat) + 4 * (Fin.ofNat 4 (i / 4) : Nat) = i := by
    rw [Fin.val_ofNat, Fin.val_ofNat]
    omega
  rwa [set1_apply, set1_apply, hindex, Nat.mod_eq_of_lt hi] at hcell

/-! ### Whatever the keys -/

section
variable (key key64 : State)

theorem hash64_injective : Function.Injective (hash64 key key64) := by
  intro x y hxy
  have hlow := congrArg UInt64.toNat hxy
  simp only [hash64, UInt64.toNat_ofNat_of_lt' (low_lt 8 _)] at hlow
  exact UInt64.toNat_inj.mp (eight_bytes x.toNat_lt y.toNat_lt hlow)

open Treap BinaryTree PtrHeap in
/-- A history with these priorities ends in the well-formed tree of its outcome. -/
theorem history_wellFormed (s : Store) {elems : List UInt64} {us : List Update}
    (hfits : HistoryFits elems us) :
    ∃ s' p t, history (hash64 key key64) s elems us = some (s', p) ∧ Shows layout s' p t ∧
      WellFormed (hash64 key key64) t ∧ contents t = outcome elems us :=
  history_spec (hash64_injective key key64) s hfits

theorem hash32_injective : Function.Injective (hash32 key) := by
  intro x y hxy
  have hlow := congrArg UInt32.toNat hxy
  simp only [hash32, UInt32.toNat_ofNat_of_lt' (low_lt 4 _)] at hlow
  exact UInt32.toNat_inj.mp (four_bytes x.toNat_lt y.toNat_lt hlow)

theorem hash16_injective : Function.Injective (hash16 key) := by
  intro x y hxy
  have hlow := congrArg UInt16.toNat hxy
  simp only [hash16, UInt16.toNat_ofNat_of_lt' (low_lt 2 _)] at hlow
  exact UInt16.toNat_inj.mp (two_bytes x.toNat_lt y.toNat_lt hlow)

theorem hash8_injective : Function.Injective (hash8 key) := by
  intro x y hxy
  have hlow := congrArg UInt8.toNat hxy
  simp only [hash8, UInt8.toNat_ofNat_of_lt' (low_lt 1 _)] at hlow
  exact UInt8.toNat_inj.mp (one_byte x.toNat_lt y.toNat_lt hlow)

end

/-- **The hash is perfect.** Integers of any width keep apart, whatever keys were drawn. -/
theorem perfect_hash (key key64 : State) :
    Function.Injective (hash64 key key64) ∧ Function.Injective (hash32 key) ∧
      Function.Injective (hash16 key) ∧ Function.Injective (hash8 key) :=
  ⟨hash64_injective key key64, hash32_injective key, hash16_injective key, hash8_injective key⟩

end AesHash
