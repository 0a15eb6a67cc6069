/-
Words and records as bytes.

A word is written as eight bytes, the least significant first, and a record as the bytes
of its fields.  Reading takes bytes from the front of what is left of the file and fails
when there are too few.
-/
import Mathlib.Algebra.Order.Ring.Nat
import Mathlib.Tactic.Ring

namespace Wire

/-! ### Words -/

/-- A number in so many bytes, the lowest first. -/
def leBytes : Nat → Nat → List UInt8
  | 0, _ => []
  | w + 1, n => UInt8.ofNat n :: leBytes w (n / 256)

/-- The number that bytes stand for. -/
def ofLeBytes : List UInt8 → Nat
  | [] => 0
  | b :: bs => b.toNat + 256 * ofLeBytes bs

theorem length_leBytes (w n : Nat) : (leBytes w n).length = w := by
  induction w generalizing n with
  | zero => rfl
  | succ w ih => rw [leBytes, List.length_cons, ih]

theorem ofLeBytes_leBytes (w n : Nat) : ofLeBytes (leBytes w n) = n % 256 ^ w := by
  induction w generalizing n with
  | zero => rw [leBytes, ofLeBytes, pow_zero, Nat.mod_one]
  | succ w ih =>
      rw [leBytes, ofLeBytes, ih, UInt8.toNat_ofNat', show 2 ^ 8 = 256 from rfl, pow_succ', Nat.mod_mul]

theorem ofLeBytes_lt (bs : List UInt8) : ofLeBytes bs < 256 ^ bs.length := by
  induction bs with
  | nil => exact Nat.one_pos
  | cons b bs ih =>
      have hb := b.toNat_lt
      rw [ofLeBytes, List.length_cons, pow_succ']
      omega

/-- Bytes are told by the number they make. -/
theorem ofLeBytes_inj {bs cs : List UInt8} (hlen : bs.length = cs.length)
    (h : ofLeBytes bs = ofLeBytes cs) : bs = cs := by
  induction bs generalizing cs with
  | nil => exact (List.length_eq_zero_iff.mp hlen.symm).symm
  | cons b bs ih =>
      cases cs with
      | nil => cases hlen
      | cons c cs =>
          have hb := b.toNat_lt
          have hc := c.toNat_lt
          simp only [ofLeBytes] at h
          have hhead : b = c := UInt8.toNat_inj.mp (by omega)
          rw [hhead, ih (Nat.succ.inj hlen) (by omega)]

/-- Eight bytes in a file. -/
def word (x : UInt64) : List UInt8 := leBytes 8 x.toNat

@[simp] theorem length_word (x : UInt64) : (word x).length = 8 := length_leBytes 8 _

theorem ofLeBytes_word (x : UInt64) : UInt64.ofNat (ofLeBytes (word x)) = x := by
  have hlt : x.toNat < 256 ^ 8 := UInt64.toNat_lt x
  rw [word, ofLeBytes_leBytes, Nat.mod_eq_of_lt hlt, UInt64.ofNat_toNat]

/-! ### Reading -/

variable {α : Type*}

/-- A value and the bytes after it. -/
abbrev Read (α : Type*) := List UInt8 → Option (α × List UInt8)

/-- The next eight bytes, if there are as many. -/
def readWord : Read UInt64 := fun bs =>
  if 8 ≤ bs.length then some (UInt64.ofNat (ofLeBytes (bs.take 8)), bs.drop 8) else none

theorem readWord_word (x : UInt64) (rest : List UInt8) :
    readWord (word x ++ rest) = some (x, rest) := by
  have hlen : 8 ≤ (word x ++ rest).length := by
    rw [List.length_append, length_word]
    exact Nat.le_add_right 8 _
  rw [readWord, if_pos hlen, List.take_left' (length_word x), List.drop_left' (length_word x),
    ofLeBytes_word]

/-- So many values, one after the other. -/
def readMany (read : Read α) : Nat → Read (List α)
  | 0, bs => some ([], bs)
  | n + 1, bs => do
      let (x, bs) ← read bs
      let (xs, bs) ← readMany read n bs
      some (x :: xs, bs)

variable {read : Read α}

/-- Bytes that are read as this value, whatever comes after them. -/
def Gives (read : Read α) (bs : List UInt8) (x : α) : Prop :=
  ∀ rest, read (bs ++ rest) = some (x, rest)

/-- The bytes of these values, one after the other. -/
inductive Holds (read : Read α) : List UInt8 → List α → Prop
  | nil : Holds read [] []
  | cons {bs cs : List UInt8} {x : α} {xs : List α} (h : Gives read bs x) (ht : Holds read cs xs) :
      Holds read (bs ++ cs) (x :: xs)

namespace Holds

variable {bs cs : List UInt8} {xs ys : List α} {x : α}

/-- As many values as are asked for are read, in order. -/
theorem readMany {n : Nat} (h : Holds read bs xs) (hn : n ≤ xs.length) (rest : List UInt8) :
    ∃ rest', readMany read n (bs ++ rest) = some (xs.take n, rest') ∧
      (n = xs.length → rest' = rest) := by
  induction h generalizing n with
  | nil =>
      obtain rfl : n = 0 := Nat.le_zero.mp hn
      exact ⟨rest, rfl, fun _ => rfl⟩
  | @cons bs cs xs x h _ ih =>
      cases n with
      | zero => exact ⟨_, rfl, fun h => absurd h (Nat.succ_ne_zero _).symm⟩
      | succ n =>
          obtain ⟨rest', hrun, hall⟩ := ih (Nat.le_of_succ_le_succ hn)
          refine ⟨rest', ?_, fun heq => hall (Nat.succ.inj heq)⟩
          rw [Wire.readMany, List.append_assoc, h]
          simp only [Option.bind_eq_bind, Option.bind_some, hrun, List.take_succ_cons]

end Holds

theorem gives_word (x : UInt64) : Gives readWord (word x) x := readWord_word x

theorem holds_words (xs : List UInt64) : Holds readWord (xs.flatMap word) xs := by
  induction xs with
  | nil => exact .nil
  | cons x xs ih => exact .cons (gives_word x) ih

end Wire
