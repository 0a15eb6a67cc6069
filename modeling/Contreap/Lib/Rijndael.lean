/-
A round of the Rijndael cipher.

Bytes are the elements of a field of characteristic two: they are added bit by bit, and
multiplied as polynomials modulo `x ^ 8 + x ^ 4 + x ^ 3 + x + 1`.  A state is a matrix of
sixteen bytes, which a round takes through `shiftRows`, `subBytes` and `mixColumns` before
the round key is added.

All that is asked of a round here is what one column of the result tells of the state.
It tells a diagonal (`round_column`), since a column is mixed without loss
(`mixColumn_injective`), and so is a byte substituted (`subByte_injective`).  Mixing is a
matter of linear algebra, and needs no more of the field than that doubling is additive
and that everything added to itself is zero.
-/
import Mathlib.Algebra.Group.Basic
import Mathlib.Algebra.Group.Hom.Defs
import Mathlib.Data.Fintype.Basic
import Mathlib.Tactic.Abel
import Mathlib.Tactic.FinCases

namespace Rijndael

/-! ### Sums where everything is its own opposite -/

section
variable {V : Type*} [AddCommGroup V] (two : ∀ v : V, v + v = 0)
include two

theorem add_self_add (v w : V) : v + (v + w) = w := by
  rw [← add_assoc, two, zero_add]

theorem eq_of_add_eq_zero {v w : V} (h : v + w = 0) : v = w := by
  rw [← add_self_add two w v, add_comm w v, h, add_zero]

/-- Four elements that the circulant of `2, 3, 1, 1` takes to zero are zero. -/
theorem circulant_eq_zero (X : V →+ V) {a b c d : V} (h₀ : X a + (X b + b) + c + d = 0)
    (h₁ : X b + (X c + c) + d + a = 0) (h₂ : X c + (X d + d) + a + b = 0)
    (h₃ : X d + (X a + a) + b + c = 0) : a = 0 ∧ b = 0 ∧ c = 0 ∧ d = 0 := by
  have hcancel := add_self_add two
  have hsum : a + b + c + d = 0 := by
    have hall : X a + (X b + b) + c + d + (X b + (X c + c) + d + a) +
        ((X c + (X d + d) + a + b) + (X d + (X a + a) + b + c)) = 0 := by
      rw [h₀, h₁, h₂, h₃, add_zero, add_zero]
    simpa [add_assoc, add_comm, add_left_comm, two, hcancel] using hall
  -- With the sum gone, each is the double of itself and the next together.
  have ha : a = X (a + b) := by
    refine eq_of_add_eq_zero two ?_
    have := congrArg₂ (· + ·) h₀ hsum
    simpa [add_assoc, add_comm, add_left_comm, two, hcancel] using this
  have hb : b = X (b + c) := by
    refine eq_of_add_eq_zero two ?_
    have := congrArg₂ (· + ·) h₁ hsum
    simpa [add_assoc, add_comm, add_left_comm, two, hcancel] using this
  have hc : c = X (c + d) := by
    refine eq_of_add_eq_zero two ?_
    have := congrArg₂ (· + ·) h₂ hsum
    simpa [add_assoc, add_comm, add_left_comm, two, hcancel] using this
  have hac : a + c = 0 := by
    calc a + c = X (a + b) + X (c + d) := by rw [← ha, ← hc]
      _ = X (a + b + c + d) := by rw [← map_add, add_assoc (a + b)]
      _ = 0 := by rw [hsum, map_zero]
  have hab : a + b = 0 := by
    calc a + b = X (a + b) + X (b + c) := by rw [← ha, ← hb]
      _ = X (a + c) := by rw [← map_add, add_assoc, hcancel]
      _ = 0 := by rw [hac, map_zero]
  have hazero : a = 0 := by rw [ha, hab, map_zero]
  rw [hazero, zero_add] at hab hac
  rw [hazero, hab, hac, zero_add, zero_add, zero_add] at hsum
  exact ⟨hazero, hab, hac, hsum⟩

/-- Two elements in turn are told by what the circulant makes of them. -/
theorem circulant_pair (X : V →+ V) {p q p' q' : V}
    (h₀ : X p + (X q + q) + p + q = X p' + (X q' + q') + p' + q')
    (h₁ : X q + (X p + p) + q + p = X q' + (X p' + p') + q' + p') : p = p' ∧ q = q' := by
  have hcancel := add_self_add two
  have hfirst : ∀ p q : V, X p + (X q + q) + p + q = X (p + q) + p := by
    intro p q
    simp [add_comm, add_left_comm, hcancel]
  rw [hfirst, hfirst] at h₀
  rw [hfirst, hfirst, add_comm q, add_comm q'] at h₁
  have hsum : p + q = p' + q' := by
    have := congrArg₂ (· + ·) h₀ h₁
    simpa [add_assoc, add_comm, add_left_comm, two, hcancel] using this
  rw [hsum] at h₀ h₁
  exact ⟨add_left_cancel h₀, add_left_cancel h₁⟩

end

/-! ### Bytes -/

/-- The bits are the coefficients of a polynomial. -/
@[ext] structure Byte where
  bits : BitVec 8
  deriving DecidableEq, Repr

namespace Byte

/-- The zero polynomial. -/
instance : Zero Byte := ⟨⟨0⟩⟩

/-- Coefficients are added modulo two. -/
instance : Add Byte := ⟨fun a b => ⟨a.bits ^^^ b.bits⟩⟩

/-- Every byte is its own opposite. -/
instance : Neg Byte := ⟨id⟩

@[simp] theorem bits_zero : (0 : Byte).bits = 0#8 := rfl
@[simp] theorem bits_add (a b : Byte) : (a + b).bits = a.bits ^^^ b.bits := rfl

theorem add_self (a : Byte) : a + a = 0 := by
  ext1
  simp

/-- The laws are those of exclusive or. -/
instance : AddCommGroup Byte where
  add_assoc a b c := by
    ext1
    exact BitVec.xor_assoc ..
  zero_add a := by
    ext1
    simp
  add_zero a := by
    ext1
    simp
  add_comm a b := by
    ext1
    exact BitVec.xor_comm ..
  neg_add_cancel a := add_self a
  nsmul := nsmulRec
  zsmul := zsmulRec

end Byte

/-- Multiplication by `x`. -/
def xtime : Byte →+ Byte where
  toFun b := ⟨(b.bits <<< 1) ^^^ (if b.bits.msb then 0x1b#8 else 0#8)⟩
  map_zero' := rfl
  map_add' a b := by
    ext1
    have hreduce : (if (a.bits ^^^ b.bits).msb then 0x1b#8 else 0#8)
        = (if a.bits.msb then 0x1b#8 else 0#8) ^^^ (if b.bits.msb then 0x1b#8 else 0#8) := by
      rw [BitVec.msb_xor]
      cases a.bits.msb <;> cases b.bits.msb <;> rfl
    simp only [Byte.bits_add, hreduce, BitVec.shiftLeft_xor_distrib]
    ac_rfl

/-- At a byte, an affine image of its inverse. -/
def sbox : List Nat :=
  [
    0x63, 0x7c, 0x77, 0x7b, 0xf2, 0x6b, 0x6f, 0xc5, 0x30, 0x01, 0x67, 0x2b, 0xfe, 0xd7, 0xab, 0x76,
    0xca, 0x82, 0xc9, 0x7d, 0xfa, 0x59, 0x47, 0xf0, 0xad, 0xd4, 0xa2, 0xaf, 0x9c, 0xa4, 0x72, 0xc0,
    0xb7, 0xfd, 0x93, 0x26, 0x36, 0x3f, 0xf7, 0xcc, 0x34, 0xa5, 0xe5, 0xf1, 0x71, 0xd8, 0x31, 0x15,
    0x04, 0xc7, 0x23, 0xc3, 0x18, 0x96, 0x05, 0x9a, 0x07, 0x12, 0x80, 0xe2, 0xeb, 0x27, 0xb2, 0x75,
    0x09, 0x83, 0x2c, 0x1a, 0x1b, 0x6e, 0x5a, 0xa0, 0x52, 0x3b, 0xd6, 0xb3, 0x29, 0xe3, 0x2f, 0x84,
    0x53, 0xd1, 0x00, 0xed, 0x20, 0xfc, 0xb1, 0x5b, 0x6a, 0xcb, 0xbe, 0x39, 0x4a, 0x4c, 0x58, 0xcf,
    0xd0, 0xef, 0xaa, 0xfb, 0x43, 0x4d, 0x33, 0x85, 0x45, 0xf9, 0x02, 0x7f, 0x50, 0x3c, 0x9f, 0xa8,
    0x51, 0xa3, 0x40, 0x8f, 0x92, 0x9d, 0x38, 0xf5, 0xbc, 0xb6, 0xda, 0x21, 0x10, 0xff, 0xf3, 0xd2,
    0xcd, 0x0c, 0x13, 0xec, 0x5f, 0x97, 0x44, 0x17, 0xc4, 0xa7, 0x7e, 0x3d, 0x64, 0x5d, 0x19, 0x73,
    0x60, 0x81, 0x4f, 0xdc, 0x22, 0x2a, 0x90, 0x88, 0x46, 0xee, 0xb8, 0x14, 0xde, 0x5e, 0x0b, 0xdb,
    0xe0, 0x32, 0x3a, 0x0a, 0x49, 0x06, 0x24, 0x5c, 0xc2, 0xd3, 0xac, 0x62, 0x91, 0x95, 0xe4, 0x79,
    0xe7, 0xc8, 0x37, 0x6d, 0x8d, 0xd5, 0x4e, 0xa9, 0x6c, 0x56, 0xf4, 0xea, 0x65, 0x7a, 0xae, 0x08,
    0xba, 0x78, 0x25, 0x2e, 0x1c, 0xa6, 0xb4, 0xc6, 0xe8, 0xdd, 0x74, 0x1f, 0x4b, 0xbd, 0x8b, 0x8a,
    0x70, 0x3e, 0xb5, 0x66, 0x48, 0x03, 0xf6, 0x0e, 0x61, 0x35, 0x57, 0xb9, 0x86, 0xc1, 0x1d, 0x9e,
    0xe1, 0xf8, 0x98, 0x11, 0x69, 0xd9, 0x8e, 0x94, 0x9b, 0x1e, 0x87, 0xe9, 0xce, 0x55, 0x28, 0xdf,
    0x8c, 0xa1, 0x89, 0x0d, 0xbf, 0xe6, 0x42, 0x68, 0x41, 0x99, 0x2d, 0x0f, 0xb0, 0x54, 0xbb, 0x16]

/-- A byte is looked up in the table. -/
def subByte (b : Byte) : Byte := ⟨BitVec.ofNat 8 (sbox.getD b.bits.toNat 0)⟩

/-- No number occurs twice. -/
def distinct : List Nat → Bool
  | [] => true
  | n :: ns => ns.all (fun m => !n.beq m) && distinct ns

theorem nodup_of_distinct {ns : List Nat} (h : distinct ns = true) : ns.Nodup := by
  induction ns with
  | nil => exact List.nodup_nil
  | cons n ns ih =>
      obtain ⟨hhead, htail⟩ := (Bool.and_eq_true _ _).mp h
      refine List.nodup_cons.mpr ⟨fun hmem => ?_, ih htail⟩
      have := List.all_eq_true.mp hhead n hmem
      simp at this

theorem length_sbox : sbox.length = 256 := by decide +kernel

theorem sbox_lt : ∀ n ∈ sbox, n < 256 := by decide +kernel

theorem sbox_nodup : sbox.Nodup := nodup_of_distinct (by decide +kernel)

theorem subByte_injective : Function.Injective subByte := by
  intro a b hab
  have hlt : ∀ b : Byte, b.bits.toNat < sbox.length := fun b => length_sbox ▸ b.bits.isLt
  have hbits := congrArg (fun b => b.bits.toNat) hab
  simp only [subByte, List.getD_eq_getElem?_getD, List.getElem?_eq_getElem (hlt a),
    List.getElem?_eq_getElem (hlt b), Option.getD_some, BitVec.toNat_ofNat] at hbits
  rw [Nat.mod_eq_of_lt (sbox_lt _ (List.getElem_mem _)),
    Nat.mod_eq_of_lt (sbox_lt _ (List.getElem_mem _))] at hbits
  ext1
  exact BitVec.eq_of_toNat_eq (sbox_nodup.getElem_inj_iff.mp hbits)

/-! ### A round -/

/-- Four bytes, from row `0` down. -/
abbrev Column := Fin 4 → Byte

/-- By rows, then columns. -/
abbrev State := Fin 4 → Column

/-- The bytes of a state in their order, which is down the columns. -/
def byte (s : State) (i : Nat) : Byte := s (Fin.ofNat 4 i) (Fin.ofNat 4 (i / 4))

theorem byte_at (s : State) (r c : Fin 4) : byte s (r + 4 * c) = s r c := by
  have hrow : Fin.ofNat 4 (r + 4 * c) = r := by
    ext
    rw [Fin.val_ofNat]
    omega
  have hcol : Fin.ofNat 4 ((r + 4 * c : Nat) / 4) = c := by
    ext
    rw [Fin.val_ofNat]
    omega
  rw [byte, hrow, hcol]

/-- Row `r` is rotated by `r` columns. -/
def shiftRows (s : State) : State := fun r c => s r (c + r)

/-- Every byte by itself. -/
def subBytes (s : State) : State := fun r c => subByte (s r c)

/-- The coefficients are `2`, `3`, `1` and `1`. -/
def mixColumn (a : Column) : Column := fun r =>
  xtime (a r) + (xtime (a (r + 1)) + a (r + 1)) + a (r + 2) + a (r + 3)

/-- Every column by itself. -/
def mixColumns (s : State) : State := fun r c => mixColumn (fun i => s i c) r

/-- A round without its key. -/
def round (s : State) : State := mixColumns (subBytes (shiftRows s))

/-- A round with its key, as the instruction has it. -/
def aesenc (s key : State) : State := fun r c => round s r c + key r c

/-- Mixing has an inverse, which is written down and multiplied out. -/
theorem mixColumn_injective : Function.Injective mixColumn := by
  intro a b hab
  have two := Byte.add_self
  -- The column of differences is taken to zero.
  have hdiff : ∀ r, mixColumn (fun i => a i + b i) r = 0 := by
    intro r
    have hsum : mixColumn a r + mixColumn b r = 0 := by rw [hab, two]
    rw [← hsum]
    simp only [mixColumn, map_add]
    abel
  obtain ⟨h₀, h₁, h₂, h₃⟩ := circulant_eq_zero two xtime (hdiff 0) (hdiff 1) (hdiff 2) (hdiff 3)
  funext r
  fin_cases r
  · exact eq_of_add_eq_zero two h₀
  · exact eq_of_add_eq_zero two h₁
  · exact eq_of_add_eq_zero two h₂
  · exact eq_of_add_eq_zero two h₃

variable {s t : State}

/-- **A column of the result tells a diagonal of the state.** -/
theorem round_column {c : Fin 4} (h : ∀ r, round s r c = round t r c) (r : Fin 4) :
    s r (c + r) = t r (c + r) := by
  have hcolumn : (fun i => subBytes (shiftRows s) i c) = fun i => subBytes (shiftRows t) i c :=
    mixColumn_injective (funext h)
  exact subByte_injective (congrFun hcolumn r)

/-- A state that repeats after two columns still does after a round. -/
theorem round_period (h : ∀ r c, s r (c + 2) = s r c) (r c : Fin 4) :
    round s r (c + 2) = round s r c := by
  have hcolumn : (fun i => subBytes (shiftRows s) i (c + 2))
      = fun i => subBytes (shiftRows s) i c := by
    funext i
    unfold subBytes shiftRows
    rw [show c + 2 + i = c + i + 2 by omega, h]
  unfold round mixColumns
  rw [hcolumn]

end Rijndael
