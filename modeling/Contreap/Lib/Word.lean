/-
The order on machine words.

Core Lean gives `UInt64` its order and its arithmetic but not Mathlib's bundled
`LinearOrder`, which the tree library asks for.
-/
import Mathlib.Data.UInt
import Mathlib.Order.Defs.LinearOrder
import Mathlib.Algebra.BigOperators.Group.List.Basic

/-- Core's order, bundled. -/
instance UInt64.linearOrder : LinearOrder UInt64 where
  le_refl := UInt64.le_refl
  le_trans _ _ _ := UInt64.le_trans
  lt_iff_le_not_ge a b := by
    simp only [UInt64.lt_iff_toNat_lt, UInt64.le_iff_toNat_le]
    omega
  le_antisymm _ _ := UInt64.le_antisymm
  le_total := UInt64.le_total
  toDecidableLE := inferInstance
  toDecidableLT := inferInstance
  toDecidableEq := inferInstance

/-- By equality of words. -/
instance UInt64.decidableMem (a : UInt64) (l : List UInt64) : Decidable (a ∈ l) := inferInstance
