import Mathlib.Algebra.Order.Ring.Nat
import Mathlib.Tactic.Ring

/-! The bytes of a word, the lowest first. -/

namespace Kiznix.WordBytes

/-- Byte `k` of a word. -/
def byteOf (w k : Nat) : Nat := w / 256 ^ k % 256

/-- The word with another byte `k`. -/
def setByte (w k v : Nat) : Nat := w / 256 ^ (k + 1) * 256 ^ (k + 1) + (v * 256 ^ k + w % 256 ^ k)

variable {w v j k : Nat}

theorem byteOf_zero : byteOf 0 k = 0 := by
  rw [byteOf, Nat.zero_div, Nat.zero_mod]

/-- A byte depends only on the word's lower part. -/
theorem byteOf_mod (h : j < k) : byteOf (w % 256 ^ k) j = byteOf w j := by
  obtain ⟨m, rfl⟩ : ∃ m, k = j + (m + 1) := ⟨k - j - 1, by omega⟩
  rw [byteOf, byteOf, Nat.pow_add, Nat.mod_mul_right_div_self, Nat.pow_succ]
  exact Nat.mod_mod_of_dvd _ (Nat.dvd_mul_left _ _)

/-- Or on its upper part. -/
theorem byteOf_div (h : k ≤ j) : byteOf (w / 256 ^ k) (j - k) = byteOf w j := by
  rw [byteOf, byteOf, Nat.div_div_eq_div_mul, ← Nat.pow_add, Nat.add_sub_of_le h]

section SetByte

variable (hv : v < 256)

include hv

theorem low_lt : v * 256 ^ k + w % 256 ^ k < 256 ^ (k + 1) := by
  have hmod : w % 256 ^ k < 256 ^ k := Nat.mod_lt _ (Nat.pow_pos (by decide))
  have hle : v * 256 ^ k ≤ 255 * 256 ^ k := Nat.mul_le_mul_right _ (by omega)
  rw [Nat.pow_succ]
  omega

theorem byteOf_setByte_same : byteOf (setByte w k v) k = v := by
  have hpos : 0 < 256 ^ k := Nat.pow_pos (by decide)
  have hmod : w % 256 ^ k < 256 ^ k := Nat.mod_lt _ hpos
  have hword : setByte w k v = w % 256 ^ k + 256 ^ k * (w / 256 ^ (k + 1) * 256 + v) := by
    rw [setByte, Nat.pow_succ]
    ring
  rw [byteOf, hword, Nat.add_mul_div_left _ _ hpos, Nat.div_eq_of_lt hmod, Nat.zero_add, Nat.mul_comm _ 256,
    Nat.mul_add_mod, Nat.mod_eq_of_lt hv]

theorem byteOf_setByte_of_ne (hne : j ≠ k) : byteOf (setByte w k v) j = byteOf w j := by
  have hpos : 0 < 256 ^ (k + 1) := Nat.pow_pos (by decide)
  rcases Nat.lt_or_gt_of_ne hne with hlt | hgt
  · -- The part below byte `k` is the same.
    have hlow : setByte w k v % 256 ^ k = w % 256 ^ k := by
      have hword : setByte w k v = w % 256 ^ k + 256 ^ k * (w / 256 ^ (k + 1) * 256 + v) := by
        rw [setByte, Nat.pow_succ]
        ring
      rw [hword, Nat.add_mul_mod_self_left, Nat.mod_mod]
    rw [← byteOf_mod hlt, hlow, byteOf_mod hlt]
  · have hhigh : setByte w k v / 256 ^ (k + 1) = w / 256 ^ (k + 1) := by
      rw [setByte, Nat.mul_comm, Nat.mul_add_div hpos, Nat.div_eq_of_lt (low_lt hv), Nat.add_zero]
    rw [← byteOf_div (w := setByte w k v) (Nat.succ_le_of_lt hgt), hhigh, byteOf_div (Nat.succ_le_of_lt hgt)]

end SetByte

end Kiznix.WordBytes
