import Mathlib.Data.UInt

/-!
# Saturating arithmetic

Sums, differences and products of 64-bit words that stop at the largest and the smallest word
where the natural numbers would leave their range.
-/

namespace Saturating

/-- The largest 64-bit word. -/
def maxWord : UInt64 := 0xFFFFFFFFFFFFFFFF

/-- The sum of two words, or the largest word if the sum exceeds it. -/
def add (a b : UInt64) : UInt64 :=
  if a.toNat + b.toNat < 2 ^ 64 then a + b else maxWord

/-- The product of two words, or the largest word if the product exceeds it. -/
def mul (a b : UInt64) : UInt64 :=
  if a.toNat * b.toNat < 2 ^ 64 then a * b else maxWord

/-- The difference of two words, or zero if it is negative. -/
def sub (a b : UInt64) : UInt64 :=
  if b ≤ a then a - b else 0

theorem toNat_add (a b : UInt64) :
  (add a b).toNat = min (a.toNat + b.toNat) (2 ^ 64 - 1)
  := by
  rw [add]
  split
  · rw [UInt64.toNat_add]
    omega
  · have hmax : maxWord.toNat = 2 ^ 64 - 1 := rfl
    rw [hmax]
    omega

theorem toNat_mul (a b : UInt64) :
  (mul a b).toNat = min (a.toNat * b.toNat) (2 ^ 64 - 1)
  := by
  rw [mul]
  split
  · rename_i h
    rw [UInt64.toNat_mul, Nat.mod_eq_of_lt h]
    omega
  · have hmax : maxWord.toNat = 2 ^ 64 - 1 := rfl
    rw [hmax]
    omega

theorem toNat_sub (a b : UInt64) :
  (sub a b).toNat = a.toNat - b.toNat
  := by
  rw [sub]
  split
  · rename_i h
    apply UInt64.toNat_sub_of_le _ _ h
  · rename_i h
    rw [UInt64.le_iff_toNat_le] at h
    have hzero : (0 : UInt64).toNat = 0 := rfl
    omega

@[simp]
theorem sub_zero (a : UInt64) :
  sub a 0 = a
  := by
  apply UInt64.toNat_inj.mp
  rw [toNat_sub]
  rfl

/-- Adding one to a word that is not the largest is exact. -/
theorem toNat_add_one {a : UInt64} (h : a.toNat < 2 ^ 64 - 1) :
  (add a 1).toNat = a.toNat + 1
  := by
  rw [toNat_add]
  have hone : (1 : UInt64).toNat = 1 := rfl
  omega

end Saturating
