import Mathlib.Data.List.Basic

/-!
# Vectors of bounded capacity

A vector holds its elements inline and never more of them than its capacity; the bound is a field
of the vector.  Pushing an element reports whether there was room for it.
-/

universe u

/-- A vector of at most `capacity` elements. -/
structure ArrayVec (α : Type u) (capacity : ℕ) where
  toList : List α
  length_le : toList.length ≤ capacity

namespace ArrayVec

variable {α : Type u} {capacity : ℕ}

/-- The empty vector. -/
def empty (α : Type u) (capacity : ℕ) : ArrayVec α capacity where
  toList := []
  length_le := Nat.zero_le _

/-- The vector with an element appended, and whether there was room for it. -/
def tryPush (v : ArrayVec α capacity) (x : α) : ArrayVec α capacity × Bool :=
  if h : v.toList.length < capacity then
    (⟨v.toList ++ [x], by rw [List.length_append]; exact h⟩, true)
  else (v, false)

/-- The vector without its first element. -/
def tail (v : ArrayVec α capacity) : ArrayVec α capacity where
  toList := v.toList.tail
  length_le := by
    rw [List.length_tail]
    apply Nat.le_trans (Nat.sub_le _ _) v.length_le

theorem tryPush_of_lt {v : ArrayVec α capacity} (h : v.toList.length < capacity) (x : α) :
  (v.tryPush x).1.toList = v.toList ++ [x] ∧ (v.tryPush x).2 = true
  := by simp [tryPush, h]

end ArrayVec
