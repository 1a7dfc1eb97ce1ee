import Mathlib.Data.List.Basic

/-!
# Numbered lists

A list is numbered if its elements carry the numbers 0, 1, 2, … in order.  The number of an
element is then the number of elements before it (`number_eq`), so the elements with the numbers
between those of two given elements are exactly the elements between them (`number_gap`), and every
number below the length is carried once (`countP_lt`).
-/

universe u

/-- The elements of a list carry the numbers 0, 1, 2, … in order. -/
def Numbered {α : Type u} (number : α → ℕ) (xs : List α) : Prop :=
  xs.map number = List.range xs.length

namespace Numbered

variable {α : Type u} {number : α → ℕ} {xs pre mid post : List α} {x y : α}

theorem nil (number : α → ℕ) :
  Numbered number []
  := rfl

/-- A numbered list is extended by an element that carries its length. -/
theorem concat (h : Numbered number xs) (hx : number x = xs.length) :
  Numbered number (xs ++ [x])
  := by
  rw [Numbered, List.map_append, h, List.length_append, List.length_singleton, List.range_succ,
    List.map_singleton, hx]

/-- The number of an element is the number of elements before it. -/
theorem number_eq (h : Numbered number (pre ++ x :: post)) :
  number x = pre.length
  := by
  have hget := congrArg (fun l => l[pre.length]?) h
  simp only [List.map_append, List.map_cons, List.length_append, List.length_cons] at hget
  have hle : (pre.map number).length ≤ pre.length := Nat.le_of_eq (List.length_map number)
  rw [List.getElem?_append_right hle, List.length_map, Nat.sub_self, List.getElem?_cons_zero,
    List.getElem?_range (by omega)] at hget
  apply Option.some.inj hget

/-- The number of an element is its index. -/
theorem number_getElem? (h : Numbered number xs) {i : ℕ} (hi : xs[i]? = some x) :
  number x = i
  := by
  have hget := congrArg (fun l => l[i]?) h
  simp only [List.getElem?_map, hi, Option.map_some] at hget
  rw [List.getElem?_range (List.getElem?_eq_some_iff.mp hi).1] at hget
  apply Option.some.inj hget

/-- Between two elements lie as many others as their numbers tell. -/
theorem number_gap (h : Numbered number (pre ++ x :: (mid ++ y :: post))) :
  number y = number x + 1 + mid.length
  := by
  have hx : number x = pre.length := h.number_eq
  rw [← List.cons_append, ← List.append_assoc] at h
  rw [h.number_eq, hx, List.length_append, List.length_cons]
  omega

/-- The numbers of a list are below its length. -/
theorem number_lt (h : Numbered number xs) (hx : x ∈ xs) :
  number x < xs.length
  := by
  apply List.mem_range.mp
  rw [← h]
  apply List.mem_map_of_mem hx

/-- A numbered list has `n` elements with numbers below `n`, up to its length. -/
theorem countP_lt (h : Numbered number xs) {n : ℕ} (hn : n ≤ xs.length) :
  xs.countP (fun x => number x < n) = n
  := by
  have hmap : xs.countP (fun x => number x < n) = (List.range xs.length).countP (· < n) := by
    rw [← h, List.countP_map]
    rfl
  have hrange : (List.range xs.length).countP (· < n) = n := by
    obtain ⟨m, hm⟩ := Nat.exists_eq_add_of_le hn
    rw [hm, List.range_add, List.countP_append, List.countP_eq_length.mpr (by simp),
      List.countP_eq_zero.mpr (by simp), List.length_range]
    rfl
  rw [hmap, hrange]

/-- The numbers of a list increase strictly. -/
theorem pairwise (h : Numbered number xs) :
  xs.Pairwise fun x y => number x < number y
  := by
  apply List.pairwise_map.mp
  rw [h]
  apply List.pairwise_lt_range

end Numbered
