import Mathlib.Order.Lattice
import Mathlib.Data.List.Basic

/-!
# Ratchets

A ratchet passes over a list once and keeps an element exactly if its key is at least the key of the
last element kept.  `Ratchet.keep` is the list of elements kept and `Ratchet.level` the key of the
last of them.  Both are determined by any way of cutting the list in two (`keep_append`,
`level_append`).  The keys of the elements kept are sorted (`keep_sorted`), and all elements are
kept exactly if all keys were sorted to begin with (`keep_eq_self_iff`).  If no element has more
than `m` elements with smaller keys after it, at least one element in `m + 1` is kept
(`Bounded.length_le`).
-/

universe u v

namespace Ratchet

variable {α : Type u} {κ : Type v} [LinearOrder κ] (key : α → κ)

/-- The elements a ratchet at level `l` keeps. -/
def keep : κ → List α → List α
  | _, [] => []
  | l, x :: xs => if l ≤ key x then x :: keep (key x) xs else keep l xs

/-- The level a ratchet at level `l` ends at. -/
def level : κ → List α → κ
  | l, [] => l
  | l, x :: xs => if l ≤ key x then level (key x) xs else level l xs

variable {key}

theorem keep_cons_of_le {l : κ} {x : α} (h : l ≤ key x) (xs : List α) :
  keep key l (x :: xs) = x :: keep key (key x) xs
  := if_pos h

theorem keep_cons_of_lt {l : κ} {x : α} (h : key x < l) (xs : List α) :
  keep key l (x :: xs) = keep key l xs
  := if_neg (not_le_of_gt h)

theorem level_cons_of_le {l : κ} {x : α} (h : l ≤ key x) (xs : List α) :
  level key l (x :: xs) = level key (key x) xs
  := if_pos h

theorem level_cons_of_lt {l : κ} {x : α} (h : key x < l) (xs : List α) :
  level key l (x :: xs) = level key l xs
  := if_neg (not_le_of_gt h)

/-- What is kept of `xs ++ ys` is what is kept of `xs` and then, from the level reached, what is
kept of `ys`. -/
theorem keep_append (l : κ) (xs ys : List α) :
  keep key l (xs ++ ys) = keep key l xs ++ keep key (level key l xs) ys
  := by
  induction xs generalizing l with
  | nil => rfl
  | cons x xs ih =>
      rcases le_or_gt l (key x) with h | h
      · rw [List.cons_append, keep_cons_of_le h, keep_cons_of_le h, level_cons_of_le h, ih,
          List.cons_append]
      · rw [List.cons_append, keep_cons_of_lt h, keep_cons_of_lt h, level_cons_of_lt h, ih]

theorem level_append (l : κ) (xs ys : List α) :
  level key l (xs ++ ys) = level key (level key l xs) ys
  := by
  induction xs generalizing l with
  | nil => rfl
  | cons x xs ih =>
      rcases le_or_gt l (key x) with h | h
      · rw [List.cons_append, level_cons_of_le h, level_cons_of_le h, ih]
      · rw [List.cons_append, level_cons_of_lt h, level_cons_of_lt h, ih]

/-- A ratchet keeps one more element at or above its level, and moves to it. -/
theorem concat_of_le {l : κ} {xs : List α} {x : α} (h : level key l xs ≤ key x) :
  keep key l (xs ++ [x]) = keep key l xs ++ [x] ∧ level key l (xs ++ [x]) = key x
  := by
  rw [keep_append, level_append, keep_cons_of_le h, level_cons_of_le h]
  exact ⟨rfl, rfl⟩

/-- A ratchet drops one more element below its level, and stays. -/
theorem concat_of_lt {l : κ} {xs : List α} {x : α} (h : key x < level key l xs) :
  keep key l (xs ++ [x]) = keep key l xs ∧ level key l (xs ++ [x]) = level key l xs
  := by
  rw [keep_append, level_append, keep_cons_of_lt h, level_cons_of_lt h]
  exact ⟨List.append_nil _, rfl⟩

theorem keep_sublist (l : κ) (xs : List α) :
  (keep key l xs).Sublist xs
  := by
  induction xs generalizing l with
  | nil => apply List.Sublist.refl
  | cons x xs ih =>
      rcases le_or_gt l (key x) with h | h
      · rw [keep_cons_of_le h]
        apply List.Sublist.cons_cons
        apply ih
      · rw [keep_cons_of_lt h]
        apply List.Sublist.cons
        apply ih

/-- The elements kept have keys at or above the initial level. -/
theorem le_key_of_mem_keep {l : κ} {xs : List α} {x : α} (hx : x ∈ keep key l xs) :
  l ≤ key x
  := by
  induction xs generalizing l with
  | nil => cases hx
  | cons y xs ih =>
      rcases le_or_gt l (key y) with h | h
      · rw [keep_cons_of_le h, List.mem_cons] at hx
        rcases hx with rfl | hx
        · apply h
        · apply le_trans h (ih hx)
      · rw [keep_cons_of_lt h] at hx
        apply ih hx

/-- The keys of the elements kept are sorted. -/
theorem keep_sorted (l : κ) (xs : List α) :
  (keep key l xs).Pairwise fun x y => key x ≤ key y
  := by
  induction xs generalizing l with
  | nil => apply List.Pairwise.nil
  | cons x xs ih =>
      rcases le_or_gt l (key x) with h | h
      · rw [keep_cons_of_le h]
        apply List.Pairwise.cons
        · intro y hy
          apply le_key_of_mem_keep hy
        · apply ih
      · rw [keep_cons_of_lt h]
        apply ih

/-- All elements are kept exactly if their keys are sorted and at or above the initial level. -/
theorem keep_eq_self_iff (l : κ) (xs : List α) :
  keep key l xs = xs ↔ (∀ x ∈ xs, l ≤ key x) ∧ xs.Pairwise fun x y => key x ≤ key y
  := by
  constructor
  · intro h
    rw [← h]
    constructor
    · intro x hx
      apply le_key_of_mem_keep hx
    · apply keep_sorted
  · rintro ⟨hle, hsorted⟩
    induction xs generalizing l with
    | nil => rfl
    | cons x xs ih =>
        obtain ⟨hx, hxs⟩ := List.pairwise_cons.mp hsorted
        rw [keep_cons_of_le (hle x List.mem_cons_self), ih (key x) hx hxs]

/-- As many elements are kept as there are exactly if all of them are kept. -/
theorem length_keep_eq_iff (l : κ) (xs : List α) :
  (keep key l xs).length = xs.length ↔ keep key l xs = xs
  := by
  constructor
  · intro h
    apply (keep_sublist l xs).eq_of_length h
  · intro h
    rw [h]

/-- The level is the initial one, or the key of an element. -/
theorem level_eq_or_exists (l : κ) (xs : List α) :
  level key l xs = l ∨ ∃ x ∈ xs, key x = level key l xs
  := by
  induction xs generalizing l with
  | nil =>
      left
      rfl
  | cons x xs ih =>
      rcases le_or_gt l (key x) with h | h
      · right
        rw [level_cons_of_le h]
        rcases ih (key x) with hlevel | ⟨y, hy, hkey⟩
        · exact ⟨x, List.mem_cons_self, hlevel.symm⟩
        · exact ⟨y, List.mem_cons_of_mem x hy, hkey⟩
      · rw [level_cons_of_lt h]
        apply (ih l).imp_right
        rintro ⟨y, hy, hkey⟩
        exact ⟨y, List.mem_cons_of_mem x hy, hkey⟩

theorem le_level (l : κ) (xs : List α) :
  l ≤ level key l xs
  := by
  induction xs generalizing l with
  | nil => apply le_rfl
  | cons x xs ih =>
      rcases le_or_gt l (key x) with h | h
      · rw [level_cons_of_le h]
        apply le_trans h (ih (key x))
      · rw [level_cons_of_lt h]
        apply ih

/-- No element has a key above the level reached, be it kept or not. -/
theorem key_le_level {l : κ} {xs : List α} {x : α} (hx : x ∈ xs) :
  key x ≤ level key l xs
  := by
  induction xs generalizing l with
  | nil => cases hx
  | cons y xs ih =>
      rcases le_or_gt l (key y) with h | h
      · rw [level_cons_of_le h]
        rcases List.mem_cons.mp hx with rfl | hx
        · apply le_level
        · apply ih hx
      · rw [level_cons_of_lt h]
        rcases List.mem_cons.mp hx with rfl | hx
        · apply le_trans h.le (le_level l xs)
        · apply ih hx

/-! ### How many elements are kept -/

variable (key) in
/-- No element has more than `m` elements with smaller keys after it. -/
def Bounded (m : ℕ) (xs : List α) : Prop :=
  ∀ pre x post, xs = pre ++ x :: post → post.countP (fun y => key y < key x) ≤ m

theorem Bounded.of_append {m : ℕ} {xs ys : List α} (h : Bounded key m (xs ++ ys)) :
  Bounded key m xs
  := by
  rintro pre x post rfl
  have hle := h pre x (post ++ ys) (by simp)
  rw [List.countP_append] at hle
  omega

theorem Bounded.tail {m : ℕ} {x : α} {xs : List α} (h : Bounded key m (x :: xs)) :
  Bounded key m xs
  := by
  rintro pre y post rfl
  apply h (x :: pre) y post rfl

/-- A ratchet drops no more elements than those below its level, and `m` for each it keeps. -/
theorem Bounded.length_le {m b : ℕ} {l : κ} {xs : List α} (h : Bounded key m xs)
    (hb : xs.countP (fun x => key x < l) ≤ b) :
  xs.length ≤ b + (m + 1) * (keep key l xs).length
  := by
  induction xs generalizing l b with
  | nil => apply Nat.zero_le
  | cons x xs ih =>
      rcases le_or_gt l (key x) with hle | hlt
      · have hrest := ih h.tail (h [] x xs rfl)
        rw [keep_cons_of_le hle, List.length_cons, List.length_cons, Nat.mul_succ]
        omega
      · have hcount : (x :: xs).countP (fun y => key y < l)
            = xs.countP (fun y => key y < l) + 1 :=
          List.countP_cons_of_pos (decide_eq_true hlt)
        rw [hcount] at hb
        have hrest := ih h.tail (Nat.le_sub_one_of_lt hb)
        rw [keep_cons_of_lt hlt, List.length_cons]
        omega

end Ratchet
