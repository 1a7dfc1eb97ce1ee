import Mathlib.Data.BitVec
import Mathlib.Data.Fintype.EquivFin

/-!
# Mixing steps of hash functions

The steps hash functions are made of lose nothing: on words of any width, combining with a fixed
word, multiplying by a word that has an inverse, rotating, and combining a word with a shift of
itself are bijections.
-/

open Function

namespace Mixing

variable {w : ℕ}

/-- There are finitely many words of a width. -/
instance finite_bitVec : Finite (BitVec w) :=
  Finite.of_injective BitVec.toFin BitVec.toFin_injective

/-- Combining with a word twice changes nothing. -/
theorem xor_bijective (k : BitVec w) :
  Bijective fun x => x ^^^ k
  := by
  apply Involutive.bijective
  intro x
  change x ^^^ k ^^^ k = x
  rw [BitVec.xor_assoc, BitVec.xor_self, BitVec.xor_zero]

theorem add_bijective (k : BitVec w) :
  Bijective fun x => x + k
  := (Equiv.addRight k).bijective

/-- Multiplication by a word is undone by multiplication by its inverse. -/
theorem mul_bijective {c d : BitVec w} (h : c * d = 1) :
  Bijective fun x => x * c
  := by
  apply Finite.injective_iff_bijective.mp
  apply LeftInverse.injective (g := fun x => x * d)
  intro x
  change x * c * d = x
  rw [mul_assoc, h, mul_one]

/-- A rotation moves the bit at position `i` to position `i + r`, modulo the width. -/
theorem getLsbD_rotateLeft_add (x : BitVec w) (r : ℕ) {i : ℕ} (hi : i < w) :
  (x.rotateLeft r).getLsbD ((i + r) % w) = x.getLsbD i
  := by
  have hr : r % w < w := Nat.mod_lt _ (by omega)
  rw [BitVec.getLsbD_rotateLeft, ← Nat.add_mod_mod]
  rcases lt_or_ge (i + r % w) w with hlt | hge
  · have hnot : decide (i + r % w < r % w) = false := decide_eq_false (by omega)
    rw [Nat.mod_eq_of_lt hlt, hnot, cond_false, decide_eq_true hlt, Bool.true_and,
      Nat.add_sub_cancel]
  · have hlow : decide (i + r % w - w < r % w) = true := decide_eq_true (by omega)
    rw [Nat.mod_eq_sub_mod hge, Nat.mod_eq_of_lt (by omega), hlow, cond_true]
    congr 1
    omega

theorem rotateLeft_bijective (r : ℕ) :
  Bijective fun x : BitVec w => x.rotateLeft r
  := by
  apply Finite.injective_iff_bijective.mp
  intro x y h
  apply BitVec.eq_of_getLsbD_eq
  intro i hi
  rw [← getLsbD_rotateLeft_add x r hi, ← getLsbD_rotateLeft_add y r hi]
  exact congrArg (fun z => z.getLsbD ((i + r) % w)) h

/-- If two words agree after each is combined with its own shift, their bits agree from the top
down: a bit is determined by the combination and a bit above it. -/
theorem xorShift_bijective {n : ℕ} (hn : 0 < n) :
  Bijective fun x : BitVec w => x ^^^ (x >>> n)
  := by
  apply Finite.injective_iff_bijective.mp
  intro x y h
  have hbit (i : ℕ) : (x.getLsbD i ^^ x.getLsbD (n + i)) = (y.getLsbD i ^^ y.getLsbD (n + i)) := by
    have hi := congrArg (fun z => z.getLsbD i) h
    simpa only [BitVec.getLsbD_xor, BitVec.getLsbD_ushiftRight] using hi
  have htop (k : ℕ) : ∀ i, w ≤ i + k → x.getLsbD i = y.getLsbD i := by
    induction k with
    | zero =>
        intro i hi
        rw [BitVec.getLsbD_of_ge x i hi, BitVec.getLsbD_of_ge y i hi]
    | succ k ih =>
        intro i hi
        have habove : x.getLsbD (n + i) = y.getLsbD (n + i) := ih (n + i) (by omega)
        have hi := hbit i
        rw [habove] at hi
        apply Bool.xor_left_inj.mp hi
  apply BitVec.eq_of_getLsbD_eq
  intro i _
  apply htop w i (Nat.le_add_left w i)

end Mixing
