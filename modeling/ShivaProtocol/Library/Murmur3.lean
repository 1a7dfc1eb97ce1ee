import ShivaProtocol.Library.Bytes
import ShivaProtocol.Library.Mixing

/-!
# MurmurHash3 for 32 bits

The reference algorithm on byte lists of any length: a loop over blocks of four bytes, each read
as a little-endian word, then a tail of one to three bytes, the length, and the finalizer.  Every
step of it is a bijection in the hash state, and in the word it mixes in.
-/

open Bytes Function

namespace Murmur3

def c1 : UInt32 := 0xcc9e2d51

def c2 : UInt32 := 0x1b873593

def addend : UInt32 := 0xe6546b64

/-- The rotation of a word to the left. -/
def rotl (x : UInt32) (r : ℕ) : UInt32 :=
  .ofBitVec (x.toBitVec.rotateLeft r)

/-- A word before it is mixed into the hash state. -/
@[irreducible]
def scramble (k : UInt32) : UInt32 :=
  rotl (k * c1) 15 * c2

/-- The hash state after a word has been combined with it. -/
@[irreducible]
def spread (h : UInt32) : UInt32 :=
  rotl h 13 * 5 + addend

/-- The hash state after a block. -/
def mixBlock (h k : UInt32) : UInt32 :=
  spread (h ^^^ scramble k)

/-- The finalizer. -/
@[irreducible]
def fmix32 (h : UInt32) : UInt32 :=
  let h := (h ^^^ (h >>> 16)) * 0x85ebca6b
  let h := (h ^^^ (h >>> 13)) * 0xc2b2ae35
  h ^^^ (h >>> 16)

/-- The hash state after all bytes: after the blocks of four bytes and the tail. -/
def body (h : UInt32) : List UInt8 → UInt32
  | a :: b :: c :: d :: rest => body (mixBlock h (ofLE UInt32 [a, b, c, d])) rest
  | [] => h
  | tail => h ^^^ scramble (ofLE UInt32 tail)

/-- The hash of a byte list. -/
def hash (seed : UInt32) (data : List UInt8) : UInt32 :=
  fmix32 (body seed data ^^^ UInt32.ofNat data.length)

/-! ### Words of the data -/

/-- The bytes of a word are one block. -/
theorem body_toLE_append (h k : UInt32) (rest : List UInt8) :
  body h (toLE k ++ rest) = body (mixBlock h k) rest
  := by
  have hblock : ofLE UInt32 (toLE k) = k := ofLE_toLE k
  have hbytes : ∃ a b c d, toLE k = [a, b, c, d] := ⟨_, _, _, _, rfl⟩
  obtain ⟨a, b, c, d, hk⟩ := hbytes
  rw [hk] at hblock
  rw [hk, ← hblock]
  change body h (a :: b :: c :: d :: rest) = _
  rw [body]

/-- A single byte is a tail. -/
theorem body_singleton (h : UInt32) (b : UInt8) :
  body h [b] = h ^^^ scramble b.toUInt32
  := by
  have hword : ofLE UInt32 [b] = b.toUInt32 := by
    apply UInt32.toNat_inj.mp
    have hb := b.toNat_lt
    have hleNat : leNat [b] = b.toNat := by rw [leNat_cons, leNat_nil, Nat.mul_zero, Nat.add_zero]
    change (UInt32.ofNat (leNat [b])).toNat = b.toNat
    rw [hleNat, UInt32.toNat_ofNat']
    omega
  rw [← hword, body]
  all_goals simp

/-! ### Bijections -/

/-- A function on words is a bijection if it is one on their bits. -/
theorem bijective_of_bits {f : UInt32 → UInt32} {g : BitVec 32 → BitVec 32} (hg : Bijective g)
    (h : ∀ x, (f x).toBitVec = g x.toBitVec) :
  Bijective f
  := by
  constructor
  · intro x y hxy
    apply UInt32.toBitVec_inj.mp
    apply hg.1
    rw [← h, ← h, hxy]
  · intro y
    obtain ⟨b, hb⟩ := hg.2 y.toBitVec
    use .ofBitVec b
    apply UInt32.toBitVec_inj.mp
    rw [h]
    apply hb

theorem xor_bijective (k : UInt32) :
  Bijective fun x => x ^^^ k
  := bijective_of_bits (Mixing.xor_bijective k.toBitVec) fun _ => rfl

theorem xor_left_bijective (k : UInt32) :
  Bijective fun x => k ^^^ x
  := by
  have hcomm : (fun x => k ^^^ x) = fun x => x ^^^ k := by
    funext x
    apply UInt32.xor_comm
  rw [hcomm]
  apply xor_bijective

theorem add_bijective (k : UInt32) :
  Bijective fun x => x + k
  := bijective_of_bits (Mixing.add_bijective k.toBitVec) fun _ => rfl

theorem mul_bijective {c d : UInt32} (h : c * d = 1) :
  Bijective fun x => x * c
  := bijective_of_bits (Mixing.mul_bijective (congrArg UInt32.toBitVec h)) fun _ => rfl

theorem rotl_bijective (r : ℕ) :
  Bijective fun x => rotl x r
  := bijective_of_bits (Mixing.rotateLeft_bijective r) fun _ => rfl

theorem scramble_bijective :
  Bijective scramble
  := by
  have hsteps : scramble = (fun x => x * c2) ∘ (fun x => rotl x 15) ∘ fun x => x * c1 := by
    funext k
    simp only [scramble, comp_apply]
  rw [hsteps]
  apply (mul_bijective (d := 0x56ed309b) (by decide)).comp
  apply (rotl_bijective 15).comp (mul_bijective (d := 0xdee13bb1) (by decide))

theorem spread_bijective :
  Bijective spread
  := by
  have hsteps : spread
      = (fun x => x + addend) ∘ (fun x : UInt32 => x * 5) ∘ fun x => rotl x 13 := by
    funext h
    unfold spread
    rfl
  rw [hsteps]
  apply (add_bijective addend).comp
  apply (mul_bijective (d := 0xcccccccd) (by decide)).comp (rotl_bijective 13)

theorem mixBlock_bijective_state (k : UInt32) :
  Bijective fun h => mixBlock h k
  := spread_bijective.comp (xor_bijective (scramble k))

theorem mixBlock_bijective_word (h : UInt32) :
  Bijective fun k => mixBlock h k
  := spread_bijective.comp ((xor_left_bijective h).comp scramble_bijective)

theorem xorShift_bijective {n : UInt32} (hn : 0 < n.toNat) (hlt : n.toNat < 32) :
  Bijective fun x : UInt32 => x ^^^ (x >>> n)
  := by
  apply bijective_of_bits (Mixing.xorShift_bijective hn)
  intro x
  have hmod : (n.toBitVec % 32).toNat = n.toNat := Nat.mod_eq_of_lt hlt
  rw [UInt32.toBitVec_xor, UInt32.toBitVec_shiftRight, BitVec.ushiftRight_eq', hmod]

theorem fmix32_bijective :
  Bijective fmix32
  := by
  have hsteps : fmix32 = (fun x : UInt32 => x ^^^ (x >>> 16))
      ∘ ((fun x : UInt32 => x * 0xc2b2ae35) ∘ fun x : UInt32 => x ^^^ (x >>> 13))
      ∘ ((fun x : UInt32 => x * 0x85ebca6b) ∘ fun x : UInt32 => x ^^^ (x >>> 16)) := by
    funext h
    simp only [fmix32, comp_apply]
  have h16 : Bijective fun x : UInt32 => x ^^^ (x >>> 16) :=
    xorShift_bijective (by decide) (by decide)
  have h13 : Bijective fun x : UInt32 => x ^^^ (x >>> 13) :=
    xorShift_bijective (by decide) (by decide)
  rw [hsteps]
  apply h16.comp
  apply ((mul_bijective (d := 0x7ed1b41d) (by decide)).comp h13).comp
  apply (mul_bijective (d := 0xa5cb9243) (by decide)).comp h16

end Murmur3
