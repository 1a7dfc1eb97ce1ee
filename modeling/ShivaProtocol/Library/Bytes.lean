import Mathlib.Data.Nat.Digits.Defs
import Mathlib.Data.UInt
import Mathlib.Tactic.Ring

/-!
# Words, bytes and records

The little-endian and big-endian bytes of a fixed-width word, the slices of a byte string, and
the offsets C assigns to the fields of a record.

Encoding and decoding a word are mutually inverse (`ofLE_toLE`, `toLE_ofLE`).
Swapping the bytes of a word read in little-endian order yields the word in big-endian order
(`swapBytes_ofLE`).  Adjacent slices join (`slice_append_slice`), and the parts of a
concatenation are slices of it (`slice_flatten`).
-/

universe u

/-- A type of words of `width` bytes, identified with the naturals below `256 ^ width`. -/
class FixedWidth (α : Type u) where
  width : ℕ
  toNat : α → ℕ
  ofNat : ℕ → α
  toNat_lt : ∀ x, toNat x < 256 ^ width
  ofNat_toNat : ∀ x, ofNat (toNat x) = x
  toNat_ofNat : ∀ n, n < 256 ^ width → toNat (ofNat n) = n

instance : FixedWidth UInt16 where
  width := 2
  toNat := UInt16.toNat
  ofNat := UInt16.ofNat
  toNat_lt := UInt16.toNat_lt
  ofNat_toNat _ := UInt16.ofNat_toNat
  toNat_ofNat _ h := UInt16.toNat_ofNat_of_lt h

instance : FixedWidth UInt32 where
  width := 4
  toNat := UInt32.toNat
  ofNat := UInt32.ofNat
  toNat_lt := UInt32.toNat_lt
  ofNat_toNat _ := UInt32.ofNat_toNat
  toNat_ofNat _ h := UInt32.toNat_ofNat_of_lt h

instance : FixedWidth UInt64 where
  width := 8
  toNat := UInt64.toNat
  ofNat := UInt64.ofNat
  toNat_lt := UInt64.toNat_lt
  ofNat_toNat _ := UInt64.ofNat_toNat
  toNat_ofNat _ h := UInt64.toNat_ofNat_of_lt h

namespace Bytes

/-! ### Naturals in little-endian order -/

/-- The natural whose bytes, the least significant first, are `bs`. -/
def leNat (bs : List UInt8) : ℕ :=
  Nat.ofDigits 256 (bs.map UInt8.toNat)

/-- The `w` least significant bytes of `n`, the least significant first. -/
def leBytes : ℕ → ℕ → List UInt8
  | 0, _ => []
  | w + 1, n => UInt8.ofNat n :: leBytes w (n / 256)

@[simp]
theorem length_leBytes (w n : ℕ) :
  (leBytes w n).length = w
  := by
  induction w generalizing n with
  | zero => rfl
  | succ w ih => rw [leBytes, List.length_cons, ih]

theorem leNat_nil :
  leNat [] = 0
  := rfl

theorem leNat_cons (b : UInt8) (bs : List UInt8) :
  leNat (b :: bs) = b.toNat + 256 * leNat bs
  := by
  rw [leNat, List.map_cons, Nat.ofDigits_cons]
  rfl

theorem leNat_lt (bs : List UInt8) :
  leNat bs < 256 ^ bs.length
  := by
  induction bs with
  | nil => decide
  | cons b bs ih =>
      have hb := b.toNat_lt
      rw [leNat_cons, List.length_cons, pow_succ]
      omega

/-- Reading back the `w` least significant bytes of `n` gives `n` modulo `256 ^ w`. -/
theorem leNat_leBytes (w n : ℕ) :
  leNat (leBytes w n) = n % 256 ^ w
  := by
  induction w generalizing n with
  | zero => simp [leBytes, leNat_nil, Nat.mod_one]
  | succ w ih =>
      rw [leBytes, leNat_cons, ih, UInt8.toNat_ofNat', pow_succ' 256 w, Nat.mod_mul]

/-- Writing the natural with bytes `bs` on as many bytes gives `bs`. -/
theorem leBytes_leNat (bs : List UInt8) :
  leBytes bs.length (leNat bs) = bs
  := by
  induction bs with
  | nil => rfl
  | cons b bs ih =>
      have hb := b.toNat_lt
      have hhead : UInt8.ofNat (b.toNat + 256 * leNat bs) = b := by
        apply UInt8.toNat_inj.mp
        rw [UInt8.toNat_ofNat']
        omega
      have htail : (b.toNat + 256 * leNat bs) / 256 = leNat bs := by omega
      rw [List.length_cons, leBytes, leNat_cons, hhead, htail, ih]

/-- The bytes of a sum of a small number and a multiple of a power of 256. -/
theorem leBytes_append {v n : ℕ} (hn : n < 256 ^ v) (w m : ℕ) :
  leBytes v n ++ leBytes w m = leBytes (v + w) (n + 256 ^ v * m)
  := by
  induction v generalizing n with
  | zero =>
      have hzero : n = 0 := by omega
      rw [hzero, leBytes, List.nil_append, Nat.zero_add, pow_zero, Nat.one_mul, Nat.zero_add]
  | succ v ih =>
      have hlow : n / 256 < 256 ^ v := by
        rw [pow_succ] at hn
        omega
      have hsplit : n + 256 ^ (v + 1) * m = n + 256 * (256 ^ v * m) := by ring
      have hhead : UInt8.ofNat (n + 256 * (256 ^ v * m)) = UInt8.ofNat n := by
        apply UInt8.toNat_inj.mp
        rw [UInt8.toNat_ofNat', UInt8.toNat_ofNat']
        omega
      have htail : (n + 256 * (256 ^ v * m)) / 256 = n / 256 + 256 ^ v * m := by omega
      rw [Nat.add_right_comm, leBytes, leBytes, List.cons_append, ih hlow, hsplit, hhead, htail]

/-! ### Words -/

section Words

variable {α : Type u} [FixedWidth α]

/-- The bytes of a word, the least significant first. -/
def toLE (x : α) : List UInt8 :=
  leBytes (FixedWidth.width α) (FixedWidth.toNat x)

variable (α) in
/-- The word whose bytes, the least significant first, are `bs`. -/
def ofLE (bs : List UInt8) : α :=
  FixedWidth.ofNat (leNat bs)

variable (α) in
/-- The word whose bytes, the most significant first, are `bs`. -/
def ofBE (bs : List UInt8) : α :=
  ofLE α bs.reverse

/-- The word with the bytes of `x` in the opposite order. -/
def swapBytes (x : α) : α :=
  ofLE α (toLE x).reverse

@[simp]
theorem length_toLE (x : α) :
  (toLE x).length = FixedWidth.width α
  := length_leBytes _ _

@[simp]
theorem ofLE_toLE (x : α) :
  ofLE α (toLE x) = x
  := by
  rw [ofLE, toLE, leNat_leBytes, Nat.mod_eq_of_lt (FixedWidth.toNat_lt x),
    FixedWidth.ofNat_toNat]

theorem toLE_ofLE {bs : List UInt8} (h : bs.length = FixedWidth.width α) :
  toLE (ofLE α bs) = bs
  := by
  have hlt := leNat_lt bs
  rw [h] at hlt
  rw [toLE, ofLE, FixedWidth.toNat_ofNat _ hlt, ← h, leBytes_leNat]

/-- The bytes of a word read in little-endian order and then swapped are the word in big-endian
order. -/
theorem swapBytes_ofLE {bs : List UInt8} (h : bs.length = FixedWidth.width α) :
  swapBytes (ofLE α bs) = ofBE α bs
  := by
  rw [swapBytes, toLE_ofLE h, ofBE]

/-- A word in big-endian order determines its bytes. -/
theorem ofBE_inj {bs bs' : List UInt8} (h : bs.length = FixedWidth.width α)
    (h' : bs'.length = FixedWidth.width α) :
  ofBE α bs = ofBE α bs' ↔ bs = bs'
  := by
  constructor
  · intro heq
    have hbytes := congrArg toLE heq
    rw [ofBE, ofBE, toLE_ofLE (by rw [List.length_reverse, h]),
      toLE_ofLE (by rw [List.length_reverse, h'])] at hbytes
    apply List.reverse_injective hbytes
  · intro heq
    rw [heq]

end Words

/-! ### Slices -/

section Slices

variable {β : Type u}

/-- The `n` elements of `xs` from position `i` on. -/
def slice (xs : List β) (i n : ℕ) : List β :=
  (xs.drop i).take n

theorem length_slice {xs : List β} {i n : ℕ} (h : i + n ≤ xs.length) :
  (slice xs i n).length = n
  := by
  simp only [slice, List.length_take, List.length_drop]
  omega

/-- Adjacent slices join to a slice. -/
theorem slice_append_slice (xs : List β) (i m n : ℕ) :
  slice xs i m ++ slice xs (i + m) n = slice xs i (m + n)
  := by
  rw [slice, slice, slice, List.take_add, List.drop_drop]

theorem slice_zero (xs : List β) (i : ℕ) :
  slice xs i 0 = []
  := List.take_zero

/-- A nonempty slice begins with the element at its position. -/
theorem slice_succ {xs : List β} {i : ℕ} (h : i < xs.length) (n : ℕ) :
  slice xs i (n + 1) = xs[i] :: slice xs (i + 1) n
  := by
  rw [slice, slice, List.drop_eq_getElem_cons h, List.take_succ_cons]

/-- A slice of a slice is a slice. -/
theorem slice_slice (xs : List β) {i n j m : ℕ} (h : j + m ≤ n) :
  slice (slice xs i n) j m = slice xs (i + j) m
  := by
  rw [slice, slice, slice, List.drop_take, List.take_take, List.drop_drop, Nat.min_eq_left]
  omega

/-- An element of a slice. -/
theorem getElem?_slice (xs : List β) {i n j : ℕ} (h : j < n) :
  (slice xs i n)[j]? = xs[i + j]?
  := by rw [slice, List.getElem?_take_of_lt h, List.getElem?_drop]

/-- The slice of all elements is the list. -/
theorem slice_all (xs : List β) :
  slice xs 0 xs.length = xs
  := by
  rw [slice, List.drop_zero, List.take_length]

/-- The `k`-th part of a concatenation is the slice of it that begins after the parts before
it. -/
theorem slice_flatten {ps : List (List β)} {k : ℕ} {p : List β} {i n : ℕ}
    (hk : ps[k]? = some p) (hi : ((ps.map List.length).take k).sum = i) (hn : p.length = n) :
  slice ps.flatten i n = p
  := by
  obtain ⟨hlt, hp⟩ := List.getElem?_eq_some_iff.mp hk
  have hsplit : ps = ps.take k ++ p :: ps.drop (k + 1) := by
    rw [← hp, List.getElem_cons_drop, List.take_append_drop]
  have hlen : (ps.take k).flatten.length = i := by
    rw [List.length_flatten, List.map_take, hi]
  rw [hsplit, List.flatten_append, List.flatten_cons, slice, ← hlen, List.drop_left, ← hn,
    List.take_left]

end Slices

/-! ### Records in C -/

/-- The size and the alignment of a field of a record. -/
structure Field where
  size : ℕ
  align : ℕ

/-- The least multiple of `a` that is at least `n`. -/
def alignUp (n a : ℕ) : ℕ :=
  (n + a - 1) / a * a

/-- The offsets C assigns to the fields of a record, in order, when `n` bytes precede them. -/
def offsets : ℕ → List Field → List ℕ
  | _, [] => []
  | n, f :: fs => alignUp n f.align :: offsets (alignUp n f.align + f.size) fs

/-- Where the last field of a record ends, when `n` bytes precede its fields. -/
def endOffset : ℕ → List Field → ℕ
  | n, [] => n
  | n, f :: fs => endOffset (alignUp n f.align + f.size) fs

/-- The size C gives a record aligned to `a`: its fields, padded to a multiple of `a`. -/
def recordSize (a : ℕ) (fs : List Field) : ℕ :=
  alignUp (endOffset 0 fs) a

end Bytes
