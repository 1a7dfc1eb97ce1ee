import ShivaProtocol.Library.Bytes
import Mathlib.Tactic.SplitIfs

/-!
# The packet parser

`inspect` extracts the 5-tuple and the IPv4 header of a TCP or UDP packet.  Every read of the
packet is checked against its end, so a read past the end is an error of the model; `inspect`
makes none, and accepts exactly the packets of `Accepted` (`inspect_eq`).
-/

open Bytes

namespace SgEbpf

/-- A read at or past the end of the packet, at the given offset. -/
structure OutOfBounds where
  offset : ℕ
  deriving DecidableEq, Repr

/-- The byte of the packet at an offset. -/
def readByte (pkt : List UInt8) (off : ℕ) : Except OutOfBounds UInt8 :=
  match pkt[off]? with
  | some b => .ok b
  | none => .error ⟨off⟩

/-- The word at an offset of the packet, in the little-endian order of the machine. -/
def readUnaligned (α : Type) [FixedWidth α] (pkt : List UInt8) (off : ℕ) :
    Except OutOfBounds α :=
  if off + FixedWidth.width α ≤ pkt.length then
    .ok (ofLE α (slice pkt off (FixedWidth.width α)))
  else .error ⟨off⟩

/-- The word a big-endian word reads as on a little-endian machine, converted to the order of
the machine. -/
def fromBE {α : Type} [FixedWidth α] (x : α) : α :=
  swapBytes x

/-- The 5-tuple and the IPv4 header of a packet. -/
structure ProtoView where
  srcIp : UInt32
  dstIp : UInt32
  srcPort : UInt16
  dstPort : UInt16
  proto : UInt8
  l3Hdr : Vector UInt8 20
  deriving DecidableEq

/-- The 5-tuple and the IPv4 header of a packet whose protocol byte has been read. -/
def extract (pkt : List UInt8) (proto : UInt8) : Except OutOfBounds ProtoView := do
  let srcIp := fromBE (← readUnaligned UInt32 pkt 26)
  let dstIp := fromBE (← readUnaligned UInt32 pkt 30)
  let srcPort := fromBE (← readUnaligned UInt16 pkt 34)
  let dstPort := fromBE (← readUnaligned UInt16 pkt 36)
  let l3Hdr := #v[
    ← readByte pkt 14, ← readByte pkt 15, ← readByte pkt 16, ← readByte pkt 17,
    ← readByte pkt 18, ← readByte pkt 19, ← readByte pkt 20, ← readByte pkt 21,
    ← readByte pkt 22, ← readByte pkt 23, ← readByte pkt 24, ← readByte pkt 25,
    ← readByte pkt 26, ← readByte pkt 27, ← readByte pkt 28, ← readByte pkt 29,
    ← readByte pkt 30, ← readByte pkt 31, ← readByte pkt 32, ← readByte pkt 33]
  return { srcIp, dstIp, srcPort, dstPort, proto, l3Hdr }

/-- The view of an IPv4 packet carrying TCP or UDP, and nothing for any other packet. -/
def inspect (pkt : List UInt8) : Except OutOfBounds (Option ProtoView) := do
  -- an Ethernet header and an IPv4 header without options
  if 34 > pkt.length then
    return none
  let etherType := fromBE (← readUnaligned UInt16 pkt 12)
  if etherType != 0x0800 then
    return none
  let proto ← readByte pkt 23
  if proto != 6 && proto != 17 then
    return none
  -- the bound of TCP, used for UDP as well
  if 54 > pkt.length then
    return none
  return some (← extract pkt proto)

/-! ### What the parser accepts -/

/-- The packets the parser accepts: at least 54 bytes, of EtherType IPv4, and of protocol TCP
or UDP. -/
def Accepted (pkt : List UInt8) : Prop :=
  54 ≤ pkt.length ∧ slice pkt 12 2 = [0x08, 0x00] ∧ (pkt[23]? = some 6 ∨ pkt[23]? = some 17)

instance (pkt : List UInt8) : Decidable (Accepted pkt) :=
  inferInstanceAs (Decidable (_ ∧ _ ∧ _))

/-- The view of a packet of at least 54 bytes, in terms of the bytes of the packet. -/
def viewOf (pkt : List UInt8) (h : 54 ≤ pkt.length) : ProtoView where
  srcIp := ofBE UInt32 (slice pkt 26 4)
  dstIp := ofBE UInt32 (slice pkt 30 4)
  srcPort := ofBE UInt16 (slice pkt 34 2)
  dstPort := ofBE UInt16 (slice pkt 36 2)
  proto := pkt[23]
  l3Hdr := ⟨(slice pkt 14 20).toArray, length_slice (by omega)⟩

theorem readByte_eq {pkt : List UInt8} {off : ℕ} (h : off < pkt.length) :
  readByte pkt off = .ok pkt[off]
  := by rw [readByte, List.getElem?_eq_getElem h]

/-- Reading a word in bounds gives the bytes at the offset in little-endian order. -/
theorem readUnaligned_eq {α : Type} [FixedWidth α] {pkt : List UInt8} {off n : ℕ}
    (hn : FixedWidth.width α = n) (h : off + n ≤ pkt.length) :
  readUnaligned α pkt off = .ok (ofLE α (slice pkt off n))
  := by
  subst hn
  apply if_pos h

/-- Converting a little-endian word at an offset gives the big-endian word there. -/
theorem fromBE_ofLE {α : Type} [FixedWidth α] {pkt : List UInt8} {off n : ℕ}
    (hn : FixedWidth.width α = n) (h : off + n ≤ pkt.length) :
  fromBE (ofLE α (slice pkt off n)) = ofBE α (slice pkt off n)
  := by
  apply swapBytes_ofLE
  rw [length_slice h, hn]

/-- The big-endian word of two bytes is `0x0800` exactly if the bytes are `0x08` and `0x00`. -/
theorem ofBE_eq_etherType_iff {bs : List UInt8} (h : bs.length = 2) :
  ofBE UInt16 bs = 0x0800 ↔ bs = [0x08, 0x00]
  := by
  constructor
  · intro heq
    have hbytes := congrArg toLE heq
    rw [ofBE, toLE_ofLE (by rw [List.length_reverse, h]; rfl)] at hbytes
    rw [← List.reverse_reverse bs, hbytes]
    decide
  · rintro rfl
    decide

/-- The 20 bytes at a position of a packet, one by one. -/
theorem slice_header {pkt : List UInt8} (h : 54 ≤ pkt.length) :
  slice pkt 14 20 =
    [pkt[14], pkt[15], pkt[16], pkt[17], pkt[18], pkt[19], pkt[20], pkt[21], pkt[22], pkt[23],
      pkt[24], pkt[25], pkt[26], pkt[27], pkt[28], pkt[29], pkt[30], pkt[31], pkt[32], pkt[33]]
  := by simp (disch := omega) only [slice_succ, slice_zero]

/-- On a packet of at least 54 bytes all reads of the extraction are in bounds. -/
theorem extract_eq {pkt : List UInt8} (h : 54 ≤ pkt.length) :
  extract pkt pkt[23] = .ok (viewOf pkt h)
  := by
  have h16 {off : ℕ} (hoff : off + 2 ≤ 54) :
      readUnaligned UInt16 pkt off = .ok (ofLE UInt16 (slice pkt off 2)) :=
    readUnaligned_eq rfl (by omega)
  have h32 {off : ℕ} (hoff : off + 4 ≤ 54) :
      readUnaligned UInt32 pkt off = .ok (ofLE UInt32 (slice pkt off 4)) :=
    readUnaligned_eq rfl (by omega)
  have h8 {off : ℕ} (hoff : off < 54) : readByte pkt off = .ok (pkt.get ⟨off, by omega⟩) :=
    readByte_eq (by omega)
  have hbe16 {off : ℕ} (hoff : off + 2 ≤ 54) :
      fromBE (ofLE UInt16 (slice pkt off 2)) = ofBE UInt16 (slice pkt off 2) :=
    fromBE_ofLE rfl (by omega)
  have hbe32 {off : ℕ} (hoff : off + 4 ≤ 54) :
      fromBE (ofLE UInt32 (slice pkt off 4)) = ofBE UInt32 (slice pkt off 4) :=
    fromBE_ofLE rfl (by omega)
  simp (disch := decide) only [extract, h16, h32, h8, bind, Except.bind, pure, Except.pure,
    hbe16, hbe32, viewOf, slice_header h]
  rfl

/-- The parser reads in bounds on every packet, and returns the view of exactly the packets it
accepts. -/
theorem inspect_eq (pkt : List UInt8) :
  inspect pkt = .ok (if h : Accepted pkt then some (viewOf pkt h.1) else none)
  := by
  by_cases h34 : 34 > pkt.length
  · have hnot : ¬ Accepted pkt := fun h => by
      have h54 := h.1
      omega
    simp only [inspect, if_pos h34, dif_neg hnot]
    rfl
  · have hether : readUnaligned UInt16 pkt 12 = .ok (ofLE UInt16 (slice pkt 12 2)) :=
      readUnaligned_eq rfl (by omega)
    have hbe : fromBE (ofLE UInt16 (slice pkt 12 2)) = ofBE UInt16 (slice pkt 12 2) :=
      fromBE_ofLE rfl (by omega)
    have hlen : (slice pkt 12 2).length = 2 := length_slice (by omega)
    have hiff := ofBE_eq_etherType_iff hlen
    have hproto : readByte pkt 23 = .ok pkt[23] := readByte_eq (by omega)
    have hacc : Accepted pkt ↔ 54 ≤ pkt.length ∧ slice pkt 12 2 = [0x08, 0x00]
        ∧ (pkt[23] = 6 ∨ pkt[23] = 17) := by
      rw [Accepted, List.getElem?_eq_getElem (by omega), Option.some_inj, Option.some_inj]
    simp only [inspect, if_neg h34, hether, hproto, hbe, bind, Except.bind, pure, Except.pure,
      bne_iff_ne, ne_eq, hiff, Bool.and_eq_true]
    by_cases hE : slice pkt 12 2 = [0x08, 0x00]
    · by_cases hP : pkt[23] = 6 ∨ pkt[23] = 17
      · have hP' : ¬ (¬ pkt[23] = 6 ∧ ¬ pkt[23] = 17) := by tauto
        by_cases h54 : 54 ≤ pkt.length
        · rw [dif_pos (hacc.mpr ⟨h54, hE, hP⟩), if_neg (not_not.mpr hE), if_neg hP',
            if_neg (not_lt.mpr h54), extract_eq h54]
        · rw [dif_neg (fun h => h54 (hacc.mp h).1), if_neg (not_not.mpr hE), if_neg hP',
            if_pos (not_le.mp h54)]
      · rw [dif_neg (fun h => hP (hacc.mp h).2.2), if_neg (not_not.mpr hE),
          if_pos (not_or.mp hP)]
    · rw [dif_neg (fun h => hE (hacc.mp h).2.1), if_pos hE]

/-- A TCP packet without payload: 10.0.0.1, port 40000, to 10.0.0.2, port 443. -/
def samplePacket : List UInt8 :=
  [0x02, 0, 0, 0, 0, 0x02, 0x02, 0, 0, 0, 0, 0x01, 0x08, 0x00]
    ++ [0x45, 0, 0, 40, 0, 1, 0x40, 0, 64, 6, 0, 0, 10, 0, 0, 1, 10, 0, 0, 2]
    ++ [0x9C, 0x40, 0x01, 0xBB, 0, 0, 0, 1, 0, 0, 0, 0, 0x50, 0x02, 0xFF, 0xFF, 0, 0, 0, 0]

theorem accepted_samplePacket :
  Accepted samplePacket
  := by decide

theorem le_length_samplePacket :
  54 ≤ samplePacket.length
  := accepted_samplePacket.1

end SgEbpf
