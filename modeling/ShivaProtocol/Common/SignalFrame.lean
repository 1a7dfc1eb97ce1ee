import ShivaProtocol.Library.Bytes

/-!
# The frame crossing the kernel boundary

`SignalFrame` is the one record that crosses from the kernel program to userspace.  Its memory
is `SignalFrame.bytes`, the little-endian bytes of its fields in order; `readUnaligned` is the
cast of 64 bytes to a frame.  Under the layout rules of C the fields tile the 64 bytes, at the
offsets at which `readUnaligned` reads them (`layout_offsets`, `layout_tiles`), and `bytes` and
`readUnaligned` are mutually inverse.
-/

open Bytes

namespace SgCommon

/-- The number of per-CPU slots. -/
abbrev NCPU : ℕ := 32

/-- `size_of::<SignalFrame>()`. -/
abbrev signalFrameSize : ℕ := 64

/-- `align_of::<SignalFrame>()`. -/
abbrev signalFrameAlign : ℕ := 64

/-- A frame: what the kernel program reports about one packet. -/
structure SignalFrame where
  flowHash : UInt64
  timestampNs : UInt64
  l3Hdr : Vector UInt8 20
  l4Flags : UInt32
  ppsDelta : UInt32
  cpuId : UInt32
  pad : Vector UInt8 16
  deriving DecidableEq

namespace SignalFrame

/-- The frame all of whose bytes are zero. -/
def zeroed : SignalFrame where
  flowHash := 0
  timestampNs := 0
  l3Hdr := Vector.replicate 20 0
  l4Flags := 0
  ppsDelta := 0
  cpuId := 0
  pad := Vector.replicate 16 0

/-- The fields of a frame, in order, as C sees them. -/
def layout : List Field :=
  [⟨8, 8⟩, ⟨8, 8⟩, ⟨20, 1⟩, ⟨4, 4⟩, ⟨4, 4⟩, ⟨4, 4⟩, ⟨16, 1⟩]

/-- C places the fields of a frame at the offsets the source asserts. -/
theorem layout_offsets :
  offsets 0 layout = [0, 8, 16, 36, 40, 44, 48]
  := by decide

/-- C inserts no padding between the fields of a frame nor after them. -/
theorem layout_tiles :
  endOffset 0 layout = (layout.map Field.size).sum
    ∧ recordSize signalFrameAlign layout = signalFrameSize
    ∧ endOffset 0 layout = signalFrameSize
  := by decide

/-- The bytes of the fields of a frame, field by field. -/
def fieldBytes (f : SignalFrame) : List (List UInt8) :=
  [toLE f.flowHash, toLE f.timestampNs, f.l3Hdr.toList, toLE f.l4Flags, toLE f.ppsDelta,
    toLE f.cpuId, f.pad.toList]

/-- The memory of a frame on a little-endian machine. -/
def bytes (f : SignalFrame) : List UInt8 :=
  f.fieldBytes.flatten

/-- Each field of a frame takes the bytes C gives it. -/
theorem length_fieldBytes (f : SignalFrame) :
  f.fieldBytes.map List.length = layout.map Field.size
  := by simp [fieldBytes, layout, FixedWidth.width]

@[simp]
theorem length_bytes (f : SignalFrame) :
  f.bytes.length = signalFrameSize
  := by
  rw [bytes, List.length_flatten, length_fieldBytes]
  rfl

/-- The frame whose memory is `raw`, wherever `raw` lies. -/
def readUnaligned (raw : List UInt8) (h : raw.length = signalFrameSize) : SignalFrame where
  flowHash := ofLE UInt64 (slice raw 0 8)
  timestampNs := ofLE UInt64 (slice raw 8 8)
  l3Hdr := ⟨(slice raw 16 20).toArray, length_slice (by rw [h]; decide)⟩
  l4Flags := ofLE UInt32 (slice raw 36 4)
  ppsDelta := ofLE UInt32 (slice raw 40 4)
  cpuId := ofLE UInt32 (slice raw 44 4)
  pad := ⟨(slice raw 48 16).toArray, length_slice (by rw [h])⟩

/-! ### Round trips -/

/-- The slice of the memory of a frame at the offset of its `k`-th field is that field. -/
theorem slice_bytes (f : SignalFrame) {k i n : ℕ} {p : List UInt8}
    (hk : f.fieldBytes[k]? = some p) (hi : ((layout.map Field.size).take k).sum = i)
    (hn : p.length = n) :
  slice f.bytes i n = p
  := by
  rw [← length_fieldBytes f] at hi
  apply slice_flatten hk hi hn

/-- Reading the memory of a frame gives the frame. -/
theorem readUnaligned_bytes (f : SignalFrame) :
  readUnaligned f.bytes f.length_bytes = f
  := by
  have hflow : slice f.bytes 0 8 = toLE f.flowHash := f.slice_bytes (k := 0) rfl rfl (length_toLE _)
  have hts : slice f.bytes 8 8 = toLE f.timestampNs :=
    f.slice_bytes (k := 1) rfl rfl (length_toLE _)
  have hl3 : slice f.bytes 16 20 = f.l3Hdr.toList :=
    f.slice_bytes (k := 2) rfl rfl f.l3Hdr.length_toList
  have hl4 : slice f.bytes 36 4 = toLE f.l4Flags := f.slice_bytes (k := 3) rfl rfl (length_toLE _)
  have hpps : slice f.bytes 40 4 = toLE f.ppsDelta := f.slice_bytes (k := 4) rfl rfl (length_toLE _)
  have hcpu : slice f.bytes 44 4 = toLE f.cpuId := f.slice_bytes (k := 5) rfl rfl (length_toLE _)
  have hpad : slice f.bytes 48 16 = f.pad.toList :=
    f.slice_bytes (k := 6) rfl rfl f.pad.length_toList
  simp only [readUnaligned, hflow, hts, hl3, hl4, hpps, hcpu, hpad, ofLE_toLE]
  rfl

/-- Writing the frame read from 64 bytes gives the 64 bytes. -/
theorem bytes_readUnaligned (raw : List UInt8) (h : raw.length = signalFrameSize) :
  (readUnaligned raw h).bytes = raw
  := by
  have h64 (i : ℕ) (hi : i + 8 ≤ 64) : toLE (ofLE UInt64 (slice raw i 8)) = slice raw i 8 := by
    apply toLE_ofLE (α := UInt64)
    apply length_slice
    rw [h]
    apply hi
  have h32 (i : ℕ) (hi : i + 4 ≤ 64) : toLE (ofLE UInt32 (slice raw i 4)) = slice raw i 4 := by
    apply toLE_ofLE (α := UInt32)
    apply length_slice
    rw [h]
    apply hi
  have hparts : (readUnaligned raw h).fieldBytes
      = [slice raw 0 8, slice raw 8 8, slice raw 16 20, slice raw 36 4, slice raw 40 4,
        slice raw 44 4, slice raw 48 16] := by
    rw [fieldBytes, readUnaligned, h64 0 (by decide), h64 8 (by decide), h32 36 (by decide),
      h32 40 (by decide), h32 44 (by decide)]
    rfl
  rw [bytes, hparts]
  simp only [List.flatten_cons, List.flatten_nil, List.append_nil]
  rw [slice_append_slice raw 44 4, slice_append_slice raw 40 4, slice_append_slice raw 36 4,
    slice_append_slice raw 16 20, slice_append_slice raw 8 8, slice_append_slice raw 0 8]
  apply Eq.trans _ (slice_all raw)
  rw [h]

end SignalFrame

end SgCommon
