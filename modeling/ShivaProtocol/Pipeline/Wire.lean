import ShivaProtocol.Ebpf.Kernel
import ShivaProtocol.Capture.Vacuum

/-!
# The wire between the kernel program and the vacuum worker

The bytes the kernel program copies to the ring are read back by the worker as the frame they come
from, and the worker's cast of 64 bytes loses nothing (`frameOf_bytes`, `bytes_of_frameOf`).  The
frame of a packet describes one flow: its flow hash is the hash of the addresses and the protocol
in its own header bytes, and of the ports of the packet (`kernelFrame_read`).
-/

open Bytes SgCommon SgEbpf SgCapture

namespace Pipeline

/-- The worker reads the bytes of a frame as the frame. -/
theorem frameOf_bytes (frame : SignalFrame) :
  frameOf frame.bytes = some frame
  := by rw [frameOf, dif_pos frame.length_bytes, SignalFrame.readUnaligned_bytes]

/-- The bytes of the frame the worker reads from an item are the item. -/
theorem bytes_of_frameOf {raw : List UInt8} {frame : SignalFrame} (h : frameOf raw = some frame) :
  frame.bytes = raw
  := by
  rw [frameOf, Option.dite_none_right_eq_some] at h
  obtain ⟨hlen, hframe⟩ := h
  obtain rfl := Option.some.inj hframe
  apply SignalFrame.bytes_readUnaligned

/-- The wire format: under the layout rules of C the fields of a frame lie at the offsets the source
asserts and tile the 64 bytes, and writing a frame and reading an item of 64 bytes are mutually
inverse. -/
structure FaithfulFormat : Prop where
  offsets : offsets 0 SignalFrame.layout = [0, 8, 16, 36, 40, 44, 48]
  tiles : endOffset 0 SignalFrame.layout = (SignalFrame.layout.map Field.size).sum
    ∧ recordSize signalFrameAlign SignalFrame.layout = signalFrameSize
    ∧ endOffset 0 SignalFrame.layout = signalFrameSize
  read_write : ∀ frame, frameOf frame.bytes = some frame
  write_read : ∀ raw, raw.length = signalFrameSize →
    ∃ frame, frameOf raw = some frame ∧ frame.bytes = raw

theorem faithfulFormat :
  FaithfulFormat
  := by
  constructor
  · apply SignalFrame.layout_offsets
  · apply SignalFrame.layout_tiles
  · apply frameOf_bytes
  · intro raw h
    use SignalFrame.readUnaligned raw h, dif_pos h
    apply SignalFrame.bytes_readUnaligned

/-- The flow hash of the addresses and the protocol in the header bytes of a frame, and of the ports
of a packet. -/
def headerHash (l3Hdr : Vector UInt8 20) (pkt : List UInt8) : UInt64 :=
  (murmur3_13 (ofBE UInt32 (slice l3Hdr.toList 12 4)) (ofBE UInt32 (slice l3Hdr.toList 16 4))
    (ofBE UInt16 (slice pkt 34 2)) (ofBE UInt16 (slice pkt 36 2)) l3Hdr[9]).toUInt64

/-- The two extractions of the header of a packet agree. -/
theorem flowHash_viewOf {pkt : List UInt8} (h : 54 ≤ pkt.length) :
  (viewOf pkt h).flowHash = headerHash (viewOf pkt h).l3Hdr pkt
  := by
  have hlist : (viewOf pkt h).l3Hdr.toList = slice pkt 14 20 := rfl
  have hproto : (viewOf pkt h).l3Hdr[9] = pkt[23] := by
    apply Option.some.inj
    rw [← Vector.getElem?_eq_getElem, ← Vector.getElem?_toList, hlist,
      getElem?_slice pkt (by decide), List.getElem?_eq_getElem]
  rw [ProtoView.flowHash, headerHash, hlist, hproto, slice_slice pkt (by decide),
    slice_slice pkt (by decide)]
  rfl

/-- What the worker reads of the frame of a packet that the parser and the filter accept. -/
structure ReadBack (pkt : List UInt8) (view : ProtoView) (result : FilterResult) (cpuId : UInt32)
    (now : UInt64) (frame : SignalFrame) : Prop where
  flowHash : frame.flowHash = result.flowHash
  timestampNs : frame.timestampNs = now
  l3Hdr : frame.l3Hdr = view.l3Hdr
  l4Flags : frame.l4Flags = (result.flowHash >>> 32).toUInt32
  ppsDelta : frame.ppsDelta = result.ppsDelta
  cpuId : frame.cpuId = cpuId
  pad : frame.pad = Vector.replicate 16 0
  consistent : frame.flowHash = headerHash frame.l3Hdr pkt

/-- The frame of a packet that the parser and the filter accept survives the wire, and its header
bytes and its hash describe the same flow. -/
theorem kernelFrame_read {pkt : List UInt8} {view : ProtoView} {denyMap : DenyMap}
    {counters : PpsCounters} {result : FilterResult} (hview : inspect pkt = .ok (some view))
    (hselect : (select denyMap counters view).1 = some result) (cpuId : UInt32) (now : UInt64) :
  FaithfulFormat
    ∧ ∃ frame, frameOf (buildFrame cpuId view result now).bytes = some frame
      ∧ ReadBack pkt view result cpuId now frame
  := by
  constructor
  · apply faithfulFormat
  · use buildFrame cpuId view result now, frameOf_bytes _
    rw [inspect_eq] at hview
    have hacc := Option.dite_none_right_eq_some.mp (Except.ok.inj hview)
    obtain ⟨h, hv⟩ := hacc
    obtain rfl := Option.some.inj hv
    have hhash : result.flowHash = (viewOf pkt h.1).flowHash := by
      rcases hs : select denyMap counters (viewOf pkt h.1) with ⟨o, counters'⟩
      rw [hs] at hselect
      rcases select_cases hs with ⟨-, rfl, -⟩ | ⟨-, -, rfl, -⟩ | ⟨-, -, rfl, -⟩
      · cases hselect
      · cases hselect
      · rw [← Option.some.inj hselect]
    constructor
    case consistent =>
      change result.flowHash = headerHash (viewOf pkt h.1).l3Hdr pkt
      rw [hhash, flowHash_viewOf]
    all_goals rfl

/-- The frame of the sample packet, on CPU 3 at the first nanosecond. -/
theorem kernelFrame_read_samplePacket :
  FaithfulFormat
    ∧ ∃ view result frame,
      frameOf (buildFrame 3 view result 1).bytes = some frame
        ∧ ReadBack samplePacket view result 3 1 frame
  := by
  have hview : inspect samplePacket
      = .ok (some (viewOf samplePacket accepted_samplePacket.1)) := by
    rw [inspect_eq, dif_pos accepted_samplePacket]
  have hselect := congrArg Prod.fst
    (select_of_passed (denyCheck_allowAll (viewOf samplePacket accepted_samplePacket.1).flowHash)
      PpsCounters.zero)
  rw [if_neg (by decide)] at hselect
  obtain ⟨hformat, frame, hframe, hread⟩ := kernelFrame_read hview hselect 3 1
  exact ⟨hformat, _, _, frame, hframe, hread⟩

end Pipeline
