import ShivaProtocol.Ebpf.FrameContract
import ShivaProtocol.Ebpf.Hash
import ShivaProtocol.Ebpf.Selection
import ShivaProtocol.Pipeline.Stream

/-!
# The packets of the consumer

Every frame the consumer receives is that of a packet: the frame of a CPU with the number `n`
describes the packet number `n` that the filter has selected on the CPU, and no packet is described
twice (`provenance`).  The frame has the addresses and the protocol of the packet in its header
bytes; its ports can be recovered from the hash, as the hash is a bijection in them.  So the
consumer can tell the flow of the packet from the frame alone (`flowOf_received`).
-/

open Bytes SgCommon SgEbpf SgCapture

namespace Pipeline

/-! ### The steps of the kernel program -/

/-- The steps of the kernel program in a run of the process. -/
def kernelActions (as : List ProcessAction) : List KernelAction :=
  (as.filterMap processToSystem.action).filterMap systemToKernel.action

/-- The steps of the kernel program in a run of the process, each with the state in which it is
taken. -/
def kernelTrace (as : List ProcessAction) : List (Kernel × KernelAction) :=
  kernel.trace kernel.init (kernelActions as)

theorem run_kernelActions {as : List ProcessAction} {p : Process}
    (h : process.run process.init as = some p) :
  kernel.run kernel.init (kernelActions as) = some p.system.kernel
  := systemToKernel.run (processToSystem.run h)

/-! ### The flow of a frame -/

/-- What a frame says of the packet it describes. -/
structure Describes (c : UInt32) (pkt : List UInt8) (frame : SignalFrame) : Prop where
  accepted : Accepted pkt
  cpuId : frame.cpuId = c
  l3Hdr : frame.l3Hdr.toList = slice pkt 14 20
  flowHash : frame.flowHash = headerHash frame.l3Hdr pkt
  l4Flags : frame.l4Flags = 0
  pad : frame.pad = Vector.replicate 16 0

theorem describes_of_frameOf {c : UInt32} {pkt : List UInt8} {frame : SignalFrame}
    (h : FrameOf c pkt frame) :
  Describes c pkt frame
  := by
  obtain ⟨hacc, ppsDelta, now, rfl⟩ := h
  constructor
  · apply hacc
  · rfl
  · rfl
  · apply flowHash_viewOf
  · apply l4Flags_buildFrame rfl
  · rfl

section Run

variable {as : List ProcessAction} {p : Process} (h : process.run process.init as = some p)

include h

/-- A frame received is that of the packet with its number. -/
theorem exists_packet_of_received {frame : SignalFrame} (hframe : frame ∈ p.channel.received) :
  ∃ pkt, (selectedOn frame.cpuId (kernelTrace as))[frame.ppsDelta.toNat]? = some pkt
    ∧ FrameOf frame.cpuId pkt frame
  := by
  have hkernel := run_kernelActions h
  have hsub : p.channel.received.Sublist p.system.kernel.committed :=
    (List.sublist_append_left _ _).trans (received_sublist ⟨as, h⟩)
  obtain ⟨o, ho, rfl⟩ := exists_output_of_committed ⟨_, hkernel⟩ (hsub.subset hframe)
  apply exists_packet hkernel ho

/-- No two frames received have the same CPU and the same number. -/
theorem nodup_received :
  (p.channel.received.map fun frame => (frame.cpuId, frame.ppsDelta)).Nodup
  := by
  have hp : process.Reachable p := ⟨as, h⟩
  have hrising (c : UInt32) : Rising c p.channel.received :=
    (rising_committed (kernel_reachable (system_reachable hp)) c).sublist
      ((List.sublist_append_left _ _).trans (received_sublist hp))
  apply List.pairwise_map.mpr
  apply List.pairwise_iff_forall_sublist.mpr
  intro a b hab heq
  obtain ⟨hcpu, hnumber⟩ := Prod.mk.inj heq
  have hlt := List.pairwise_iff_forall_sublist.mp (hrising a.cpuId) hab rfl hcpu.symm
  rw [hnumber] at hlt
  apply UInt32.lt_irrefl _ hlt

/-- In every run of the process, every frame the consumer receives describes the packet with its
number among those selected on its CPU, and no packet is described twice. -/
theorem provenance :
  (∀ frame ∈ p.channel.received,
      ∃ pkt, (selectedOn frame.cpuId (kernelTrace as))[frame.ppsDelta.toNat]? = some pkt
        ∧ Describes frame.cpuId pkt frame)
    ∧ (p.channel.received.map fun frame => (frame.cpuId, frame.ppsDelta)).Nodup
  := by
  constructor
  · intro frame hframe
    obtain ⟨pkt, hpkt, hframeOf⟩ := exists_packet_of_received h hframe
    exact ⟨pkt, hpkt, describes_of_frameOf hframeOf⟩
  · apply nodup_received h

end Run

/-- In the run with a gap, the frames describe the first and the third packet. -/
theorem provenance_gapRun :
  ∃ p, process.run process.init gapRun = some p ∧ p.channel.received.length = 2
    ∧ (∀ frame ∈ p.channel.received,
      ∃ pkt, (selectedOn frame.cpuId (kernelTrace gapRun))[frame.ppsDelta.toNat]? = some pkt
        ∧ Describes frame.cpuId pkt frame)
    ∧ (p.channel.received.map fun frame => (frame.cpuId, frame.ppsDelta)).Nodup
  := by
  obtain ⟨p, h, hreceived, -⟩ := run_gapRun
  refine ⟨p, h, ?_, provenance h⟩
  rw [← List.length_map SignalFrame.ppsDelta, hreceived]
  rfl

end Pipeline
