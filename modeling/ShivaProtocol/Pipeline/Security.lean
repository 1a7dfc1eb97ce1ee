import ShivaProtocol.Ebpf.Isolation
import ShivaProtocol.Ebpf.Security
import ShivaProtocol.Pipeline.Provenance

/-!
# What reaches the consumer

Once the deny list denies some flows, the consumer receives no frame of these flows except for those
committed before, and those of invocations under way when the denial begins (`denied_frames`).  And
nothing in the process depends on the bytes of a packet that the parser does not look at: a run in
which these are blanked leads to the same state (`redacted`).
-/

open SgCommon SgEbpf SgCapture

namespace Pipeline

/-- Suppose that from some state of a run on all packets meet a deny map that denies some flows.
Then no more frames of these flows are committed than there are invocations about them under way in
that state; so the consumer receives at most these, and the frames committed before. -/
theorem denied_frames {as bs : List ProcessAction} {p q : Process} {flows : UInt64 → Bool}
    (hp : process.run process.init as = some p) (hq : process.run p bs = some q)
    (hdeny : Denies flows (kernelActions bs)) :
  q.system.kernel.committed.countP (isOf flows) + (q.system.kernel.underway flows).card
      ≤ p.system.kernel.committed.countP (isOf flows) + (p.system.kernel.underway flows).card
    ∧ q.channel.received.countP (isOf flows)
      ≤ p.system.kernel.committed.countP (isOf flows) + (p.system.kernel.underway flows).card
  := by
  have hrun : kernel.run p.system.kernel (kernelActions bs) = some q.system.kernel :=
    systemToKernel.run (processToSystem.run hq)
  have hcommitted := committed_add_underway_le hdeny hrun
  have hreceived : q.channel.received.Sublist q.system.kernel.committed :=
    (List.sublist_append_left _ _).trans (received_sublist ⟨_, LTS.run_trans hp hq⟩)
  have hle := hreceived.countP_le (p := isOf flows)
  refine ⟨hcommitted, ?_⟩
  omega

/-- A packet on CPU 0 is committed, and one on CPU 1 is under way. -/
def beforeDenial : List ProcessAction :=
  (invocation 0 DenyMap.allowAll true samplePacket
    ++ [KernelAction.ingress 1 samplePacket DenyMap.allowAll]).map .kernel

/-- Now all flows are denied; another packet on CPU 0 is refused, and CPU 1 commits its frame. -/
def afterDenial : List ProcessAction :=
  [KernelAction.ingress 0 samplePacket DenyMap.denyAll, .stamp 1, .output 1 true].map .kernel

theorem denies_afterDenial :
  Denies (fun _ => true) (kernelActions afterDenial)
  := by
  intro cpu pkt denyMap hmem flowHash _
  have hactions : kernelActions afterDenial
      = [.ingress 0 samplePacket DenyMap.denyAll, .stamp 1, .output 1 true] := rfl
  rw [hactions] at hmem
  obtain ⟨-, -, rfl⟩ : cpu = 0 ∧ pkt = samplePacket ∧ denyMap = DenyMap.denyAll := by
    simpa using hmem
  apply denyCheck_eq

/-- The second frame is that of the invocation under way. -/
theorem denied_frames_afterDenial :
  ∃ p q, process.run process.init beforeDenial = some p ∧ process.run p afterDenial = some q
    ∧ p.system.kernel.committed.length = 1 ∧ q.system.kernel.committed.length = 2
    ∧ (p.system.kernel.underway fun _ => true).card ≠ 0
  := by
  have hrun : ((process.run process.init beforeDenial).bind fun p =>
      (process.run p afterDenial).map fun q =>
        (p.system.kernel.committed.length, q.system.kernel.committed.length)) = some (1, 2) := by
    decide +kernel
  obtain ⟨p, hp, hmap⟩ := Option.bind_eq_some_iff.mp hrun
  obtain ⟨q, hq, heq⟩ := Option.map_eq_some_iff.mp hmap
  obtain ⟨hone, htwo⟩ := Prod.mk.inj heq
  have hbound := (denied_frames hp hq denies_afterDenial).1
  have hall (frames : List SignalFrame) : frames.countP (isOf fun _ => true) = frames.length :=
    List.countP_eq_length.mpr fun _ _ => rfl
  rw [hall, hall, hone, htwo] at hbound
  refine ⟨p, q, hp, hq, hone, htwo, ?_⟩
  omega

/-! ### Redacted packets -/

/-- An action of the process with its packet redacted. -/
def ProcessAction.redact : ProcessAction → ProcessAction
  | .kernel a => .kernel a.redact
  | a => a

theorem processStep_redact (p : Process) (a : ProcessAction) :
  process.step p a.redact = process.step p a
  := by
  cases a with
  | kernel a =>
      have hkernel : p.system.kernel.step a.redact = p.system.kernel.step a :=
        step_redact p.system.kernel a
      have hhook : hookAllows p.attached a.redact = hookAllows p.attached a := by
        cases a <;> rfl
      simp only [process, ProcessAction.redact, Process.step, System.step, hkernel, hhook]
  | _ => rfl

/-- Two runs of the process from the same state, in which the packets agree in what the parser looks
at, lead to the same state: the same items on the ring, the same frames received, the same counters.
-/
theorem redacted {as bs : List ProcessAction}
    (h : as.map ProcessAction.redact = bs.map ProcessAction.redact) (p : Process) :
  process.run p as = process.run p bs
  := by
  rw [← LTS.run_map processStep_redact, h, LTS.run_map processStep_redact]

/-- The sample packet from another link address, and with a payload. -/
def otherPacket : List UInt8 :=
  List.replicate 12 0xFF ++ samplePacket.drop 12 ++ [1, 2, 3]

theorem redacted_otherPacket :
  ∃ p, process.run process.init ((invocation 0 DenyMap.allowAll true samplePacket).map .kernel)
      = some p
    ∧ process.run process.init ((invocation 0 DenyMap.allowAll true otherPacket).map .kernel)
      = some p
    ∧ p.system.kernel.committed.length = 1
  := by
  have hrun : (process.run process.init
      ((invocation 0 DenyMap.allowAll true samplePacket).map .kernel)).map
        (fun p => p.system.kernel.committed.length) = some 1 := by decide +kernel
  obtain ⟨p, hp, hlength⟩ := Option.map_eq_some_iff.mp hrun
  have hredact : redact otherPacket = redact samplePacket := by decide
  use p, hp
  rw [← hp]
  refine ⟨redacted ?_ process.init, hlength⟩
  simp [invocation, ProcessAction.redact, KernelAction.redact, hredact]

end Pipeline
