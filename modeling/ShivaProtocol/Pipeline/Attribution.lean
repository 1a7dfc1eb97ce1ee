import ShivaProtocol.Ebpf.Sequence
import ShivaProtocol.Pipeline.Shutdown

/-!
# The CPU of a frame

Every frame names the CPU that has built it, for userspace to route it by.  `build_ring_handles`
gives the one ring to worker 0, and the worker counts and dispatches every frame under its own id
without a look at that of the frame.  So the counters of every CPU count the frames of that CPU
exactly if all frames processed are frames of CPU 0 (`attributed_iff`).
-/

open SgCommon SgEbpf SgCapture

namespace Pipeline

/-- Whether a frame names a CPU. -/
def ofCpu (c : ℕ) (frame : SignalFrame) : Bool :=
  frame.cpuId.toNat = c

/-- The frames committed up to the position of the worker. -/
def Process.processed (p : Process) : List SignalFrame :=
  p.system.kernel.committed.take p.system.consumed

/-- The counters of every CPU count the frames that name it: those dispatched, those dropped, and
those refused by the channel, which together are all frames processed; and the channel of the
worker has been sent frames of its CPU only. -/
structure Attributed (p : Process) : Prop where
  ok : ∀ c, p.system.worker.metrics.framesOk.cell c
    = p.system.worker.accepted.countP (ofCpu c)
  dropped : ∀ c, p.system.worker.metrics.framesDropped.cell c
    = p.system.worker.droppedFrames.countP (ofCpu c)
  full : ∀ c, p.system.worker.metrics.channelFull.cell c
    = p.system.worker.refused.countP (ofCpu c)
  all : ∀ c, p.system.worker.metrics.framesOk.cell c + p.system.worker.metrics.framesDropped.cell c
    + p.system.worker.metrics.channelFull.cell c = p.processed.countP (ofCpu c)
  channel : ∀ frame ∈ p.channel.sent, frame.cpuId.toNat = p.system.worker.cpuId

theorem ofCpu_zero_iff (frame : SignalFrame) :
  ofCpu 0 frame = true ↔ frame.cpuId = 0
  := by
  rw [ofCpu, decide_eq_true_eq, ← UInt32.toNat_inj]
  rfl

/-- Frames that all name CPU 0. -/
theorem countP_ofCpu {frames : List SignalFrame} (h : ∀ frame ∈ frames, frame.cpuId = 0) (c : ℕ) :
  frames.countP (ofCpu c) = if c = 0 then frames.length else 0
  := by
  split
  · rename_i hc
    rw [hc, List.countP_eq_length]
    intro frame hframe
    apply (ofCpu_zero_iff frame).mpr (h frame hframe)
  · rename_i hc
    rw [List.countP_eq_zero]
    intro frame hframe hname
    rw [ofCpu, h frame hframe, decide_eq_true_eq] at hname
    apply hc hname.symm

section Processed

variable {p : Process} (hp : process.Reachable p) (hbatch : p.system.worker.batch.toList = [])

include hp

theorem frames_eq_processed :
  p.system.worker.frames = p.processed
  := frames_eq (system_reachable hp)

/-- Every item taken is the memory of a frame. -/
theorem isSome_frameOf_of_taken {raw : List UInt8} (h : raw ∈ p.system.worker.taken) :
  (frameOf raw).isSome = true
  := by
  have hsystem := system_reachable hp
  rw [(taken_eq hsystem).1, ring_eq_committed hsystem, ← List.map_take] at h
  obtain ⟨frame, -, rfl⟩ := List.mem_map.mp h
  rw [frameOf_bytes]
  rfl

include hbatch

/-- With an empty batch, the cells of worker 0 count the frames it has processed, and all other
cells are zero. -/
theorem cells_eq (c : ℕ) :
  p.system.worker.metrics.framesOk.cell c
      = (if c = 0 then p.system.worker.accepted.length else 0)
    ∧ p.system.worker.metrics.framesDropped.cell c
      = (if c = 0 then p.system.worker.droppedFrames.length else 0)
    ∧ p.system.worker.metrics.channelFull.cell c
      = (if c = 0 then p.system.worker.refused.length else 0)
  := by
  have hworker := worker_reachable (system_reachable hp)
  have hne : p.system.worker.phase ≠ .recording := fun h => (roomy hworker).hand h hbatch
  obtain ⟨⟨n, hn, haccepted⟩, hdropped, hfull⟩ := counted (by decide) hworker
  rw [inHand_of_ne hne, Nat.add_zero] at haccepted
  rw [haccepted, cpuId_eq hworker] at hn
  rw [cpuId_eq hworker, ← length_droppedFrames fun _ => isSome_frameOf_of_taken hp] at hdropped
  rw [cpuId_eq hworker, ← length_refused] at hfull
  exact ⟨hn c, hdropped c, hfull c⟩

/-- With an empty batch, every frame processed is dispatched, dropped or refused. -/
theorem length_processed :
  p.processed.length = p.system.worker.accepted.length + p.system.worker.droppedFrames.length
    + p.system.worker.refused.length
  := by
  have hsystem := system_reachable hp
  have hworker := worker_reachable hsystem
  have hconnected : p.system.worker.results .disconnected = 0 :=
    (delivering (delivery_reachable hp)).connected
  have hpending : p.system.worker.pending = [] := by
    rw [Worker.pending, hbatch, List.tail_nil, ite_self]
  have htaken : p.processed.length = p.system.worker.taken.length := by
    rw [(taken_eq hsystem).1, ring_eq_committed hsystem, ← List.map_take, List.length_map]
    rfl
  rw [htaken, taken_accounting hworker, hconnected, hpending,
    length_droppedFrames fun _ => isSome_frameOf_of_taken hp, length_refused]
  simp only [List.length_nil]
  omega

/-- The counters of every CPU count its frames exactly if all frames processed name CPU 0. -/
theorem attributed_iff_processed :
  Attributed p ↔ ∀ frame ∈ p.processed, frame.cpuId = 0
  := by
  have hworker := worker_reachable (system_reachable hp)
  have hlength := length_processed hp hbatch
  constructor
  · intro h
    obtain ⟨hok, hdropped, hfull⟩ := cells_eq hp hbatch 0
    rw [if_pos rfl] at hok hdropped hfull
    have hall : p.processed.countP (ofCpu 0) = p.processed.length := by
      rw [← h.all 0, hok, hdropped, hfull, hlength]
    intro frame hframe
    apply (ofCpu_zero_iff frame).mp
    apply List.countP_eq_length.mp hall frame hframe
  · intro h
    rw [← frames_eq_processed hp] at h
    have haccepted : ∀ frame ∈ p.system.worker.accepted, frame.cpuId = 0 := fun frame hframe =>
      h frame (handed_subset hworker (accepted_subset _ hframe))
    have hdropped : ∀ frame ∈ p.system.worker.droppedFrames, frame.cpuId = 0 :=
      fun frame hframe => h frame (droppedFrames_subset _ hframe)
    have hrefused : ∀ frame ∈ p.system.worker.refused, frame.cpuId = 0 := fun frame hframe =>
      h frame (handed_subset hworker (refused_subset _ hframe))
    have hcells := cells_eq hp hbatch
    constructor
    · intro c
      rw [(hcells c).1, countP_ofCpu haccepted]
    · intro c
      rw [(hcells c).2.1, countP_ofCpu hdropped]
    · intro c
      rw [(hcells c).2.2, countP_ofCpu hrefused]
    · intro c
      rw [frames_eq_processed hp] at h
      rw [(hcells c).1, (hcells c).2.1, (hcells c).2.2, countP_ofCpu h, hlength]
      split <;> rfl
    · intro frame hframe
      have hsent : p.channel.sent = p.system.worker.accepted :=
        (delivering (delivery_reachable hp)).sent
      rw [hsent] at hframe
      rw [haccepted frame hframe, cpuId_eq hworker]
      rfl

end Processed

/-! ### The CPUs that commit -/

/-- The CPU whose frame an action commits. -/
def ProcessAction.committer : ProcessAction → Option UInt32
  | .kernel a => a.committer
  | _ => none

theorem committers_process_step {p q : Process} {a : ProcessAction} (hp : process.Reachable p)
    (h : process.step p a = some q) :
  q.system.kernel.committed.map SignalFrame.cpuId
    = p.system.kernel.committed.map SignalFrame.cpuId ++ a.committer.toList
  := by
  have hkernel := kernel_reachable (system_reachable hp)
  cases processStep_of_step h with
  | kernel hsystem _ =>
      cases systemStep_of_step hsystem with
      | kernel hstep => apply committers_step hkernel hstep
  | worker hsystem _ _ =>
      cases systemStep_of_step hsystem with
      | worker _ _ => apply (List.append_nil _).symm
  | _ => apply (List.append_nil _).symm

/-- The frames committed name the CPUs that have committed them. -/
theorem committers_run {as : List ProcessAction} {p q : Process} (hp : process.Reachable p)
    (h : process.run p as = some q) :
  q.system.kernel.committed.map SignalFrame.cpuId
    = p.system.kernel.committed.map SignalFrame.cpuId ++ as.filterMap ProcessAction.committer
  := LTS.run_filterMap (fun _ _ _ => committers_process_step) hp h

/-- All frames committed name CPU 0 exactly if no other CPU has committed a frame. -/
theorem committed_zero_iff {as : List ProcessAction} {p : Process}
    (h : process.run process.init as = some p) :
  (∀ frame ∈ p.system.kernel.committed, frame.cpuId = 0)
    ↔ ∀ cpu, .kernel (.output cpu true) ∈ as → cpu = 0
  := by
  have hcommitters : p.system.kernel.committed.map SignalFrame.cpuId
      = as.filterMap ProcessAction.committer := committers_run (LTS.Reachable.init _) h
  have hmap : (∀ frame ∈ p.system.kernel.committed, frame.cpuId = 0)
      ↔ ∀ cpu ∈ p.system.kernel.committed.map SignalFrame.cpuId, cpu = 0 := by
    rw [List.forall_mem_map]
  rw [hmap, hcommitters]
  apply forall_congr'
  intro cpu
  apply imp_congr_left
  rw [List.mem_filterMap]
  constructor
  · rintro ⟨a, ha, hcommitter⟩
    cases a with
    | kernel a =>
        cases a with
        | output cpu' room =>
            cases room with
            | true =>
                obtain rfl := Option.some.inj hcommitter
                apply ha
            | false => cases hcommitter
        | _ => cases hcommitter
    | _ => cases hcommitter
  · intro hmem
    exact ⟨_, hmem, rfl⟩

/-- Whenever the batch of the worker is empty, in every run: the counters of every CPU count the
frames of that CPU, and the channel has been sent frames of its CPU only, exactly if all frames
processed name CPU 0.  This is so in every run in which only CPU 0 commits frames, and, once the
ring is empty, in no other. -/
theorem attributed_iff {as : List ProcessAction} {p : Process}
    (h : process.run process.init as = some p) (hbatch : p.system.worker.batch.toList = []) :
  (Attributed p ↔ ∀ frame ∈ p.processed, frame.cpuId = 0)
    ∧ ((∀ cpu, .kernel (.output cpu true) ∈ as → cpu = 0) → Attributed p)
    ∧ (p.system.waiting = 0 → Attributed p → ∀ cpu, .kernel (.output cpu true) ∈ as → cpu = 0)
  := by
  have hp : process.Reachable p := ⟨as, h⟩
  have hiff := attributed_iff_processed hp hbatch
  rw [← committed_zero_iff h]
  refine ⟨hiff, ?_, ?_⟩
  · intro hzero
    apply hiff.mpr
    intro frame hframe
    apply hzero frame (List.mem_of_mem_take hframe)
  · intro hempty hattributed
    obtain ⟨hwaiting, hle⟩ := waiting_eq (system_reachable hp)
    have hall : p.processed = p.system.kernel.committed := by
      apply List.take_of_length_le
      omega
    rw [← hall]
    apply hiff.mp hattributed

/-- A CPU commits one frame, and the worker dispatches it. -/
def soleFrame (cpu : UInt32) : List ProcessAction :=
  (invocation cpu DenyMap.allowAll true samplePacket).map .kernel
    ++ [.worker (.pin true), .worker (.checkShutdown false),
      .worker (.next (some (sampleFrame cpu 0).bytes)), .worker (.next none),
      .worker (.trySend .ok), .worker .recordOk, .worker .yieldNow]

/-- The frame of CPU 0 is attributed to it. -/
theorem attributed_soleFrame :
  ∃ p, process.run process.init (soleFrame 0) = some p ∧ p.system.worker.batch.toList = []
    ∧ Attributed p
  := by
  have hrun : (process.run process.init (soleFrame 0)).map
      (fun p => p.system.worker.batch.toList.length) = some 0 := by decide +kernel
  obtain ⟨p, h, hp⟩ := Option.map_eq_some_iff.mp hrun
  rw [List.length_eq_zero_iff] at hp
  refine ⟨p, h, hp, (attributed_iff h hp).2.1 ?_⟩
  intro cpu hmem
  simpa [soleFrame, invocation] using hmem

/-- The frame of CPU 1 is counted for CPU 0. -/
theorem misattributed_soleFrame :
  ∃ p, process.run process.init (soleFrame 1) = some p ∧ p.system.worker.batch.toList = []
    ∧ p.processed.map SignalFrame.cpuId = [1]
    ∧ p.system.worker.metrics.framesOk.cell 0 = 1 ∧ p.system.worker.metrics.framesOk.cell 1 = 0
    ∧ ¬ Attributed p
  := by
  have hrun : (process.run process.init (soleFrame 1)).map
      (fun p => (p.system.worker.batch.toList.length, p.processed.map SignalFrame.cpuId,
        p.system.worker.metrics.framesOk.cell 0, p.system.worker.metrics.framesOk.cell 1))
      = some (0, [1], 1, 0) := by decide +kernel
  obtain ⟨p, h, hp⟩ := Option.map_eq_some_iff.mp hrun
  simp only [Prod.mk.injEq, List.length_eq_zero_iff] at hp
  obtain ⟨hbatch, hprocessed, hzero, hone⟩ := hp
  refine ⟨p, h, hbatch, hprocessed, hzero, hone, ?_⟩
  intro hattributed
  have hall := (attributed_iff_processed ⟨_, h⟩ hbatch).mp hattributed
  have hname : ∀ cpu ∈ p.processed.map SignalFrame.cpuId, cpu = 0 := List.forall_mem_map.mpr hall
  rw [hprocessed] at hname
  cases hname 1 (List.mem_singleton_self 1)

end Pipeline
