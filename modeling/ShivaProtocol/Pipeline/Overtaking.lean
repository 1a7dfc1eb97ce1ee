import ShivaProtocol.Ebpf.Clock
import ShivaProtocol.Pipeline.Buffers
import ShivaProtocol.Pipeline.Provenance

/-!
# Overtaking

The timestamp check drops a frame exactly if it has been overtaken: a frame of another CPU, whose
timestamp is later, has been committed before it (`overtaken`).  A frame overtakes at most one frame
of every other CPU, so with `n` CPUs at most `n - 1` frames are dropped for each that is not
(`dropped_le`).  On a host on which packets arrive on one CPU only the check drops nothing, and
whatever is committed is received, in flight, or refused by the full channel (`soleCpu`).
-/

open SgCommon SgEbpf SgCapture

namespace Pipeline

/-- A frame is below the timestamp to which the worker compares the next frame exactly if it is
below that of a frame the worker has taken. -/
theorem lt_lastTsNs_iff {s : System} (hs : system.Reachable s) (frame : SignalFrame) :
  frame.timestampNs < s.worker.lastTsNs
    ↔ ∃ earlier ∈ s.kernel.committed.take s.consumed, frame.timestampNs < earlier.timestampNs
  := by
  have hlast : Ratchet.level timestamp 0 s.worker.frames = s.worker.lastTsNs.toNat :=
    (drained (worker_reachable hs)).level
  rw [← frames_eq hs, UInt64.lt_iff_toNat_lt, ← hlast]
  constructor
  · intro hlt
    have hlevel : Ratchet.level timestamp 0 s.worker.frames = 0
        ∨ ∃ earlier ∈ s.worker.frames,
          timestamp earlier = Ratchet.level timestamp 0 s.worker.frames :=
      Ratchet.level_eq_or_exists 0 s.worker.frames
    rcases hlevel with hzero | ⟨earlier, hearlier, hlevel⟩
    · rw [hzero] at hlt
      cases hlt
    · use earlier, hearlier
      rw [UInt64.lt_iff_toNat_lt]
      apply hlt.trans_eq hlevel.symm
  · rintro ⟨earlier, hearlier, hlt⟩
    have hle : timestamp earlier ≤ Ratchet.level timestamp 0 s.worker.frames :=
      Ratchet.key_le_level hearlier
    rw [UInt64.lt_iff_toNat_lt] at hlt
    apply hlt.trans_le hle

/-- A frame that is older than a frame committed before it is from another CPU. -/
theorem cpuId_ne_of_lt {k : Kernel} (hk : kernel.Reachable k) {n : ℕ} {frame earlier : SignalFrame}
    (hframe : k.committed[n]? = some frame) (hearlier : earlier ∈ k.committed.take n)
    (hlt : frame.timestampNs < earlier.timestampNs) :
  earlier.cpuId ≠ frame.cpuId
  := by
  intro hcpu
  have hsorted := (timed hk).sorted
  rw [← List.take_append_drop n k.committed, List.pairwise_append] at hsorted
  have hlater : frame ∈ k.committed.drop n := by
    apply List.mem_of_getElem? (i := 0)
    rw [List.getElem?_drop, Nat.add_zero, hframe]
  have hle := hsorted.2.2 earlier hearlier frame hlater hcpu
  rw [UInt64.lt_iff_toNat_lt] at hlt
  rw [UInt64.le_iff_toNat_le] at hle
  omega

/-- A worker that takes a frame below its timestamp drops it. -/
theorem drops_of_lt_lastTsNs {cpuId : ℕ} {w w' : Worker} {frame : SignalFrame}
    (h : (worker cpuId).step w (.next (some frame.bytes)) = some w')
    (hlt : frame.timestampNs < w.lastTsNs) :
  w'.drops = w.drops + 1
  := by
  cases workerStep_of_step h with
  | item _ =>
      rcases validate_cases w frame.bytes with ⟨reason, -, hvalid⟩ | ⟨valid, hvalid, hle, -⟩
      · have hlog : (w.validate frame.bytes).log = w.log ++ [.dropped frame.bytes reason] := by
          rw [hvalid]
          rfl
        apply Worker.drops_concat hlog
      · rw [frameOf_bytes] at hvalid
        obtain rfl := Option.some.inj hvalid
        cases UInt64.not_lt.mpr hle hlt

/-- In every reachable state, a step drops an item exactly if it takes a frame off the ring that has
been overtaken: a frame with a later timestamp has been committed before it.  Every frame that
overtakes the next frame of the ring is from another CPU. -/
theorem overtaken {p q : Process} {a : ProcessAction} (hp : process.Reachable p)
    (h : process.step p a = some q) :
  (q.system.worker.drops ≠ p.system.worker.drops
    ↔ ∃ frame, p.system.kernel.committed[p.system.consumed]? = some frame
      ∧ a = .worker (.next (some frame.bytes))
      ∧ ∃ earlier ∈ p.system.kernel.committed.take p.system.consumed,
        frame.timestampNs < earlier.timestampNs)
    ∧ ∀ frame, p.system.kernel.committed[p.system.consumed]? = some frame →
      ∀ earlier ∈ p.system.kernel.committed.take p.system.consumed,
        frame.timestampNs < earlier.timestampNs → earlier.cpuId ≠ frame.cpuId
  := by
  have hsystem := system_reachable hp
  refine ⟨⟨?_, ?_⟩, ?_⟩
  · intro hdrop
    cases processStep_of_step h with
    | kernel hkernel _ =>
        rw [worker_of_step_kernel hkernel] at hdrop
        cases hdrop rfl
    | worker _ _ _ =>
        obtain ⟨frame, hframe, ha, hlt⟩ := (justified_worker hp h).timestamp hdrop
        obtain ⟨earlier, hearlier, hlater⟩ := (lt_lastTsNs_iff hsystem frame).mp hlt
        exact ⟨frame, hframe, ha, earlier, hearlier, hlater⟩
    | _ => cases hdrop rfl
  · rintro ⟨frame, -, rfl, earlier, hearlier, hlater⟩
    have hlt := (lt_lastTsNs_iff hsystem frame).mpr ⟨earlier, hearlier, hlater⟩
    cases processStep_of_step h with
    | worker hworker _ _ =>
        cases systemStep_of_step hworker with
        | worker hstep _ =>
            have hdrops := drops_of_lt_lastTsNs hstep hlt
            simp only [hdrops]
            omega
  · intro frame hframe earlier hearlier hlater
    apply cpuId_ne_of_lt (kernel_reachable hsystem) hframe hearlier hlater

/-- CPU 0 reads the clock before CPU 1, and commits its frame after it. -/
def overtakingRun : List ProcessAction :=
  crossingRun.map .kernel
    ++ [.worker (.pin true), .worker (.checkShutdown false),
      .worker (.next (some (sampleFrame 1 2).bytes))]

/-- The frame of CPU 0 is dropped, and CPU 1 has overtaken it. -/
theorem overtaken_overtakingRun :
  ∃ p q, process.run process.init overtakingRun = some p
    ∧ process.step p (.worker (.next (some (sampleFrame 0 1).bytes))) = some q
    ∧ q.system.worker.drops = 1
    ∧ ∃ frame earlier : SignalFrame,
      p.system.kernel.committed[p.system.consumed]? = some frame
      ∧ frame.timestampNs < earlier.timestampNs ∧ earlier.cpuId ≠ frame.cpuId
  := by
  have hrun : ((process.run process.init overtakingRun).bind fun p =>
      (process.step p (.worker (.next (some (sampleFrame 0 1).bytes)))).map fun q =>
        (p.system.worker.drops, q.system.worker.drops)) = some (0, 1) := by decide +kernel
  obtain ⟨p, hp, hmap⟩ := Option.bind_eq_some_iff.mp hrun
  obtain ⟨q, hq, heq⟩ := Option.map_eq_some_iff.mp hmap
  obtain ⟨hnone, hone⟩ := Prod.mk.inj heq
  have hdrop : q.system.worker.drops ≠ p.system.worker.drops := by
    rw [hnone, hone]
    decide
  obtain ⟨hdrops, hothers⟩ := overtaken ⟨_, hp⟩ hq
  obtain ⟨frame, hframe, -, earlier, hearlier, hlt⟩ := hdrops.mp hdrop
  exact ⟨p, q, hp, hq, hone, frame, earlier, hframe, hlt, hothers frame hframe earlier hearlier hlt⟩

/-- The counter of the frames dropped counts the calls of `record_drop`. -/
theorem framesDropped_eq {p : Process} (hp : process.Reachable p) :
  p.system.worker.metrics.framesDropped.total = p.system.worker.drops
  := by
  have hworker := worker_reachable (system_reachable hp)
  obtain ⟨-, hdropped, -⟩ := counted (by decide) hworker
  rw [cpuId_eq hworker] at hdropped
  apply hdropped.total (by decide)

/-! ### Several CPUs -/

/-- With `n` CPUs, a frame is committed before at most `n - 1` older ones. -/
theorem bounded_committed {k : Kernel} (hk : kernel.Reachable k) {cpus : Finset UInt32}
    (h : Confined cpus k) :
  Ratchet.Bounded timestamp (cpus.card - 1) k.committed
  := by
  intro pre frame post hsplit
  have hlength : (passed frame post).length
      = post.countP (fun f => timestamp f < timestamp frame) + 1 := by
    rw [passed, List.length_cons, List.length_map, List.countP_eq_length_filter]
    congr 2
  have hcard : (passed frame post).length ≤ cpus.card := by
    rw [← List.toFinset_card_of_nodup ((overtaking hk).nodup pre frame post hsplit)]
    apply Finset.card_le_card
    intro c hc
    rw [List.mem_toFinset, passed, List.mem_cons, List.mem_map] at hc
    have hframe : frame ∈ k.committed := by simp [hsplit]
    rcases hc with rfl | ⟨f, hf, rfl⟩
    · apply h.committed frame hframe
    · apply h.committed f
      simp [hsplit, (List.mem_filter.mp hf).1]
  omega

/-- In every run of the process in which packets arrive on `n` CPUs, at most `n - 1` frames are
dropped for each that is not: for each that the consumer has received, that waits in the channel or
in the batch, or that `channel_full` counts. -/
theorem dropped_le {as : List ProcessAction} {p : Process} {cpus : Finset UInt32}
    (h : process.run process.init as = some p) (has : ArrivesOn cpus (kernelActions as)) :
  p.system.worker.metrics.framesDropped.total
    ≤ (cpus.card - 1) * (p.channel.received.length + p.channel.queue.length
      + p.system.worker.pending.length + p.system.worker.metrics.channelFull.total)
  := by
  have hp : process.Reachable p := ⟨as, h⟩
  have hsystem := system_reachable hp
  have hdrained := drained (worker_reachable hsystem)
  have hbounded := bounded_committed (kernel_reachable hsystem)
    (confined (run_kernelActions h) has)
  rw [← List.take_append_drop p.system.consumed p.system.kernel.committed, ← frames_eq hsystem]
    at hbounded
  have hbound : p.system.worker.frames.length
      ≤ 0 + (cpus.card - 1 + 1) * (Ratchet.keep timestamp 0 p.system.worker.frames).length := by
    apply hbounded.of_append.length_le
    apply Nat.le_of_eq
    apply List.countP_eq_zero.mpr
    simp
  rw [hdrained.kept, Nat.zero_add, Nat.succ_mul] at hbound
  have hdrops := hdrained.drops
  have hframes := (frames_append hsystem).2
  have hkept : (p.system.worker.handed ++ p.system.worker.pending).length
      = p.channel.received.length + p.channel.queue.length + p.system.worker.pending.length
        + p.system.worker.metrics.channelFull.total := by
    have hconsumed := congrArg List.length (frames_eq hsystem)
    have hle := (waiting_eq hsystem).2
    have hlength := length_received_inFlight hp
    rw [losses_eq hp, framesDropped_eq hp, Process.inFlight, List.length_append, List.length_append,
      List.length_drop] at hlength
    rw [List.length_take, Nat.min_eq_left hle] at hconsumed
    omega
  rw [framesDropped_eq hp, ← hkept]
  omega

/-- Of the two frames, one is dropped. -/
theorem dropped_le_overtakingRun :
  ∃ p, process.run process.init
      (overtakingRun ++ [.worker (.next (some (sampleFrame 0 1).bytes))]) = some p
    ∧ p.system.worker.metrics.framesDropped.total = 1
    ∧ 1 ≤ p.channel.received.length + p.channel.queue.length + p.system.worker.pending.length
      + p.system.worker.metrics.channelFull.total
  := by
  have hrun : (process.run process.init
      (overtakingRun ++ [.worker (.next (some (sampleFrame 0 1).bytes))])).map
        (fun p => p.system.worker.drops) = some 1 := by decide +kernel
  obtain ⟨p, hp, hdrops⟩ := Option.map_eq_some_iff.mp hrun
  have harrives : ArrivesOn {0, 1} (kernelActions
      (overtakingRun ++ [.worker (.next (some (sampleFrame 0 1).bytes))])) := by
    intro cpu pkt denyMap hmem
    have hactions : kernelActions
        (overtakingRun ++ [.worker (.next (some (sampleFrame 0 1).bytes))]) = crossingRun := rfl
    rw [hactions] at hmem
    simp only [crossingRun, List.mem_cons, KernelAction.ingress.injEq, reduceCtorEq,
      List.not_mem_nil, or_false, false_or] at hmem
    rcases hmem with ⟨rfl, -⟩ | ⟨rfl, -⟩
    · decide
    · decide
  have hle := dropped_le hp harrives
  have hone : p.system.worker.metrics.framesDropped.total = 1 := by
    rw [framesDropped_eq ⟨_, hp⟩, hdrops]
  refine ⟨p, hp, hone, ?_⟩
  have hcard : ({0, 1} : Finset UInt32).card = 2 := by decide
  rw [hone, hcard] at hle
  omega

/-! ### One CPU -/

/-- The frames of one CPU are in the order of their timestamps. -/
theorem inOrder_of_confined {k : Kernel} (hk : kernel.Reachable k) {c : UInt32}
    (h : Confined {c} k) :
  InOrder k.committed
  := by
  apply (timed hk).sorted.imp_of_mem
  intro a b ha hb hle
  have hcpu : a.cpuId = b.cpuId := by
    rw [Finset.mem_singleton.mp (h.committed a ha), Finset.mem_singleton.mp (h.committed b hb)]
  apply UInt64.le_iff_toNat_le.mp (hle hcpu)

/-- In every run in which packets arrive on one CPU only, whatever the clock, the ring and the
channel do, the worker drops nothing: the frames committed are the frames received, those in flight,
and as many as `channel_full` counts. -/
theorem soleCpu {as : List ProcessAction} {p : Process} {c : UInt32}
    (h : process.run process.init as = some p) (has : ArrivesOn {c} (kernelActions as)) :
  p.system.worker.metrics.framesDropped.total = 0
    ∧ p.channel.received.length + p.inFlight.length + p.system.worker.metrics.channelFull.total
      = p.system.kernel.committed.length
  := by
  have hp : process.Reachable p := ⟨as, h⟩
  have horder := inOrder_of_confined (kernel_reachable (system_reachable hp))
    (confined (run_kernelActions h) has)
  have hnone : p.system.worker.metrics.framesDropped.total = 0 := by
    rw [framesDropped_eq hp, drops_of_inOrder hp horder]
  refine ⟨hnone, ?_⟩
  have hlength := length_received_inFlight hp
  have hlosses := losses_eq hp
  omega

/-- In the run with a gap packets arrive on CPU 0 only, and nothing is dropped. -/
theorem soleCpu_gapRun :
  ∃ p, process.run process.init gapRun = some p ∧ p.channel.received.length = 2
    ∧ p.system.worker.metrics.framesDropped.total = 0
  := by
  obtain ⟨p, h, hreceived, -⟩ := run_gapRun
  have harrives : ArrivesOn {0} (kernelActions gapRun) := by
    have hactions : kernelActions gapRun = [true, false, true].flatMap fun room =>
        invocation 0 DenyMap.allowAll room samplePacket := rfl
    intro cpu pkt denyMap hmem
    rw [hactions] at hmem
    obtain ⟨room, -, hmem⟩ := List.mem_flatMap.mp hmem
    simp_all [invocation]
  refine ⟨p, h, ?_, (soleCpu h harrives).1⟩
  rw [← List.length_map SignalFrame.ppsDelta, hreceived]
  rfl

end Pipeline
