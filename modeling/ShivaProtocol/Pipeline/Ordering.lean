import ShivaProtocol.Pipeline.System

/-!
# The timestamp check across CPUs

The worker compares the timestamp of every frame with that of the last valid one, whichever CPUs
they come from, while every CPU reads the clock some steps before it commits its frame.  The check
drops no frame exactly if the frames taken have been committed in the order of their timestamps
(`regressions_eq_zero_iff`), that is, if no CPU commits a frame after a frame with a later
timestamp (`keepsAll_iff_commitsInOrder`).
-/

open SgCommon SgEbpf SgCapture

namespace Pipeline

/-- Frames in the order of their timestamps. -/
def InOrder (frames : List SignalFrame) : Prop :=
  frames.Pairwise fun a b => timestamp a ≤ timestamp b

/-- The timestamp check has dropped no frame exactly if the frames taken have been committed in the
order of their timestamps. -/
theorem regressions_eq_zero_iff {s : System} (hs : system.Reachable s) :
  s.worker.regressions = 0 ↔ InOrder (s.kernel.committed.take s.consumed)
  := by
  have hdrained := drained (worker_reachable hs)
  have hbalance := hdrained.regressions
  rw [← hdrained.kept] at hbalance
  have hzero : s.worker.regressions = 0
      ↔ (Ratchet.keep timestamp 0 s.worker.frames).length = s.worker.frames.length := by omega
  rw [hzero, Ratchet.length_keep_eq_iff, Ratchet.keep_eq_self_iff, frames_eq hs, InOrder]
  constructor
  · intro h
    apply h.2
  · intro h
    exact ⟨fun _ _ => Nat.zero_le _, h⟩

/-- A CPU that commits a frame has read the clock no earlier than the CPUs that have committed a
frame before it. -/
def CommitsInOrder (s : System) : SystemAction → Prop
  | .kernel (.output cpu true) =>
      ∀ frame, s.kernel.running cpu = .stamped frame →
        ∀ earlier ∈ s.kernel.committed, timestamp earlier ≤ timestamp frame
  | _ => True

/-- A step keeps the frames committed in order exactly if it commits in order. -/
theorem inOrder_step {s s' : System} {a : SystemAction} (h : system.step s a = some s') :
  InOrder s'.kernel.committed ↔ InOrder s.kernel.committed ∧ CommitsInOrder s a
  := by
  cases systemStep_of_step h with
  | worker _ _ => exact (and_iff_left trivial).symm
  | kernel hkernel =>
      cases kernelStep_of_step hkernel with
      | foreign _ _ => exact (and_iff_left trivial).symm
      | denied _ _ _ => exact (and_iff_left trivial).symm
      | limited _ _ _ _ => exact (and_iff_left trivial).symm
      | accepted _ _ _ _ _ =>
          simp only [Kernel.committed_accept]
          exact (and_iff_left trivial).symm
      | stamp _ => exact (and_iff_left trivial).symm
      | tick _ => exact (and_iff_left trivial).symm
      | @output cpu frame room hst =>
          simp only [Kernel.committed_emit]
          cases room with
          | false =>
              rw [if_neg (by decide), List.append_nil]
              exact (and_iff_left trivial).symm
          | true =>
              rw [if_pos rfl, InOrder, List.pairwise_append]
              simp only [List.mem_singleton, forall_eq, List.pairwise_singleton, true_and]
              apply and_congr_right
              intro _
              constructor
              · intro hle frame' hst'
                cases hst.symm.trans hst'
                apply hle
              · intro hcommits
                apply hcommits frame hst

/-- A run keeps the frames committed in order exactly if all its steps commit in order. -/
theorem inOrder_run {as : List SystemAction} {s s' : System} (h : system.run s as = some s') :
  InOrder s'.kernel.committed
    ↔ InOrder s.kernel.committed ∧ system.Meets CommitsInOrder s as
  := by
  induction as generalizing s with
  | nil =>
      obtain rfl := Option.some.inj h
      exact (and_iff_left trivial).symm
  | cons a as ih =>
      obtain ⟨t, hstep, hrun⟩ := LTS.run_cons_some h
      rw [ih hrun, inOrder_step hstep, LTS.Meets, and_assoc]
      simp [hstep]

/-- In every run in which all CPUs commit in the order of their clock readings, the timestamp check
has dropped no frame; and once the worker has taken all frames, it has dropped none only in such
a run. -/
theorem keepsAll_iff_commitsInOrder {as : List SystemAction} {s : System}
    (h : system.run system.init as = some s) :
  (system.Meets CommitsInOrder system.init as → s.worker.regressions = 0)
    ∧ (s.consumed = s.kernel.ring.length → s.worker.regressions = 0 →
      system.Meets CommitsInOrder system.init as)
  := by
  have hreach : system.Reachable s := ⟨as, h⟩
  have hinit : InOrder system.init.kernel.committed := List.Pairwise.nil
  rw [regressions_eq_zero_iff hreach]
  constructor
  · intro hmeets
    apply List.Pairwise.take
    apply (inOrder_run h).mpr ⟨hinit, hmeets⟩
  · intro hall horder
    have hlen : s.consumed = s.kernel.committed.length := by rw [hall, length_ring hreach]
    rw [hlen, List.take_length] at horder
    apply ((inOrder_run h).mp horder).2

/-! ### Two CPUs that cross -/

/-- The view of the sample packet. -/
def sampleView : ProtoView :=
  viewOf samplePacket le_length_samplePacket

/-- The frame of the sample packet as the first packet of a CPU. -/
def sampleFrame (cpu : UInt32) (now : UInt64) : SignalFrame :=
  buildFrame cpu sampleView ⟨sampleView.flowHash, 0⟩ now

/-- CPU 0 reads the clock at 1 and CPU 1 at 2, and CPU 1 is the first to commit its frame. -/
def crossingRun : List KernelAction :=
  [.ingress 0 samplePacket DenyMap.allowAll, .tick 1, .stamp 0,
    .ingress 1 samplePacket DenyMap.allowAll, .tick 2, .stamp 1, .output 1 true, .output 0 true]

theorem run_crossingRun :
  ∃ k, kernel.run kernel.init crossingRun = some k
    ∧ k.committed = [sampleFrame 1 2, sampleFrame 0 1]
  := by
  apply Exists.intro
  constructor
  · rw [crossingRun, LTS.run_cons,
      step_ingress accepted_samplePacket rfl (denyCheck_allowAll _) (by decide),
      Option.bind_some, LTS.run_cons, step_tick (by decide), Option.bind_some, LTS.run_cons,
      step_stamp rfl, Option.bind_some, LTS.run_cons,
      step_ingress accepted_samplePacket rfl (denyCheck_allowAll _) (by decide),
      Option.bind_some, LTS.run_cons, step_tick (by decide), Option.bind_some, LTS.run_cons,
      step_stamp rfl, Option.bind_some, LTS.run_cons, step_output rfl, Option.bind_some,
      LTS.run_cons, step_output rfl, Option.bind_some, LTS.run_nil]
  · rfl

/-- The worker drops the frame of CPU 0, though each CPU has a single frame on the ring. -/
theorem crossingRun_dropped :
  ∃ (bs : List WorkerAction) (s : System),
    system.run system.init (crossingRun.map .kernel ++ bs.map .worker) = some s
      ∧ s.kernel.committed.map SignalFrame.cpuId = [1, 0] ∧ s.worker.regressions ≠ 0
  := by
  obtain ⟨k, hrun, hcommitted⟩ := run_crossingRun
  obtain ⟨bs, s, h, rfl, hall, -, -⟩ := exists_run_drain hrun fun _ => .ok
  use bs, s, h
  constructor
  · rw [hcommitted]
    rfl
  · intro hzero
    have horder := (regressions_eq_zero_iff ⟨_, h⟩).mp hzero
    rw [hall, length_ring ⟨_, h⟩, List.take_length, hcommitted, InOrder,
      List.pairwise_pair] at horder
    have hle : (2 : ℕ) ≤ 1 := horder
    omega

/-- On that run the check keeps all frames exactly if the CPUs commit in order, so they do not. -/
theorem keepsAll_iff_commitsInOrder_crossingRun :
  ∃ (bs : List WorkerAction) (s : System),
    system.run system.init (crossingRun.map .kernel ++ bs.map .worker) = some s
      ∧ s.kernel.committed.length = 2
      ∧ (system.Meets CommitsInOrder system.init (crossingRun.map .kernel ++ bs.map .worker)
        ↔ s.worker.regressions = 0)
  := by
  obtain ⟨k, hrun, hcommitted⟩ := run_crossingRun
  obtain ⟨bs, s, h, rfl, hall, -, -⟩ := exists_run_drain hrun fun _ => .ok
  have hkeeps := keepsAll_iff_commitsInOrder h
  use bs, s, h
  constructor
  · rw [hcommitted]
    rfl
  · constructor
    · apply hkeeps.1
    · apply hkeeps.2 hall

end Pipeline
