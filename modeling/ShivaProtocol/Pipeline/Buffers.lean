import ShivaProtocol.Pipeline.Ordering
import ShivaProtocol.Pipeline.Refinement

/-!
# Buffers

Three buffers hold the frames in flight: the ring has room for 3640 frames, the batch for 256 and
the dispatch channel for 1024.  If the calls of `ring_output` find room exactly if there is room, no
more than 4920 frames are ever in flight, and a frame is lost for one of three reasons only: it is
outputted while the ring is full, it is handed on while the channel is full, or it is older than a
frame taken before it (`buffers`).
-/

open SgCommon SgEbpf SgCapture

namespace Pipeline

/-- The calls of `ring_output` find room exactly if there is room on the ring. -/
def Process.RoomAnswered (p : Process) : ProcessAction → Prop
  | .kernel a => Pipeline.RoomAnswered p.system (.kernel a)
  | _ => True

/-- The ring holds at most 3640 frames. -/
theorem waiting_le {as : List ProcessAction} {p : Process}
    (h : process.run process.init as = some p)
    (hmeets : process.Meets Process.RoomAnswered process.init as) :
  p.system.waiting ≤ 3640
  := by
  apply hmeets.invariant (P := fun p => p.system.waiting ≤ 3640) _ (Nat.zero_le _) h
  intro p a q hok ih hst
  cases processStep_of_step hst with
  | @kernel a s hsystem _ =>
      cases a with
      | output cpu room =>
          cases systemStep_of_step hsystem with
          | kernel hkernel =>
              have hanswered : room = ringHasRoom p.system.waiting := hok
              rw [ringHasRoom_eq] at hanswered
              cases kernelStep_of_step hkernel with
              | @output _ frame _ _ =>
                  cases room with
                  | true =>
                      have hlt := of_decide_eq_true hanswered.symm
                      simp only [System.waiting, Kernel.emit, ringOutput, if_true,
                        List.length_append, List.length_singleton] at hlt ⊢
                      omega
                  | false => apply ih
      | _ =>
          rw [waiting_step hsystem (by simp)]
          apply ih
  | worker hsystem _ _ =>
      cases systemStep_of_step hsystem with
      | @worker _ _ n _ hring =>
          have hmono := (ringStep_mono hring).1
          simp only [System.waiting] at ih ⊢
          omega
  | _ => apply ih

/-- The batch holds at most `batchSize` frames. -/
theorem length_pending_le (w : Worker) :
  w.pending.length ≤ batchSize
  := by
  have hle := w.batch.length_le
  rw [Worker.pending]
  split
  · rw [List.length_tail]
    omega
  · apply hle

/-- Why a step may add to the losses of each kind. -/
structure Justified (p : Process) (a : ProcessAction) (q : Process) : Prop where
  ring : q.system.kernel.lost ≠ p.system.kernel.lost →
    (∃ cpu, a = .kernel (.output cpu false)) ∧ p.system.waiting = 3640
  channel : q.system.worker.results .full ≠ p.system.worker.results .full →
    a = .worker (.trySend .full) ∧ p.channel.queue.length = 1024
  timestamp : q.system.worker.drops ≠ p.system.worker.drops →
    ∃ frame, p.system.kernel.committed[p.system.consumed]? = some frame
      ∧ a = .worker (.next (some frame.bytes))
      ∧ frame.timestampNs < p.system.worker.lastTsNs

/-- A step that loses nothing. -/
theorem Justified.of_eq {p q : Process} {a : ProcessAction}
    (hlost : q.system.kernel.lost = p.system.kernel.lost)
    (hworker : q.system.worker.log = p.system.worker.log) :
  Justified p a q
  := by
  constructor
  · intro hne
    cases hne hlost
  · intro hne
    rw [Worker.results, hworker] at hne
    cases hne rfl
  · intro hne
    rw [Worker.drops, hworker] at hne
    cases hne rfl

/-- The kernel program loses a frame when the ring is full. -/
theorem justified_kernel {p q : Process} {a : KernelAction} (hle : p.system.waiting ≤ 3640)
    (hok : p.RoomAnswered (.kernel a)) (h : process.step p (.kernel a) = some q) :
  Justified p (.kernel a) q
  := by
  cases processStep_of_step h with
  | kernel hsystem _ =>
      cases systemStep_of_step hsystem with
      | kernel hkernel =>
          cases kernelStep_of_step hkernel with
          | accepted _ _ _ _ _ => exact Justified.of_eq (Kernel.lost_accept _ _ _ _ _) rfl
          | @output cpu frame room _ =>
              cases room with
              | true => exact Justified.of_eq (Kernel.lost_emit _ _ _ _) rfl
              | false =>
                  have hanswered : false = ringHasRoom p.system.waiting := hok
                  rw [ringHasRoom_eq] at hanswered
                  have hge := of_decide_eq_false hanswered.symm
                  refine ⟨fun _ => ⟨⟨cpu, rfl⟩, ?_⟩, fun hne => absurd rfl hne,
                    fun hne => absurd rfl hne⟩
                  omega
          | _ => exact Justified.of_eq rfl rfl

/-- An item that the worker takes is a frame committed. -/
theorem committed_of_next {p q : Process} {raw : List UInt8} (hp : process.Reachable p)
    (h : process.step p (.worker (.next (some raw))) = some q) :
  ∃ frame, p.system.kernel.committed[p.system.consumed]? = some frame ∧ raw = frame.bytes
  := by
  cases processStep_of_step h with
  | worker hsystem _ _ =>
      cases systemStep_of_step hsystem with
      | worker _ hring =>
          have hitem := (Option.ite_none_right_eq_some.mp hring).1
          rw [ring_eq_committed (system_reachable hp), List.getElem?_map] at hitem
          obtain ⟨frame, hframe, hbytes⟩ := Option.map_eq_some_iff.mp hitem.symm
          exact ⟨frame, hframe, hbytes.symm⟩

/-- A frame finds the channel full only when it is full. -/
theorem full_of_step {p q : Process} (h : process.step p (.worker (.trySend .full)) = some q) :
  p.channel.queue.length = 1024
  := by
  cases processStep_of_step h with
  | worker _ hchannel _ =>
      rw [channelStep] at hchannel
      split at hchannel
      · rcases Channel.trySend_cases hchannel with ⟨hok, -⟩ | ⟨-, hlen, -⟩ | ⟨hgone, -⟩
        · cases hok
        · apply hlen
        · cases hgone
      · cases hchannel

/-- The worker loses a frame that is too old, or for which the channel has no room. -/
theorem justified_worker {p q : Process} {a : WorkerAction} (hp : process.Reachable p)
    (h : process.step p (.worker a) = some q) :
  Justified p (.worker a) q
  := by
  obtain ⟨-, hkernel, hworker⟩ := frame_of_step_worker h
  have hlost : q.system.kernel.lost = p.system.kernel.lost := by rw [hkernel]
  generalize hw : q.system.worker = w at hworker
  cases workerStep_of_step hworker with
  | @item left raw _ =>
      obtain ⟨frame, hcommitted, rfl⟩ := committed_of_next hp h
      rcases validate_cases p.system.worker frame.bytes with
        ⟨reason, hrejected, hdrop⟩ | ⟨_, -, -, hpush⟩
      · refine ⟨fun hne => absurd hlost hne, fun hne => ?_, fun _ => ⟨frame, hcommitted, rfl, ?_⟩⟩
        · rw [hw, hdrop, Worker.results_concat rfl] at hne
          exact absurd rfl hne
        · cases hrejected with
          | size hnone => cases hnone.symm.trans (frameOf_bytes frame)
          | regression hframe hlt =>
              cases hframe.symm.trans (frameOf_bytes frame)
              apply hlt
      · refine ⟨fun hne => absurd hlost hne, fun hne => ?_, fun hne => ?_⟩
        · rw [hw, hpush, Worker.results_concat rfl] at hne
          exact absurd rfl hne
        · rw [hw, hpush, Worker.drops_concat rfl] at hne
          exact absurd rfl hne
  | @trySend frame rest result _ _ =>
      refine ⟨fun hne => absurd hlost hne, fun hne => ?_, fun hne => ?_⟩
      · cases result with
        | full => exact ⟨rfl, full_of_step h⟩
        | _ =>
            rw [hw, Worker.results_concat rfl] at hne
            exact absurd rfl hne
      · rw [hw, Worker.drops_concat rfl] at hne
        exact absurd rfl hne
  | _ => exact Justified.of_eq hlost (by rw [hw])

/-- A step with an answered ring loses a frame for one of the three reasons. -/
theorem justified_step {p q : Process} {a : ProcessAction} (hp : process.Reachable p)
    (hle : p.system.waiting ≤ 3640) (hok : p.RoomAnswered a) (h : process.step p a = some q) :
  Justified p a q
  := by
  cases processStep_of_step h with
  | kernel _ _ => apply justified_kernel hle hok h
  | worker _ _ _ => apply justified_worker hp h
  | _ => exact Justified.of_eq rfl rfl

/-- In every run in which the ring is answered, at most 3640 frames are on the ring, 256 in the
batch and 1024 in the channel, so at most 4920 in flight; and every step that loses a frame loses it
for one of the three reasons. -/
theorem buffers {as : List ProcessAction} {p : Process} (h : process.run process.init as = some p)
    (hmeets : process.Meets Process.RoomAnswered process.init as) :
  p.system.waiting ≤ 3640 ∧ p.system.worker.pending.length ≤ 256 ∧ p.channel.queue.length ≤ 1024
    ∧ p.inFlight.length ≤ 4920
    ∧ ∀ bs a cs q r, as = bs ++ a :: cs → process.run process.init bs = some q →
      process.step q a = some r → Justified q a r
  := by
  have hring := waiting_le h hmeets
  have hbatch : p.system.worker.pending.length ≤ 256 := length_pending_le p.system.worker
  have hchannel : p.channel.queue.length ≤ 1024 := p.channel.length_le
  refine ⟨hring, hbatch, hchannel, ?_, ?_⟩
  · rw [(waiting_eq (system_reachable ⟨as, h⟩)).1] at hring
    rw [Process.inFlight, List.length_append, List.length_append, List.length_drop]
    omega
  · intro bs a cs q r has hq hstep
    rw [has] at hmeets
    obtain ⟨hbs, hcs⟩ := hmeets.of_append
    apply justified_step ⟨bs, hq⟩ (waiting_le hq hbs) (hcs q hq).1 hstep

/-- The condition on a step can be computed. -/
instance (p : Process) (a : ProcessAction) : Decidable (p.RoomAnswered a) :=
  match a with
  | .kernel (.output _ room) => inferInstanceAs (Decidable (room = ringHasRoom p.system.waiting))
  | .kernel (.ingress _ _ _) | .kernel (.stamp _) | .kernel (.tick _) | .worker _ | .recv | .exit
  | .signal | .join | .detach _ => isTrue trivial

/-- In the run that leaves a frame behind, the ring has room for both frames. -/
theorem buffers_lateFrame :
  ∃ p, process.run process.init (lateFrame ++ [.detach true]) = some p ∧ p.system.waiting ≤ 3640
    ∧ p.inFlight.length ≤ 4920
  := by
  obtain ⟨p, h, -⟩ := run_lateFrame
  have hmeets : process.Meets Process.RoomAnswered process.init (lateFrame ++ [.detach true]) := by
    rw [LTS.meets_iff_trace]
    decide +kernel
  obtain ⟨hring, -, -, hall, -⟩ := buffers h hmeets
  exact ⟨p, h, hring, hall⟩

/-! ### No loss -/

/-- The ring has room for what is outputted, and the channel for what is handed on; and a CPU that
commits a frame has read the clock no earlier than those that have committed before it. -/
def Process.Unhindered (p : Process) : ProcessAction → Prop
  | .kernel a => a.isRefusal = false ∧ CommitsInOrder p.system (.kernel a)
  | .worker (.trySend _) => p.channel.queue.length < dispatchCapacity
  | _ => True

/-- Nothing is lost on the way to the ring and to the channel, and the frames are committed in the
order of their timestamps. -/
structure Lossless (p : Process) : Prop where
  lost : p.system.kernel.lost = 0
  full : p.system.worker.results .full = 0
  order : InOrder p.system.kernel.committed

theorem Lossless.step {p q : Process} {a : ProcessAction} (hp : process.Reachable p)
    (hl : Lossless p) (hok : p.Unhindered a) (h : process.step p a = some q) :
  Lossless q
  := by
  cases processStep_of_step h with
  | @kernel a s hsystem _ =>
      obtain ⟨hroom, horder⟩ := hok
      have horder' := (inOrder_step hsystem).mpr ⟨hl.order, horder⟩
      have hworker := worker_of_step_kernel hsystem
      cases systemStep_of_step hsystem with
      | kernel hkernel =>
          constructor
          · rw [lost_step hkernel, hl.lost, hroom]
            rfl
          · apply hl.full
          · apply horder'
  | @worker a s channel _ _ _ =>
      have hkernel := (frame_of_step_worker h).2.1
      constructor
      · rw [hkernel, hl.lost]
      · by_contra hne
        rw [← hl.full] at hne
        obtain ⟨ha, hlen⟩ := (justified_worker hp h).channel hne
        cases ha
        have hlt : p.channel.queue.length < 1024 := hok
        omega
      · rw [hkernel]
        apply hl.order
  | _ => exact ⟨hl.lost, hl.full, hl.order⟩

/-- If the frames are committed in the order of their timestamps, the worker drops nothing. -/
theorem drops_of_inOrder {p : Process} (hp : process.Reachable p)
    (horder : InOrder p.system.kernel.committed) :
  p.system.worker.drops = 0
  := by
  have hsystem := system_reachable hp
  have hdrained := drained (worker_reachable hsystem)
  have hnone := (regressions_eq_zero_iff hsystem).mpr (List.Pairwise.take horder)
  have hdrops := hdrained.drops
  have hregressions := hdrained.regressions
  have hframes := (frames_append hsystem).2
  omega

/-- In every run in which no buffer is full when a frame arrives and the frames are committed in
the order of their timestamps, every frame outputted is committed, and what the consumer has
received, followed by the frames in flight, is exactly what is committed. -/
theorem lossless {as : List ProcessAction} {p : Process} (h : process.run process.init as = some p)
    (hmeets : process.Meets Process.Unhindered process.init as) :
  p.system.kernel.lost = 0 ∧ p.channel.received ++ p.inFlight = p.system.kernel.committed
  := by
  have hp : process.Reachable p := ⟨as, h⟩
  have hlossless : process.Reachable p ∧ Lossless p := by
    apply hmeets.invariant (P := fun p => process.Reachable p ∧ Lossless p) _ _ h
    · rintro p a q hok ⟨hr, hl⟩ hst
      exact ⟨hr.step hst, hl.step hr hok hst⟩
    · exact ⟨LTS.Reachable.init process, rfl, rfl, List.Pairwise.nil⟩
  obtain ⟨hlost, hfull, horder⟩ := hlossless.2
  refine ⟨hlost, (received_inFlight_sublist hp).eq_of_length ?_⟩
  have hlength := length_received_inFlight hp
  rw [Process.losses, drops_of_inOrder hp horder, hfull] at hlength
  rw [List.length_append]
  apply hlength

/-- The frame an invocation is about to output. -/
def outgoing : Invocation → Option SignalFrame
  | .stamped frame => some frame
  | _ => none

theorem outgoing_eq_some (inv : Invocation) (frame : SignalFrame) :
  outgoing inv = some frame ↔ inv = .stamped frame
  := by
  cases inv <;> simp [outgoing]

/-- The order of the commits can be computed. -/
instance (s : System) (a : KernelAction) : Decidable (CommitsInOrder s (.kernel a)) :=
  match a with
  | .output cpu true =>
      decidable_of_iff
        (∀ frame ∈ outgoing (s.kernel.running cpu), ∀ earlier ∈ s.kernel.committed,
          timestamp earlier ≤ timestamp frame)
        (by simp only [Option.mem_def, outgoing_eq_some, CommitsInOrder])
  | .output _ false | .ingress _ _ _ | .stamp _ | .tick _ => isTrue trivial

instance (p : Process) (a : ProcessAction) : Decidable (p.Unhindered a) :=
  match a with
  | .kernel a =>
      inferInstanceAs (Decidable (a.isRefusal = false ∧ CommitsInOrder p.system (.kernel a)))
  | .worker (.trySend _) => inferInstanceAs (Decidable (p.channel.queue.length < dispatchCapacity))
  | .worker (.pin _) | .worker (.checkShutdown _) | .worker (.next _) | .worker .recordOk
  | .worker .yieldNow | .worker .ret | .recv | .exit | .signal | .join | .detach _ => isTrue trivial

/-- In the run that leaves a frame behind, the frame is in flight and none is lost. -/
theorem lossless_lateFrame :
  ∃ p, process.run process.init (lateFrame ++ [.detach true]) = some p
    ∧ p.channel.received = [] ∧ p.inFlight = p.system.kernel.committed
  := by
  obtain ⟨p, h, -, -, -, hreceived, -⟩ := run_lateFrame
  have hmeets : process.Meets Process.Unhindered process.init (lateFrame ++ [.detach true]) := by
    rw [LTS.meets_iff_trace]
    decide +kernel
  have hall := (lossless h hmeets).2
  rw [hreceived, List.nil_append] at hall
  exact ⟨p, h, hreceived, hall⟩

end Pipeline
