import ShivaProtocol.Library.LossyQueue
import ShivaProtocol.Capture.Fates
import ShivaProtocol.Pipeline.Attribution

/-!
# The pipeline as a lossy queue

From the ring to the consumer, the process is a lossy queue: a frame is submitted when it is
committed to the ring and delivered when the consumer receives it, and in between it waits on the
ring, in the batch or in the dispatch channel.  Every run of the process is a run of the queue
(`exists_lossyRun`), in which a loss is a recording in `frames_dropped` or in `channel_full`; the
steps that move a frame from one place to the next are not seen.
-/

open SgCommon SgEbpf SgCapture

namespace Pipeline

/-- The frames that wait in the dispatch channel, in the batch and on the ring. -/
def Process.inFlight (p : Process) : List SignalFrame :=
  p.channel.queue ++ p.system.worker.pending ++ p.system.kernel.committed.drop p.system.consumed

/-- The state of the lossy queue. -/
def Process.lossy (p : Process) : LossyQueue SignalFrame where
  inFlight := p.inFlight
  delivered := p.channel.received

/-- The recordings of a loss. -/
def Process.losses (p : Process) : ℕ :=
  p.system.worker.drops + p.system.worker.results .full

/-- A run of the queue from the one state to the other, in which the frames committed meanwhile
are submitted, and the frames whose loss is recorded meanwhile are lost. -/
structure LossyRun (p q : Process) (bs : List (LossyAction SignalFrame)) : Prop where
  run : (lossyQueue SignalFrame).run p.lossy bs = some q.lossy
  submitted : q.system.kernel.committed
    = p.system.kernel.committed ++ bs.filterMap LossyAction.submitted
  lost : q.losses = p.losses + bs.countP LossyAction.isLoss

/-- A step that the queue does not see. -/
theorem LossyRun.nil {p q : Process} (hinFlight : q.inFlight = p.inFlight)
    (hreceived : q.channel.received = p.channel.received)
    (hcommitted : q.system.kernel.committed = p.system.kernel.committed)
    (hlosses : q.losses = p.losses) :
  LossyRun p q []
  := by
  constructor
  · rw [LTS.run_nil, Process.lossy, Process.lossy, hinFlight, hreceived]
  · rw [hcommitted]
    apply (List.append_nil _).symm
  · apply hlosses

/-- The loss of the frame after `front`. -/
theorem LossyRun.lose {p q : Process} {front : List SignalFrame} (frame : SignalFrame)
    (back : List SignalFrame) (hp : p.inFlight = front ++ frame :: back)
    (hq : q.inFlight = front ++ back)
    (hreceived : q.channel.received = p.channel.received)
    (hcommitted : q.system.kernel.committed = p.system.kernel.committed)
    (hlosses : q.losses = p.losses + 1) :
  LossyRun p q [.lose front.length]
  := by
  constructor
  · rw [LTS.run_singleton]
    have hlt : front.length < p.inFlight.length := by
      rw [hp]
      simp
    have herase : p.inFlight.eraseIdx front.length = q.inFlight := by
      rw [hp, hq, List.eraseIdx_append_of_length_le (Nat.le_refl _), Nat.sub_self]
      rfl
    simp only [lossyQueue, LossyQueue.step, Process.lossy, if_pos hlt, herase, hreceived]
  · rw [hcommitted]
    apply (List.append_nil _).symm
  · apply hlosses

/-- A run followed by a run. -/
theorem LossyRun.trans {p q r : Process} {as bs : List (LossyAction SignalFrame)}
    (h : LossyRun p q as) (h' : LossyRun q r bs) :
  LossyRun p r (as ++ bs)
  := by
  constructor
  · apply LTS.run_trans h.run h'.run
  · rw [h'.submitted, h.submitted, List.filterMap_append, List.append_assoc]
  · rw [h'.lost, h.lost, List.countP_append, Nat.add_assoc]

/-! ### The kernel program -/

/-- A step of the kernel program commits at most one frame. -/
theorem committed_step {k k' : Kernel} {a : KernelAction} (h : kernel.step k a = some k') :
  k'.committed = k.committed ∨ ∃ frame, k'.committed = k.committed ++ [frame]
  := by
  cases kernelStep_of_step h with
  | accepted _ _ _ _ _ =>
      left
      apply Kernel.committed_accept
  | @output cpu frame room _ =>
      rw [Kernel.committed_emit]
      cases room with
      | true =>
          right
          use frame
          rfl
      | false =>
          left
          apply List.append_nil
  | _ =>
      left
      rfl

/-- What the kernel program commits is submitted. -/
theorem lossyRun_kernel {p : Process} {a : KernelAction} {k : Kernel} (hp : process.Reachable p)
    (h : kernel.step p.system.kernel a = some k) :
  ∃ bs, LossyRun p { p with system := { p.system with kernel := k } } bs
  := by
  have hle := (waiting_eq (system_reachable hp)).2
  rcases committed_step h with hsame | ⟨frame, hnew⟩
  · use []
    refine LossyRun.nil ?_ rfl hsame rfl
    simp only [Process.inFlight, hsame]
  · use [.submit frame]
    constructor
    · rw [LTS.run_singleton]
      have hinFlight : Process.inFlight { p with system := { p.system with kernel := k } }
          = p.inFlight ++ [frame] := by
        simp only [Process.inFlight, hnew, List.drop_append_of_le_length hle, List.append_assoc]
      simp only [lossyQueue, LossyQueue.step, Process.lossy, hinFlight]
    · apply hnew
    · rfl

/-! ### The worker -/

/-- The frames received and those in the channel are accepted by the channel. -/
theorem received_append_queue {p : Process} (hp : process.Reachable p) :
  p.channel.received ++ p.channel.queue = p.system.worker.accepted
  := by
  rw [p.channel.fifo]
  apply (delivering (delivery_reachable hp)).sent

/-- The frames the worker has taken and those it has not are the frames committed, and every item
taken is a frame. -/
theorem frames_append {s : System} (hs : system.Reachable s) :
  s.worker.frames ++ s.kernel.committed.drop s.consumed = s.kernel.committed
    ∧ s.worker.frames.length = s.worker.taken.length
  := by
  obtain ⟨htaken, hle⟩ := taken_eq hs
  constructor
  · rw [frames_eq hs, List.take_append_drop]
  · rw [frames_eq hs, htaken, ring_eq_committed hs, List.length_take, List.length_take,
      List.length_map]

/-- The worker receives nothing. -/
theorem received_of_channelStep {w : Worker} {channel channel' : DispatchChannel} {a : WorkerAction}
    (h : channelStep w channel a = some channel') :
  channel'.received = channel.received
  := by
  cases a with
  | trySend result =>
      rw [channelStep] at h
      split at h
      · rcases Channel.trySend_cases h with ⟨-, -, -, hreceived, -⟩ | ⟨-, -, rfl⟩ | ⟨-, -, rfl⟩
        · apply hreceived
        · rfl
        · rfl
      · cases h
  | _ =>
      obtain rfl := Option.some.inj h
      rfl

/-- What a step of the worker leaves as it is: the frames received and those committed. -/
theorem frame_of_step_worker {p q : Process} {a : WorkerAction}
    (h : process.step p (.worker a) = some q) :
  q.channel.received = p.channel.received ∧ q.system.kernel = p.system.kernel
    ∧ (worker 0).step p.system.worker a = some q.system.worker
  := by
  cases processStep_of_step h with
  | worker hsystem hchannel _ =>
      cases systemStep_of_step hsystem with
      | worker hworker _ => exact ⟨received_of_channelStep hchannel, rfl, hworker⟩

section Worker

variable {p q : Process} {a : WorkerAction} (hp : process.Reachable p)
  (h : process.step p (.worker a) = some q)

include hp h

/-- A step of the worker appends to the dispatch channel the frames it has accepted. -/
theorem queue_of_step_worker {new : List SignalFrame}
    (hnew : q.system.worker.accepted = p.system.worker.accepted ++ new) :
  q.channel.queue = p.channel.queue ++ new
  := by
  have hsent := received_append_queue (hp.step h)
  rw [(frame_of_step_worker h).1, hnew, ← received_append_queue hp, List.append_assoc] at hsent
  apply List.append_cancel_left hsent

/-- A step of the worker takes off the ring the frames it has seen. -/
theorem rest_of_step_worker {new : List SignalFrame}
    (hnew : q.system.worker.frames = p.system.worker.frames ++ new) :
  p.system.kernel.committed.drop p.system.consumed
    = new ++ q.system.kernel.committed.drop q.system.consumed
  := by
  have hframes' := (frames_append (system_reachable (hp.step h))).1
  rw [hnew, List.append_assoc] at hframes'
  have hcommitted : q.system.kernel.committed = p.system.kernel.committed := by
    rw [(frame_of_step_worker h).2.1]
  have hframes := (frames_append (system_reachable hp)).1
  apply List.append_cancel_left (hframes.trans (hcommitted.symm.trans hframes'.symm))

/-- A step of the worker that moves frames on. -/
theorem lossyRun_of_moved (new taken : List SignalFrame)
    (haccepted : q.system.worker.accepted = p.system.worker.accepted ++ new)
    (hframes : q.system.worker.frames = p.system.worker.frames ++ taken)
    (hpending : new ++ q.system.worker.pending = p.system.worker.pending ++ taken)
    (hlosses : q.losses = p.losses) :
  LossyRun p q []
  := by
  obtain ⟨hreceived, hkernel, -⟩ := frame_of_step_worker h
  apply LossyRun.nil _ hreceived _ hlosses
  · rw [Process.inFlight, Process.inFlight, queue_of_step_worker hp h haccepted,
      rest_of_step_worker hp h hframes, List.append_assoc _ new, hpending]
    simp only [List.append_assoc]
  · rw [hkernel]

/-- A step of the worker that loses a frame it has taken. -/
theorem lossyRun_of_lost {taken : List SignalFrame} (front : List SignalFrame) (frame : SignalFrame)
    (back : List SignalFrame)
    (haccepted : q.system.worker.accepted = p.system.worker.accepted)
    (hframes : q.system.worker.frames = p.system.worker.frames ++ taken)
    (hpending : p.system.worker.pending ++ taken = front ++ frame :: back)
    (hpending' : q.system.worker.pending = front ++ back) (hlosses : q.losses = p.losses + 1) :
  LossyRun p q [.lose (p.channel.queue ++ front).length]
  := by
  obtain ⟨hreceived, hkernel, -⟩ := frame_of_step_worker h
  have hqueue : q.channel.queue = p.channel.queue := by
    rw [queue_of_step_worker hp h (haccepted.trans (List.append_nil _).symm), List.append_nil]
  apply LossyRun.lose frame (back ++ q.system.kernel.committed.drop q.system.consumed) _ _ hreceived
    _ hlosses
  · rw [Process.inFlight, rest_of_step_worker hp h hframes, List.append_assoc,
      ← List.append_assoc p.system.worker.pending, hpending]
    simp only [List.append_assoc, List.cons_append]
  · rw [Process.inFlight, hqueue, hpending']
    simp only [List.append_assoc]
  · rw [hkernel]

end Worker

/-- An event of the worker adds to the losses if it drops an item or finds the channel full. -/
theorem losses_concat {p q : Process} {e : WorkerEvent}
    (hlog : q.system.worker.log = p.system.worker.log ++ [e]) :
  q.losses = p.losses + (e.isDrop.toNat + (e.hasResult .full).toNat)
  := by
  rw [Process.losses, Process.losses, Worker.drops_concat hlog, Worker.results_concat hlog]
  omega

/-- What the worker does to the frames it has taken, the queue loses or does not see. -/
theorem lossyRun_worker {p q : Process} {a : WorkerAction} (hp : process.Reachable p)
    (h : process.step p (.worker a) = some q) :
  ∃ bs, LossyRun p q bs
  := by
  have hq := hp.step h
  cases moves_of_step (worker_reachable (system_reachable hp)) (frame_of_step_worker h).2.2 with
  | quiet hlog hpending =>
      use []
      apply lossyRun_of_moved hp h [] []
      · rw [Worker.accepted, hlog, List.append_nil, Worker.accepted]
      · rw [Worker.frames, Worker.taken, hlog, List.append_nil, Worker.frames, Worker.taken]
      · rw [hpending, List.append_nil, List.nil_append]
      · rw [Process.losses, Process.losses, Worker.drops, Worker.results, hlog]
        rfl
  | @dropped raw reason hlog hpending =>
      have htaken : q.system.worker.taken = p.system.worker.taken ++ [raw] :=
        Worker.taken_concat hlog
      have hframes := frames_concat htaken
      -- every item of the ring is a frame
      obtain ⟨frame, hframe⟩ : ∃ frame, frameOf raw = some frame := by
        apply Option.isSome_iff_exists.mp
        apply isSome_frameOf_of_taken hq
        rw [htaken]
        apply List.mem_append_right _ (List.mem_singleton_self raw)
      rw [hframe] at hframes
      refine ⟨_, lossyRun_of_lost hp h _ frame [] ?_ hframes rfl ?_ (losses_concat hlog)⟩
      · apply (Worker.accepted_concat hlog).trans
        apply List.append_nil
      · rw [hpending, List.append_nil]
  | @pushed raw frame hlog hframe hpending =>
      have hframes := frames_concat (Worker.taken_concat hlog)
      rw [hframe] at hframes
      use []
      apply lossyRun_of_moved hp h _ _ (Worker.accepted_concat hlog) hframes hpending
        (losses_concat hlog)
  | @sent frame result hlog hpending =>
      have hframes : q.system.worker.frames = p.system.worker.frames ++ [] := by
        rw [Worker.frames, Worker.taken_concat hlog, List.append_nil, Worker.frames]
        apply congrArg (List.filterMap frameOf) (List.append_nil _)
      cases result with
      | ok =>
          use []
          apply lossyRun_of_moved hp h _ _ (Worker.accepted_concat hlog) hframes _
            (losses_concat hlog)
          rw [hpending, List.append_nil]
          rfl
      | full =>
          refine ⟨_, lossyRun_of_lost hp h [] frame _ ?_ hframes ?_ rfl
            (losses_concat hlog)⟩
          · apply (Worker.accepted_concat hlog).trans
            apply List.append_nil
          · rw [hpending, List.append_nil]
            rfl
      | disconnected =>
          have hconnected : q.system.worker.results .disconnected = 0 :=
            (delivering (delivery_reachable hq)).connected
          rw [Worker.results_concat hlog] at hconnected
          simp [WorkerEvent.hasResult] at hconnected

/-! ### The process -/

/-- A step of the process is a run of the queue. -/
theorem lossyRun_of_step {p q : Process} {a : ProcessAction} (hp : process.Reachable p)
    (h : process.step p a = some q) :
  ∃ bs, LossyRun p q bs
  := by
  cases processStep_of_step h with
  | kernel hsystem _ =>
      cases systemStep_of_step hsystem with
      | kernel hkernel => apply lossyRun_kernel hp hkernel
  | worker _ _ _ => apply lossyRun_worker hp h
  | recv hd =>
      cases deliveryStep_of_step hd with
      | @recv frame channel _ _ hrecv =>
          rcases Channel.recv_cases hrecv with ⟨x, -, hqueue, -, hreceived, -⟩ | ⟨hnone, -⟩
          · use [.deliver]
            have hcons : p.channel.queue = x :: channel.queue := hqueue
            constructor
            · rw [LTS.run_singleton]
              simp only [lossyQueue, LossyQueue.step, Process.lossy, Process.inFlight, hcons,
                List.cons_append, hreceived]
              rfl
            · apply (List.append_nil _).symm
            · rfl
          · cases hnone
      | leave _ _ hrecv =>
          rcases Channel.recv_cases hrecv with ⟨x, hsome, -⟩ | ⟨-, -, -, rfl⟩
          · cases hsome
          · exact ⟨[], LossyRun.nil rfl rfl rfl rfl⟩
  | exit hd =>
      cases deliveryStep_of_step hd with
      | exit _ _ => exact ⟨[], LossyRun.nil rfl rfl rfl rfl⟩
  | _ => exact ⟨[], LossyRun.nil rfl rfl rfl rfl⟩

/-- A run of the process is a run of the queue. -/
theorem exists_lossyRun {p q : Process} {as : List ProcessAction} (hp : process.Reachable p)
    (h : process.run p as = some q) :
  ∃ bs, LossyRun p q bs
  := by
  have hboth : process.Reachable p → process.Reachable q ∧ ∃ bs, LossyRun p q bs := by
    apply process.run_rel
      (fun p q => process.Reachable p → process.Reachable q ∧ ∃ bs, LossyRun p q bs) _ _ _ h
    · intro p hp
      exact ⟨hp, [], LossyRun.nil rfl rfl rfl rfl⟩
    · intro p q r hpq hqr hp
      obtain ⟨hq, as, has⟩ := hpq hp
      obtain ⟨hr, bs, hbs⟩ := hqr hq
      exact ⟨hr, as ++ bs, has.trans hbs⟩
    · intro p a q hst hp
      exact ⟨hp.step hst, lossyRun_of_step hp hst⟩
  apply (hboth hp).2

/-- The losses are the recordings in `frames_dropped` and in `channel_full`. -/
theorem losses_eq {p : Process} (hp : process.Reachable p) :
  p.losses = p.system.worker.metrics.framesDropped.total + p.system.worker.metrics.channelFull.total
  := by
  have hworker := worker_reachable (system_reachable hp)
  obtain ⟨-, hdropped, hfull⟩ := counted (by decide) hworker
  rw [cpuId_eq hworker] at hdropped hfull
  rw [Process.losses, hdropped.total (by decide), hfull.total (by decide)]

/-- Every run of the process is a run of a lossy queue to which the frames are submitted that are
committed to the ring, in commit order; which delivers what the consumer receives; and which loses a
frame exactly when a frame is recorded in `frames_dropped` or in `channel_full`. -/
theorem process_refines_lossyQueue {as : List ProcessAction} {p : Process}
    (h : process.run process.init as = some p) :
  ∃ bs, (lossyQueue SignalFrame).run (lossyQueue SignalFrame).init bs = some p.lossy
    ∧ bs.filterMap LossyAction.submitted = p.system.kernel.committed
    ∧ bs.countP LossyAction.isLoss = p.system.worker.metrics.framesDropped.total
      + p.system.worker.metrics.channelFull.total
  := by
  obtain ⟨bs, hbs⟩ := exists_lossyRun (LTS.Reachable.init process) h
  refine ⟨bs, hbs.run, hbs.submitted.symm, ?_⟩
  have hinit : process.init.losses = 0 := rfl
  have hlost := hbs.lost
  rw [hinit, Nat.zero_add] at hlost
  rw [← hlost, losses_eq ⟨as, h⟩]

/-- In that run of the queue the frame of CPU 0 is on the channel, and that of CPU 1 on the ring. -/
theorem process_refines_lossyQueue_lateFrame :
  ∃ p bs, process.run process.init (lateFrame ++ [.detach true]) = some p
    ∧ (lossyQueue SignalFrame).run (lossyQueue SignalFrame).init bs = some p.lossy
    ∧ bs.filterMap LossyAction.submitted = p.system.kernel.committed
    ∧ p.system.kernel.committed.length = 2
  := by
  obtain ⟨p, h, -, hcommitted, -⟩ := run_lateFrame
  obtain ⟨bs, hrun, hsubmitted, -⟩ := process_refines_lossyQueue h
  exact ⟨p, bs, h, hrun, hsubmitted, hcommitted⟩

section Reachable

variable {p : Process} (hp : process.Reachable p)

include hp

/-- What the consumer has received, followed by the frames in flight, keeps the order in which the
frames are committed. -/
theorem received_inFlight_sublist :
  (p.channel.received ++ p.inFlight).Sublist p.system.kernel.committed
  := by
  obtain ⟨as, has⟩ := hp
  obtain ⟨bs, hbs⟩ := exists_lossyRun (LTS.Reachable.init process) has
  have hcommitted : p.system.kernel.committed = bs.filterMap LossyAction.submitted :=
    hbs.submitted
  rw [hcommitted]
  apply LossyQueue.run_sublist hbs.run

/-- The frames missing from it are those whose loss is recorded. -/
theorem length_received_inFlight :
  p.channel.received.length + p.inFlight.length + p.losses = p.system.kernel.committed.length
  := by
  obtain ⟨as, has⟩ := hp
  obtain ⟨bs, hbs⟩ := exists_lossyRun (LTS.Reachable.init process) has
  have hcommitted : p.system.kernel.committed = bs.filterMap LossyAction.submitted :=
    hbs.submitted
  have hinit : process.init.losses = 0 := rfl
  have hnone : process.init.lossy.all.length = 0 := rfl
  have hall : p.lossy.all.length = p.channel.received.length + p.inFlight.length :=
    List.length_append
  have hlost := hbs.lost
  have hlength := LossyQueue.run_length hbs.run
  rw [hcommitted]
  omega

/-- What the consumer has received, followed by the frames in the channel, in the batch and on the
ring, is a subsequence of the frames committed; and the number of the frames missing from it is
that of the recordings in `frames_dropped` and in `channel_full`. -/
theorem received_inFlight :
  (p.channel.received ++ p.inFlight).Sublist p.system.kernel.committed
    ∧ p.channel.received.length + p.inFlight.length
      + p.system.worker.metrics.framesDropped.total + p.system.worker.metrics.channelFull.total
      = p.system.kernel.committed.length
  := by
  constructor
  · apply received_inFlight_sublist hp
  · rw [Nat.add_assoc, ← losses_eq hp]
    apply length_received_inFlight hp

end Reachable

/-- Of the two frames committed in the run none is lost. -/
theorem received_inFlight_lateFrame :
  ∃ p, process.run process.init (lateFrame ++ [.detach true]) = some p
    ∧ p.channel.received.length + p.inFlight.length
      + p.system.worker.metrics.framesDropped.total + p.system.worker.metrics.channelFull.total = 2
  := by
  obtain ⟨p, h, -, hcommitted, -⟩ := run_lateFrame
  refine ⟨p, h, ?_⟩
  rw [(received_inFlight ⟨_, h⟩).2, hcommitted]

end Pipeline
