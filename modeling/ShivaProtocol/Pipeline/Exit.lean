import ShivaProtocol.Capture.Main
import ShivaProtocol.Pipeline.Shutdown

/-!
# The exit of the process

`main` waits for the vacuum worker, and not for the consumer.  When it has returned, the frames
counted as dispatched are those the consumer has received, followed by those that are still in the
channel (`processed_at_exit`).  The latter are lost with the process; the consumer would receive
them if it were given the time (`exists_run_recv`).  The steps of `main` in the process are those
of the run of `main` (`process_of_main`).
-/

open SgCommon SgEbpf SgCapture

namespace Pipeline

/-- What the process does in an event of `main`, when `detach` succeeds or not. -/
def eventAction {Link : Type} (ok : Bool) : MainEvent Link → Option ProcessAction
  | .storeShutdown => some .signal
  | .join _ => some .join
  | .detach _ => some (.detach ok)
  | _ => none

/-- A run of `main` that gets to the signal spawns the one worker of the process, and takes the
steps of `main` in the process. -/
theorem process_of_main {Ring Link : Type} {env : Environment Ring Link}
    (h : .storeShutdown ∈ (main env).log) (ok : Bool) :
  (∀ cpuId, .spawnWorker cpuId ∈ (main env).log ↔ cpuId = Process.init.system.worker.cpuId)
    ∧ (main env).log.filterMap (eventAction ok) = [.signal, .join, .detach ok]
  := by
  obtain ⟨link, hlog⟩ := log_main_of_stored env h
  rw [hlog]
  constructor
  · intro cpuId
    have hcpu : Process.init.system.worker.cpuId = 0 := rfl
    simp [hcpu]
  · rfl

/-- When the worker has returned, `frames_ok` counts the frames dispatched. -/
theorem framesOk_of_returned {p : Process} (hp : process.Reachable p)
    (hreturned : p.system.worker.phase = .returned) :
  p.system.worker.metrics.framesOk.total = p.system.worker.accepted.length
  := by
  have hworker := worker_reachable (system_reachable hp)
  obtain ⟨n, hn, haccepted⟩ := (counted (by decide) hworker).ok
  rw [inHand_of_ne (by simp [hreturned]), Nat.add_zero] at haccepted
  rw [cpuId_eq hworker] at hn
  rw [hn.total (by decide), haccepted]

/-- When `main` returns Ok, the frames the consumer has received followed by those in the dispatch
channel are the frames counted in `frames_ok`, in order; the channel holds at most
`dispatchCapacity` frames; and if the consumer has left its loop, it has received all of them. -/
theorem processed_at_exit {p : Process} (hp : process.Reachable p)
    (hmain : p.main = .returned true) :
  p.channel.received ++ p.channel.queue = p.system.worker.accepted
    ∧ p.system.worker.metrics.framesOk.total = p.system.worker.accepted.length
    ∧ p.channel.queue.length ≤ dispatchCapacity
    ∧ (p.consumer ≠ .receiving → p.channel.received = p.system.worker.accepted)
  := by
  have hdelivering := delivering (delivery_reachable hp)
  have hsent : p.channel.received ++ p.channel.queue = p.system.worker.accepted := by
    rw [p.channel.fifo]
    apply hdelivering.sent
  and_intros
  · apply hsent
  · apply framesOk_of_returned hp (phase_of_returned hp hmain)
  · apply p.channel.length_le
  · intro hleft
    have hqueue : p.channel.queue = [] := (hdelivering.finished hleft).2
    rw [← hsent, hqueue, List.append_nil]

/-- In a process that is alive, a consumer in its loop receives the first frame of the channel. -/
theorem step_recv_cons {p : Process} {frame : SignalFrame} {queue : List SignalFrame}
    (halive : p.system.worker.phase.alive = true) (hconsumer : p.consumer = .receiving)
    (hqueue : p.channel.queue = frame :: queue) :
  ∃ channel, process.step p .recv = some { p with channel := channel } ∧ channel.queue = queue
    ∧ channel.sent = p.channel.sent
  := by
  obtain ⟨x, channel, hrecv⟩ := Channel.exists_recv (by simp [hqueue] : p.channel.queue ≠ [])
  use channel, step_recv halive hconsumer hrecv
  rcases Channel.recv_cases hrecv with ⟨y, -, hcons, hsent, -⟩ | ⟨hnone, -⟩
  · exact ⟨(List.cons.inj (hcons.symm.trans hqueue)).2, hsent⟩
  · cases hnone

/-- In a process that is alive, a consumer in its loop that goes on receiving receives all frames of
the channel. -/
theorem exists_run_recv {p : Process} (halive : p.system.worker.phase.alive = true)
    (hconsumer : p.consumer = .receiving) :
  ∃ q, process.run p (List.replicate p.channel.queue.length .recv) = some q
    ∧ q.channel.received = p.channel.sent
  := by
  rcases hqueue : p.channel.queue with _ | ⟨frame, queue⟩
  · use p, rfl
    rw [← p.channel.fifo, hqueue, List.append_nil]
  · obtain ⟨channel, hstep, rfl, hsent⟩ := step_recv_cons halive hconsumer hqueue
    obtain ⟨r, hrun, hreceived⟩ :=
      exists_run_recv (p := { p with channel := channel }) halive hconsumer
    use r
    rw [List.length_cons, List.replicate_succ, LTS.run_cons, hstep, Option.bind_some, hrun]
    exact ⟨rfl, hreceived.trans hsent⟩
  termination_by p.channel.queue.length
  decreasing_by simp [hqueue]

/-- A frame is counted in `frames_ok` and still in the channel when `main` returns Ok. -/
theorem lateFrame_unprocessed :
  ∃ p, process.run process.init (lateFrame ++ [.detach true]) = some p
    ∧ p.main = .returned true ∧ p.system.worker.metrics.framesOk.total = 1
    ∧ p.channel.received = [] ∧ p.channel.queue.length = 1
  := by
  obtain ⟨p, h, hmain, -, -, hreceived, hqueue⟩ := run_lateFrame
  have hp : process.Reachable p := ⟨_, h⟩
  have hsent : p.channel.sent = p.system.worker.accepted :=
    (delivering (delivery_reachable hp)).sent
  refine ⟨p, h, hmain, ?_, hreceived, hqueue⟩
  rw [framesOk_of_returned hp (phase_of_returned hp hmain), ← hsent, ← p.channel.fifo, hreceived,
    List.nil_append, hqueue]

/-- In that run, what has been received and what is in the channel is what has been dispatched. -/
theorem processed_at_exit_lateFrame :
  ∃ p, process.run process.init (lateFrame ++ [.detach true]) = some p
    ∧ p.channel.received ++ p.channel.queue = p.system.worker.accepted
    ∧ p.system.worker.accepted.length = 1
  := by
  obtain ⟨p, h, hmain, -, -, hreceived, hqueue⟩ := run_lateFrame
  obtain ⟨hsent, -, -, -⟩ := processed_at_exit ⟨_, h⟩ hmain
  refine ⟨p, h, hsent, ?_⟩
  rw [← hsent, hreceived, List.nil_append, hqueue]

end Pipeline
