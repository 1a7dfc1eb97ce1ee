import ShivaProtocol.Capture.Accounting

/-!
# Delivery from the worker to its consumer

`main` moves the sender of a dispatch channel into a vacuum worker and the receiver into a consumer
thread, which receives until the channel reports the end of the stream.  `delivery` is the system
of the two threads and the channel.  When the worker cannot be pinned the process is aborted, and
neither thread takes another step.  The system simulates the worker on its own
(`deliveryToWorker`), so what holds of a worker holds here, and in every reachable state the frames
received and those in the channel are the frames the worker has dispatched (`delivery_exact`).
-/

open SgCommon

namespace SgCapture

/-- Where a consumer thread stands: in its loop, after its loop, or ended. -/
inductive Consumer where
  | receiving
  | left
  | exited
  deriving DecidableEq

/-- A worker, its dispatch channel and its consumer. -/
structure Delivery where
  worker : Worker
  channel : DispatchChannel
  consumer : Consumer

/-- A step of the worker; a call of `recv` by the consumer; the end of the consumer thread. -/
inductive DeliveryAction where
  | worker (a : WorkerAction)
  | recv
  | exit

/-- What an action of the worker does to the dispatch channel, if the channel allows it.  The sender
is dropped when `vacuum_entry` returns; the panic of a failed pin aborts the process and drops
nothing. -/
def channelStep (w : Worker) (channel : DispatchChannel) : WorkerAction → Option DispatchChannel
  | .trySend result =>
      match w.batch.toList with
      | frame :: _ => channel.trySend frame result
      | [] => none
  | .ret => some channel.dropSender
  | _ => some channel

namespace Delivery

/-- The threads before they run. -/
def init (cpuId : ℕ) : Delivery where
  worker := Worker.init cpuId
  channel := dispatchChannel
  consumer := .receiving

/-- The state after an action, if it is enabled.  The consumer ends with its process. -/
def step (s : Delivery) : DeliveryAction → Option Delivery
  | .worker a =>
      match s.worker.step a, channelStep s.worker s.channel a with
      | some w, some channel => some { s with worker := w, channel := channel }
      | _, _ => none
  | .recv =>
      match s.worker.phase.alive, s.consumer, s.channel.recv with
      | true, .receiving, some (some _, channel) => some { s with channel := channel }
      | true, .receiving, some (none, channel) =>
          some { s with channel := channel, consumer := .left }
      | _, _, _ => none
  | .exit =>
      match s.worker.phase.alive, s.consumer with
      | true, .left => some { s with channel := s.channel.dropReceiver, consumer := .exited }
      | _, _ => none

end Delivery

/-- A worker with its consumer, as a transition system. -/
def delivery (cpuId : ℕ) : LTS Delivery DeliveryAction where
  init := Delivery.init cpuId
  step := Delivery.step

/-- What a step of the two threads can do. -/
inductive DeliveryStep (s : Delivery) : DeliveryAction → Delivery → Prop where
  | worker {a w channel} : WorkerStep s.worker a w →
      channelStep s.worker s.channel a = some channel →
      DeliveryStep s (.worker a) { s with worker := w, channel := channel }
  | recv {frame channel} : s.worker.phase.alive = true → s.consumer = .receiving →
      s.channel.recv = some (some frame, channel) →
      DeliveryStep s .recv { s with channel := channel }
  | leave {channel} : s.worker.phase.alive = true → s.consumer = .receiving →
      s.channel.recv = some (none, channel) →
      DeliveryStep s .recv { s with channel := channel, consumer := .left }
  | exit : s.worker.phase.alive = true → s.consumer = .left →
      DeliveryStep s .exit { s with channel := s.channel.dropReceiver, consumer := .exited }

/-- Every step is one of `DeliveryStep`. -/
theorem deliveryStep_of_step {cpuId : ℕ} {s s' : Delivery} {a : DeliveryAction}
    (h : (delivery cpuId).step s a = some s') :
  DeliveryStep s a s'
  := by
  cases a with
  | worker a =>
      simp only [delivery, Delivery.step] at h
      split at h
      · rename_i w _ hworker hchannel
        obtain rfl := Option.some.inj h
        have hstep : (SgCapture.worker cpuId).step s.worker a = some w := hworker
        apply DeliveryStep.worker (workerStep_of_step hstep) hchannel
      · cases h
  | recv =>
      simp only [delivery, Delivery.step] at h
      split at h
      · rename_i halive hconsumer hrecv
        obtain rfl := Option.some.inj h
        apply DeliveryStep.recv halive hconsumer hrecv
      · rename_i halive hconsumer hrecv
        obtain rfl := Option.some.inj h
        apply DeliveryStep.leave halive hconsumer hrecv
      · cases h
  | exit =>
      simp only [delivery, Delivery.step] at h
      split at h
      · rename_i halive hconsumer
        obtain rfl := Option.some.inj h
        apply DeliveryStep.exit halive hconsumer
      · cases h

/-- The system of the two threads runs the worker. -/
def deliveryToWorker (cpuId : ℕ) : LTS.Simulation (delivery cpuId) (worker cpuId) where
  state s := s.worker
  action
    | .worker a => some a
    | _ => none
  init := rfl
  step := by
    intro s a b t ha h
    cases a with
    | worker a =>
        obtain rfl := Option.some.inj ha
        simp only [delivery, Delivery.step] at h
        split at h
        · rename_i hworker _
          obtain rfl := Option.some.inj h
          apply hworker
        · cases h
    | recv => cases ha
    | exit => cases ha
  stutter := by
    intro s a t ha h
    cases deliveryStep_of_step h with
    | worker _ _ => cases ha
    | recv _ _ _ => rfl
    | leave _ _ _ => rfl
    | exit _ _ => rfl

/-! ### The invariant -/

/-- The channel has been sent what the worker has dispatched; its sender lives until `vacuum_entry`
returns, and its receiver as long as the consumer; the consumer leaves its loop only after that
return, with the channel empty; and no attempt to send has found the channel disconnected. -/
structure Delivering (s : Delivery) : Prop where
  sent : s.channel.sent = s.worker.accepted
  sender : s.channel.sender = decide (s.worker.phase ≠ .returned)
  receiver : s.channel.receiver = decide (s.consumer ≠ .exited)
  finished : s.consumer ≠ .receiving → s.worker.phase = .returned ∧ s.channel.queue = []
  connected : s.worker.results .disconnected = 0

theorem afterItem_ne_returned (left : ℕ) :
  Phase.afterItem left ≠ .returned
  := by cases left <;> simp [Phase.afterItem]

/-- A worker that takes a step has not returned, and its process is alive. -/
theorem running_of_workerStep {w w' : Worker} {a : WorkerAction} (h : WorkerStep w a w') :
  w.phase ≠ .returned ∧ w.phase.alive = true
  := by
  -- every step starts in a phase of a running call
  cases h
  all_goals simp [*, Phase.alive]

/-- A step of the worker that leaves the channel as it is. -/
theorem Delivering.frame {s : Delivery} {w : Worker} (hs : Delivering s)
    (hrunning : s.worker.phase ≠ .returned) (hphase : w.phase ≠ .returned)
    (haccepted : w.accepted = s.worker.accepted)
    (hresults : w.results .disconnected = s.worker.results .disconnected) :
  Delivering { s with worker := w }
  := by
  constructor
  · rw [haccepted]
    apply hs.sent
  · rw [hs.sender, decide_eq_true hrunning, decide_eq_true hphase]
  · apply hs.receiver
  · intro h
    cases hrunning (hs.finished h).1
  · rw [hresults]
    apply hs.connected

/-- The return of `vacuum_entry`. -/
theorem Delivering.finish {s : Delivery} {w : Worker} (hs : Delivering s)
    (hrunning : s.worker.phase ≠ .returned) (hphase : w.phase = .returned)
    (haccepted : w.accepted = s.worker.accepted)
    (hresults : w.results .disconnected = s.worker.results .disconnected) :
  Delivering { s with worker := w, channel := s.channel.dropSender }
  := by
  constructor
  · rw [haccepted]
    apply hs.sent
  · rw [hphase]
    rfl
  · apply hs.receiver
  · intro h
    cases hrunning (hs.finished h).1
  · rw [hresults]
    apply hs.connected

/-- An attempt to send. -/
theorem Delivering.send {s : Delivery} {frame : SignalFrame} {result : SendResult}
    {channel : DispatchChannel} (hs : Delivering s)
    (hrunning : s.worker.phase ≠ .returned)
    (hchannel : s.channel.trySend frame result = some channel) :
  Delivering { s with worker := s.worker.dispatch frame result, channel := channel }
  := by
  have hreceiving : s.consumer = .receiving := by
    by_contra h
    apply hrunning (hs.finished h).1
  have hlog : (s.worker.dispatch frame result).log = s.worker.log ++ [.sent frame result] := rfl
  have hphase : (s.worker.dispatch frame result).phase ≠ .returned := by
    cases result <;> simp [Worker.dispatch, tryDispatch]
  rcases Channel.trySend_cases hchannel with ⟨rfl, -, hsent, -, hsender, hreceiver⟩ |
    ⟨rfl, -, rfl⟩ | ⟨rfl, hreceiver, rfl⟩
  · constructor
    · rw [Worker.accepted_concat hlog, hsent, hs.sent]
      rfl
    · rw [hsender, hs.sender, decide_eq_true hrunning, decide_eq_true hphase]
    · rw [hreceiver]
      apply hs.receiver
    · intro h
      cases h hreceiving
    · rw [Worker.results_concat hlog, hs.connected]
      rfl
  · apply hs.frame hrunning hphase
    · apply (Worker.accepted_concat hlog).trans
      apply List.append_nil
    · apply Worker.results_concat hlog
  · rw [hs.receiver, hreceiving] at hreceiver
    cases hreceiver

/-- A step of the worker. -/
theorem Delivering.worker {s : Delivery} {a : WorkerAction} {w : Worker} {channel : DispatchChannel}
    (hs : Delivering s) (hworker : WorkerStep s.worker a w)
    (hchannel : channelStep s.worker s.channel a = some channel) :
  Delivering { s with worker := w, channel := channel }
  := by
  have hrunning := (running_of_workerStep hworker).1
  cases hworker with
  | pin ok _ =>
      obtain rfl := Option.some.inj hchannel
      refine hs.frame hrunning ?_ rfl rfl
      cases ok <;> simp
  | stop _ =>
      obtain rfl := Option.some.inj hchannel
      exact hs.frame hrunning (by simp) rfl rfl
  | poll _ =>
      obtain rfl := Option.some.inj hchannel
      exact hs.frame hrunning (by simp) rfl rfl
  | @item left raw _ =>
      obtain rfl := Option.some.inj hchannel
      obtain ⟨e, hlog, he⟩ := validate_log s.worker raw
      have hquiet : e.accepted = none ∧ e.hasResult .disconnected = false := by
        cases e with
        | sent frame result => cases he
        | _ => exact ⟨rfl, rfl⟩
      apply hs.frame hrunning (afterItem_ne_returned left)
      · apply (Worker.accepted_concat hlog).trans
        rw [hquiet.1]
        apply List.append_nil
      · apply (Worker.results_concat hlog .disconnected).trans
        rw [hquiet.2]
        rfl
  | drained _ =>
      obtain rfl := Option.some.inj hchannel
      exact hs.frame hrunning (by simp) rfl rfl
  | @trySend frame rest result _ hbatch =>
      simp only [channelStep, hbatch] at hchannel
      apply hs.send hrunning hchannel
  | recordOk _ =>
      obtain rfl := Option.some.inj hchannel
      exact hs.frame hrunning (by simp) rfl rfl
  | yieldNow _ _ =>
      obtain rfl := Option.some.inj hchannel
      exact hs.frame hrunning (by simp) rfl rfl
  | ret _ =>
      obtain rfl := Option.some.inj hchannel
      exact hs.finish hrunning rfl rfl rfl

theorem delivering {cpuId : ℕ} {s : Delivery} (hs : (delivery cpuId).Reachable s) :
  Delivering s
  := by
  apply hs.invariant
  · constructor
    · rfl
    · rfl
    · rfl
    · intro h
      cases h rfl
    · rfl
  · intro s a s' _ ih h
    cases deliveryStep_of_step h with
    | worker hworker hchannel => apply ih.worker hworker hchannel
    | recv _ hconsumer hrecv =>
        rcases Channel.recv_cases hrecv with ⟨_, -, -, hsent, -, hsender, hreceiver⟩ | ⟨h, -⟩
        · constructor
          · rw [hsent]
            apply ih.sent
          · rw [hsender]
            apply ih.sender
          · rw [hreceiver]
            apply ih.receiver
          · intro h
            cases h hconsumer
          · apply ih.connected
        · cases h
    | leave _ hconsumer hrecv =>
        rcases Channel.recv_cases hrecv with ⟨_, h, -⟩ | ⟨-, hqueue, hsender, rfl⟩
        · cases h
        · constructor
          · apply ih.sent
          · apply ih.sender
          · rw [ih.receiver, hconsumer]
            rfl
          · intro _
            have hreturned := ih.sender
            rw [hsender] at hreturned
            exact ⟨not_not.mp (of_decide_eq_false hreturned.symm), hqueue⟩
          · apply ih.connected
    | exit _ hconsumer =>
        constructor
        · apply ih.sent
        · apply ih.sender
        · rfl
        · intro _
          apply ih.finished
          rw [hconsumer]
          decide
        · apply ih.connected

/-- A worker does nothing before it is pinned, and nothing if it cannot be. -/
theorem log_eq_nil {cpuId : ℕ} {w : Worker} (hw : (worker cpuId).Reachable w)
    (h : w.phase = .pinning ∨ w.phase.alive = false) :
  w.log = []
  := by
  revert h
  apply hw.invariant (P := fun w => w.phase = .pinning ∨ w.phase.alive = false → w.log = [])
  · intro _
    rfl
  · intro w a w' _ ih h
    cases workerStep_of_step h with
    | pin ok hphase =>
        intro _
        apply ih (Or.inl hphase)
    | @item left raw _ => cases left <;> simp [Phase.afterItem, Phase.alive]
    | trySend result _ _ => cases result <;> simp [Worker.dispatch, tryDispatch, Phase.alive]
    | _ => simp [Phase.alive]

/-- As long as there is a frame in the channel, the process is alive. -/
theorem alive_of_queue {cpuId : ℕ} {s : Delivery} (hs : (delivery cpuId).Reachable s)
    (hqueue : s.channel.queue ≠ []) :
  s.worker.phase.alive = true
  := by
  by_contra hdead
  have hworker : (worker cpuId).Reachable s.worker := (deliveryToWorker cpuId).reachable hs
  have hlog : s.worker.log = [] := log_eq_nil hworker (Or.inr (by simpa using hdead))
  have hsent : s.channel.received ++ s.channel.queue = [] := by
    rw [s.channel.fifo, (delivering hs).sent, Worker.accepted, hlog]
    rfl
  apply hqueue (List.append_eq_nil_iff.mp hsent).2

/-- Delivery is exact.  In every reachable state of the worker, the channel and the consumer, the
frames received followed by those in the channel are the frames for which `try_dispatch` has
returned true; the channel holds at most `dispatchCapacity` frames; `try_send` has never returned
`disconnected`; at the top of the poll loop `frames_ok` counts the frames dispatched; and the
consumer has left its loop only if the worker has returned and the channel is empty. -/
theorem delivery_exact {cpuId : ℕ} (hlt : cpuId < NCPU) {s : Delivery}
    (hs : (delivery cpuId).Reachable s) :
  s.channel.received ++ s.channel.queue = s.worker.accepted
    ∧ s.channel.queue.length ≤ dispatchCapacity
    ∧ s.worker.results .disconnected = 0
    ∧ (s.worker.phase = .top → s.worker.metrics.framesOk.cell cpuId = s.worker.accepted.length)
    ∧ (s.consumer ≠ .receiving → s.worker.phase = .returned ∧ s.channel.queue = [])
  := by
  have hdelivering := delivering hs
  have hworker : (worker cpuId).Reachable s.worker := (deliveryToWorker cpuId).reachable hs
  and_intros
  · rw [s.channel.fifo, hdelivering.sent]
  · apply s.channel.length_le
  · apply hdelivering.connected
  · intro htop
    obtain ⟨n, hn, haccepted⟩ := (counted hlt hworker).ok
    rw [cpuId_eq hworker] at hn
    rw [inHand_of_ne (by simp [htop]), Nat.add_zero] at haccepted
    rw [hn.cell, haccepted]
  · apply hdelivering.finished

/-- The worker dispatches a frame and returns; the consumer receives the frame and leaves. -/
def sampleDelivery : List DeliveryAction :=
  [.worker (.pin true), .worker (.checkShutdown false),
    .worker (.next (some (stampedFrame 5).bytes)), .worker (.next none),
    .worker (.trySend .ok), .recv, .worker .recordOk, .worker .yieldNow,
    .worker (.checkShutdown true), .worker .ret, .recv]

theorem delivery_exact_sampleDelivery :
  ∃ s, (delivery 0).run (delivery 0).init sampleDelivery = some s ∧ s.consumer = .left
    ∧ s.channel.received = [stampedFrame 5]
    ∧ s.channel.received ++ s.channel.queue = s.worker.accepted
  := by
  have hrun : ∃ s, (delivery 0).run (delivery 0).init sampleDelivery = some s
      ∧ s.consumer = .left ∧ s.channel.received = [stampedFrame 5] := ⟨_, rfl, rfl, rfl⟩
  obtain ⟨s, h, hconsumer, hreceived⟩ := hrun
  exact ⟨s, h, hconsumer, hreceived, (delivery_exact (by decide) ⟨_, h⟩).1⟩

end SgCapture
