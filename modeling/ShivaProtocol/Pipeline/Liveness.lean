import ShivaProtocol.Capture.Progress
import ShivaProtocol.Pipeline.Shutdown

/-!
# Progress of the process

No thread can hold another up, as long as no failed pin aborts the process.  The worker has a step
to take until it returns, whatever the kernel program, the consumer and `main` do, and a bounded
number of its steps takes a frame that waits on the ring (`worker_drains`).  Once the shutdown flag
is stored, a bounded number of steps of the worker and of `main` brings `main` to its end
(`shutdown_terminates`), and once the worker has returned, a bounded number of steps of the consumer
empties the dispatch channel (`consumer_terminates`).
-/

open SgCommon SgEbpf SgCapture

namespace Pipeline

/-! ### The worker -/

/-- Whether an action is a step of the worker. -/
def ProcessAction.isWorker : ProcessAction → Bool
  | .worker _ => true
  | _ => false

/-- The ring returns the item at the position of the worker. -/
theorem ringStep_next {ring : List (List UInt8)} {consumed : ℕ} {a : WorkerAction}
    (h : ∀ item, a = .next item → item = ring[consumed]?) :
  ringStep ring consumed a ≠ none
  := by
  cases a with
  | next item => simp [ringStep, h item rfl]
  | _ => simp [ringStep]

/-- A worker that has not returned has a step in a process that is alive, whatever value of the
shutdown flag it may read. -/
theorem exists_step_worker {p : Process} (h : p.system.worker.phase ≠ .returned)
    (halive : p.system.worker.phase.alive = true) (flag : Bool)
    (hflag : flag = true → p.shutdown = true) :
  ∃ a q, process.step p (.worker a) = some q ∧ ∀ b, a = .checkShutdown b → b = flag
  := by
  obtain ⟨a, w, channel, hworker, hchannel, hreads, hitem⟩ :=
    exists_step 0 h halive p.channel p.system.kernel.ring[p.system.consumed]? flag
  obtain ⟨n, hn⟩ := Option.ne_none_iff_exists'.mp (ringStep_next hitem)
  have hallowed : flagAllows p.shutdown a = true := by
    cases a with
    | checkShutdown b =>
        obtain rfl := hreads b rfl
        cases b with
        | false => rfl
        | true => simp [flagAllows, hflag rfl]
    | _ => rfl
  have hsystem : p.system.step (.worker a) = some { p.system with consumed := n, worker := w } :=
    step_worker hworker hn
  use a, { p with system := { p.system with consumed := n, worker := w }, channel := channel }
  refine ⟨?_, hreads⟩
  simp only [process, Process.step, hsystem, hchannel, hallowed]

/-- The frames that have been committed stay committed. -/
theorem length_committed_le {as : List ProcessAction} {p q : Process}
    (h : process.run p as = some q) :
  p.system.kernel.committed.length ≤ q.system.kernel.committed.length
  := by
  rw [length_committed_run h]
  apply Nat.le_add_right

/-- Until the worker has taken `n` of the frames committed, each of its steps pays off one of the
steps it owes for its batch and for the frames it has still to take. -/
theorem backlog_run {p q : Process} {a : ProcessAction} {n : ℕ} (hp : process.Reachable p)
    (hn : n ≤ p.system.kernel.committed.length) (h : process.step p a = some q)
    (hflag : a ≠ .worker (.checkShutdown true)) :
  n ≤ q.system.consumed
    ∨ q.system.worker.backlog + 5 * (n - q.system.consumed) + a.isWorker.toNat
      ≤ p.system.worker.backlog + 5 * (n - p.system.consumed)
  := by
  have hsystem := system_reachable hp
  cases processStep_of_step h with
  | kernel hstep _ =>
      right
      cases systemStep_of_step hstep with
      | kernel _ => apply le_refl
  | @worker a s channel hstep hchannel hallowed =>
      by_cases hempty : a = .next none
      · left
        subst hempty
        apply le_trans hn (committed_le_of_poll hp h)
      · cases systemStep_of_step hstep with
        | @worker a w m hworker hring =>
            have hbacklog := backlog_step (roomy (worker_reachable hsystem)) hworker
              (fun heq => hflag (congrArg _ heq)) hempty
            have hitems : m = p.system.consumed + a.items := by
              cases a with
              | next item =>
                  obtain ⟨-, hm⟩ := Option.ite_none_right_eq_some.mp hring
                  cases item <;> exact (Option.some.inj hm).symm
              | _ => exact (Option.some.inj hring).symm
            simp only [ProcessAction.isWorker, Bool.toNat_true]
            omega
  | _ =>
      right
      apply le_refl

/-- Whatever the kernel program, the consumer and `main` do: as long as it does not read the
shutdown flag as set, by the time the worker has taken more than five steps for every frame that
waits on the ring, and 514 for its batch, it has taken them all off the ring; and a worker that has
neither returned nor aborted the process has a step to take. -/
theorem worker_drains {p : Process} (hp : process.Reachable p) {n : ℕ}
    (hn : n ≤ p.system.kernel.committed.length) {as : List ProcessAction} {q : Process}
    (h : process.run p as = some q) (hflag : .worker (.checkShutdown true) ∉ as) :
  (5 * (n - p.system.consumed) + 514 < as.countP ProcessAction.isWorker → n ≤ q.system.consumed)
    ∧ (q.system.worker.phase ≠ .returned → q.system.worker.phase.alive = true →
      ∃ a r, process.step q (.worker a) = some r ∧ a ≠ .checkShutdown true)
  := by
  constructor
  · intro hsteps
    have hrank := LTS.run_rank
      (fun p => process.Reachable p ∧ n ≤ p.system.kernel.committed.length)
      (fun p => n ≤ p.system.consumed)
      (fun p => p.system.worker.backlog + 5 * (n - p.system.consumed))
      ProcessAction.isWorker (fun _ => false) 0 ?_ ?_ ⟨hp, hn⟩ h
    · have hbacklog := backlog_le p.system.worker
      have hsize : batchSize = 256 := rfl
      rcases hrank with hreached | hrank
      · apply hreached
      · omega
    · intro s a t hreached hst
      have hrun : process.run s [a] = some t := by rw [LTS.run_singleton, hst]
      apply le_trans hreached (consumed_mono hrun)
    · rintro s a ha t ⟨hs, hle⟩ hst
      have hrun : process.run s [a] = some t := by rw [LTS.run_singleton, hst]
      refine ⟨⟨hs.step hst, le_trans hle (length_committed_le hrun)⟩, ?_⟩
      apply backlog_run hs hle hst
      rintro rfl
      apply hflag ha
  · intro hrunning halive
    obtain ⟨a, r, hstep, hreads⟩ := exists_step_worker hrunning halive false (by simp)
    refine ⟨a, r, hstep, ?_⟩
    rintro rfl
    cases hreads true rfl

/-- CPU 0 commits a frame. -/
def oneFrame : List ProcessAction :=
  (invocation 0 DenyMap.allowAll true samplePacket).map .kernel

/-- The worker takes the frame, sends it, and then finds the ring empty again and again. -/
def busyRun : List ProcessAction :=
  [.worker (.pin true), .worker (.checkShutdown false),
    .worker (.next (some (sampleFrame 0 0).bytes)), .worker (.next none), .worker (.trySend .ok),
    .worker .recordOk, .worker .yieldNow]
    ++ (List.replicate 171 [.worker (.checkShutdown false), .worker (.next none),
      .worker .yieldNow]).flatten

theorem run_busyRun :
  ∃ p q, process.run process.init oneFrame = some p ∧ process.run p busyRun = some q
    ∧ p.system.kernel.committed.length = 1 ∧ p.system.consumed = 0
    ∧ q.system.worker.phase = .top
  := by
  have hrun : ((process.run process.init oneFrame).bind fun p =>
      (process.run p busyRun).map fun q =>
        (p.system.kernel.committed.length, p.system.consumed, q.system.worker.phase))
      = some (1, 0, .top) := by decide +kernel
  obtain ⟨p, hp, hmap⟩ := Option.bind_eq_some_iff.mp hrun
  obtain ⟨q, hq, heq⟩ := Option.map_eq_some_iff.mp hmap
  simp only [Prod.mk.injEq] at heq
  exact ⟨p, q, hp, hq, heq⟩

/-- In that run the worker takes more than 519 steps, and takes the frame. -/
theorem worker_drains_busyRun :
  ∃ p q, process.run process.init oneFrame = some p ∧ process.run p busyRun = some q
    ∧ p.system.kernel.committed.length = 1 ∧ p.system.consumed = 0
    ∧ 519 < busyRun.countP ProcessAction.isWorker ∧ 1 ≤ q.system.consumed
  := by
  obtain ⟨p, q, hp, hq, hcommitted, hconsumed, -⟩ := run_busyRun
  have hsteps : 519 < busyRun.countP ProcessAction.isWorker := by decide +kernel
  have hunset : ProcessAction.worker (.checkShutdown true) ∉ busyRun := by
    simp [busyRun, List.mem_flatten, -List.reduceReplicate]
  have hdrains := worker_drains ⟨_, hp⟩ hcommitted.ge hq hunset
  refine ⟨p, q, hp, hq, hcommitted, hconsumed, hsteps, ?_⟩
  apply hdrains.1
  rw [hconsumed]
  apply hsteps

/-! ### The end of `main` -/

/-- Whether an action is a step of the worker, or of `main` after the signal. -/
def ProcessAction.isEnding : ProcessAction → Bool
  | .worker _ => true
  | .join => true
  | .detach _ => true
  | _ => false

/-- Whether an action reads the shutdown flag as unset. -/
def ProcessAction.readsUnset : ProcessAction → Bool
  | .worker a => a.readsUnset
  | _ => false

/-- The steps `main` has left when the signal has arrived. -/
def MainPhase.remaining : MainPhase → ℕ
  | .serving => 2
  | .stopping => 2
  | .joined => 1
  | .returned _ => 0

/-- After the signal, the shutdown flag is set. -/
theorem shutdown_of_signal {p : Process} (hp : process.Reachable p) (hmain : p.main ≠ .serving) :
  p.shutdown = true
  := by
  revert hmain
  apply hp.invariant (P := fun p => p.main ≠ .serving → p.shutdown = true)
  · intro h
    cases h rfl
  · intro p a q _ ih h
    cases processStep_of_step h with
    | signal _ _ =>
        intro _
        rfl
    | join hmain _ =>
        intro _
        apply ih
        simp [hmain]
    | detach ok _ hmain =>
        intro _
        apply ih
        simp [hmain]
    | _ => apply ih

/-- After the signal, every step of the worker or of `main` is one step closer to the end, but one
that reads the shutdown flag as unset begins another drain. -/
theorem remaining_run {p q : Process} {a : ProcessAction} (hp : process.Reachable p)
    (hmain : p.main ≠ .serving) (h : process.step p a = some q) :
  q.main ≠ .serving
    ∧ q.system.worker.remaining + q.main.remaining + a.isEnding.toNat
      ≤ p.system.worker.remaining + p.main.remaining + 770 * a.readsUnset.toNat
  := by
  cases processStep_of_step h with
  | kernel hstep _ =>
      cases systemStep_of_step hstep with
      | kernel _ => exact ⟨hmain, le_refl _⟩
  | @worker a s channel hstep hchannel hallowed =>
      cases systemStep_of_step hstep with
      | @worker a w m hworker hring =>
          have hremaining := remaining_step (roomy (worker_reachable (system_reachable hp))) hworker
          refine ⟨hmain, ?_⟩
          simp only [ProcessAction.isEnding, ProcessAction.readsUnset, Bool.toNat_true]
          omega
  | signal _ hserving => cases hmain hserving
  | join hstopping _ =>
      refine ⟨by simp, ?_⟩
      simp [hstopping, MainPhase.remaining, ProcessAction.isEnding, ProcessAction.readsUnset]
  | detach ok _ hjoined =>
      refine ⟨by simp, ?_⟩
      simp [hjoined, MainPhase.remaining, ProcessAction.isEnding, ProcessAction.readsUnset]
  | _ => exact ⟨hmain, le_refl _⟩

/-- Whatever the kernel program and the consumer do: after the signal, the worker and `main` take at
most 773 steps together, and 770 for every time the worker still reads the shutdown flag as unset;
until `main` has returned, one of the two has a step to take, for which the flag need not be read as
unset, unless a failed pin has aborted the process; and then neither takes another step. -/
theorem shutdown_terminates {p : Process} (hp : process.Reachable p) (hmain : p.main ≠ .serving)
    {as : List ProcessAction} {q : Process} (h : process.run p as = some q) :
  as.countP ProcessAction.isEnding ≤ 773 + 770 * as.countP ProcessAction.readsUnset
    ∧ ((∀ ok, q.main ≠ .returned ok) → q.system.worker.phase.alive = true →
      ∃ a r, process.step q a = some r ∧ a.isEnding = true ∧ a.readsUnset = false)
    ∧ (q.system.worker.phase.alive = false → ∀ a r, process.step q a = some r → a.isEnding = false)
  := by
  and_intros
  · have hrank := LTS.run_rank
      (fun p => process.Reachable p ∧ p.main ≠ .serving) (fun _ => False)
      (fun p => p.system.worker.remaining + p.main.remaining)
      ProcessAction.isEnding ProcessAction.readsUnset 770 ?_ ?_ ⟨hp, hmain⟩ h
    · have hworker := remaining_le (roomy (worker_reachable (system_reachable hp)))
      have hrest : p.main.remaining ≤ 2 := by cases p.main <;> simp [MainPhase.remaining]
      rcases hrank with hfalse | hrank
      · cases hfalse
      · omega
    · intro s a t hfalse
      cases hfalse
    · rintro s a - t ⟨hs, hserving⟩ hst
      obtain ⟨hserving', hrank⟩ := remaining_run hs hserving hst
      exact ⟨⟨hs.step hst, hserving'⟩, Or.inr hrank⟩
  · intro hrunning halive
    have hq : process.Reachable q := hp.run h
    have hserving : q.main ≠ .serving := by
      apply LTS.run_invariant (P := fun p => process.Reachable p ∧ p.main ≠ .serving) _
        ⟨hp, hmain⟩ h |>.2
      rintro s a t ⟨hs, hserving⟩ hst
      exact ⟨hs.step hst, (remaining_run hs hserving hst).1⟩
    cases hphase : q.main with
    | serving => cases hserving hphase
    | stopping =>
        by_cases hreturned : q.system.worker.phase = .returned
        · refine ⟨.join, { q with main := .joined }, ?_, rfl, rfl⟩
          simp [process, Process.step, hphase, hreturned]
        · have hset := shutdown_of_signal hq hserving
          obtain ⟨a, r, hstep, hreads⟩ := exists_step_worker hreturned halive true fun _ => hset
          refine ⟨.worker a, r, hstep, rfl, ?_⟩
          cases a with
          | checkShutdown b =>
              obtain rfl := hreads b rfl
              rfl
          | _ => rfl
    | joined =>
        refine ⟨.detach true, { q with attached := false, main := .returned true }, ?_, rfl, rfl⟩
        simp [process, Process.step, halive, hphase]
    | returned ok => cases hrunning ok hphase
  · intro haborted a r hstep
    obtain ⟨_, rfl, -⟩ := kernel_of_aborted haborted hstep
    rfl

/-- The signal arrives before the worker has taken a step. -/
theorem shutdown_terminates_signal :
  ∃ p q, process.run process.init [.signal] = some p
    ∧ process.run p [.worker (.pin true), .worker (.checkShutdown true), .worker .ret, .join]
      = some q
    ∧ ∃ a r, process.step q a = some r ∧ a.isEnding = true ∧ a.readsUnset = false
  := by
  have hrun : ((process.run process.init [.signal]).bind fun p =>
      (process.run p [.worker (.pin true), .worker (.checkShutdown true), .worker .ret,
        .join]).map fun q => (p.main, q.main, q.system.worker.phase.alive))
      = some (.stopping, .joined, true) := by decide +kernel
  obtain ⟨p, hp, hmap⟩ := Option.bind_eq_some_iff.mp hrun
  obtain ⟨q, hq, heq⟩ := Option.map_eq_some_iff.mp hmap
  simp only [Prod.mk.injEq] at heq
  obtain ⟨hmain, hjoined, halive⟩ := heq
  have hends := shutdown_terminates ⟨_, hp⟩ (by simp [hmain]) hq
  refine ⟨p, q, hp, hq, hends.2.1 (fun ok hreturned => ?_) halive⟩
  cases hjoined.symm.trans hreturned

/-! ### The consumer -/

/-- Whether an action is a step of the consumer. -/
def ProcessAction.isConsumer : ProcessAction → Bool
  | .recv => true
  | .exit => true
  | _ => false

/-- The steps the consumer has left when the worker has returned. -/
def Process.undelivered (p : Process) : ℕ :=
  match p.consumer with
  | .receiving => p.channel.queue.length + 2
  | .left => 1
  | .exited => 0

/-- When the worker has returned, every step of the consumer is one step closer to its end. -/
theorem undelivered_run {p q : Process} {a : ProcessAction}
    (hreturned : p.system.worker.phase = .returned) (h : process.step p a = some q) :
  q.system.worker.phase = .returned ∧ q.undelivered + a.isConsumer.toNat ≤ p.undelivered
  := by
  cases processStep_of_step h with
  | kernel hstep _ =>
      rw [worker_of_step_kernel hstep]
      exact ⟨hreturned, le_refl _⟩
  | worker hstep _ _ =>
      cases systemStep_of_step hstep with
      | worker hworker _ => cases not_step_of_returned hreturned hworker
  | recv hd =>
      refine ⟨hreturned, ?_⟩
      cases deliveryStep_of_step hd with
      | recv _ hconsumer hrecv =>
          have hreceiving : p.consumer = .receiving := hconsumer
          rcases Channel.recv_cases hrecv with ⟨x, -, hqueue, -⟩ | ⟨hnone, -⟩
          · have hqueue' : p.channel.queue = x :: _ := hqueue
            simp [Process.undelivered, Process.delivery, hreceiving, hqueue',
              ProcessAction.isConsumer]
          · cases hnone
      | leave _ hconsumer hrecv =>
          have hreceiving : p.consumer = .receiving := hconsumer
          simp [Process.undelivered, hreceiving, ProcessAction.isConsumer]
  | exit hd =>
      refine ⟨hreturned, ?_⟩
      cases deliveryStep_of_step hd with
      | exit _ hconsumer =>
          have hleft : p.consumer = .left := hconsumer
          simp [Process.undelivered, hleft, ProcessAction.isConsumer]
  | _ => exact ⟨hreturned, le_refl _⟩

/-- When the worker has returned, a consumer that has not exited has a step. -/
theorem exists_step_consumer {p : Process} (hp : process.Reachable p)
    (hreturned : p.system.worker.phase = .returned) (hrunning : p.consumer ≠ .exited) :
  ∃ a q, process.step p a = some q ∧ a.isConsumer = true
  := by
  have halive : p.system.worker.phase.alive = true := by
    rw [hreturned]
    rfl
  have hsender : p.channel.sender = false := by
    have hsender := (delivering (delivery_reachable hp)).sender
    rw [Process.delivery, hreturned] at hsender
    apply hsender
  cases hconsumer : p.consumer with
  | receiving =>
      obtain ⟨o, channel, hrecv⟩ : ∃ o channel, p.channel.recv = some (o, channel) := by
        rw [Channel.recv]
        split
        · exact ⟨_, _, rfl⟩
        · rw [hsender]
          exact ⟨_, _, rfl⟩
      cases o with
      | none =>
          refine ⟨.recv, { p with channel := channel, consumer := .left }, ?_, rfl⟩
          simp only [process, Process.step, Process.consume, SgCapture.Delivery.step,
            Process.delivery, halive, hconsumer, hrecv]
      | some frame => exact ⟨.recv, _, step_recv halive hconsumer hrecv, rfl⟩
  | left =>
      refine ⟨.exit, { p with channel := p.channel.dropReceiver, consumer := .exited }, ?_, rfl⟩
      simp only [process, Process.step, Process.consume, SgCapture.Delivery.step,
        Process.delivery, halive, hconsumer]
  | exited => cases hrunning hconsumer

/-- When the worker has returned, the consumer takes at most two steps more than there are frames in
the dispatch channel; until it has exited it has a step to take; and when it has exited it has
received every frame that the worker has dispatched. -/
theorem consumer_terminates {p : Process} (hp : process.Reachable p)
    (hreturned : p.system.worker.phase = .returned) {as : List ProcessAction} {q : Process}
    (h : process.run p as = some q) :
  as.countP ProcessAction.isConsumer ≤ p.channel.queue.length + 2
    ∧ (q.consumer ≠ .exited → ∃ a r, process.step q a = some r ∧ a.isConsumer = true)
    ∧ (q.consumer = .exited →
      q.channel.queue = [] ∧ q.channel.received = q.system.worker.accepted)
  := by
  have hq : process.Reachable q := hp.run h
  and_intros
  · have hrank := LTS.run_rank (fun p => p.system.worker.phase = .returned) (fun _ => False)
      Process.undelivered ProcessAction.isConsumer (fun _ => false) 0 ?_ ?_ hreturned h
    · have hle : p.undelivered ≤ p.channel.queue.length + 2 := by
        rw [Process.undelivered]
        cases p.consumer <;> simp
      rcases hrank with hfalse | hrank
      · cases hfalse
      · omega
    · intro s a t hfalse
      cases hfalse
    · intro s a _ t hs hst
      obtain ⟨ht, hle⟩ := undelivered_run hs hst
      exact ⟨ht, Or.inr hle⟩
  · intro hrunning
    apply exists_step_consumer hq _ hrunning
    apply LTS.run_invariant (P := fun p => p.system.worker.phase = .returned) _ hreturned h
    intro s a t hs hst
    apply (undelivered_run hs hst).1
  · intro hexited
    have hdelivering := delivering (delivery_reachable hq)
    have hqueue : q.channel.queue = [] := by
      apply (hdelivering.finished _).2
      change q.consumer ≠ .receiving
      simp [hexited]
    refine ⟨hqueue, ?_⟩
    have hsent : q.channel.sent = q.system.worker.accepted := hdelivering.sent
    rw [← hsent, ← q.channel.fifo, hqueue, List.append_nil]

/-- After the run that leaves a frame in the channel, the consumer receives it and ends. -/
theorem consumer_terminates_lateFrame :
  ∃ p q, process.run process.init (lateFrame ++ [.detach true]) = some p
    ∧ process.run p [.recv, .recv, .exit] = some q ∧ p.channel.queue.length = 1
    ∧ q.channel.queue = [] ∧ q.channel.received = q.system.worker.accepted
  := by
  have hrun : ((process.run process.init (lateFrame ++ [.detach true])).bind fun p =>
      (process.run p [.recv, .recv, .exit]).map fun q =>
        (p.system.worker.phase, p.channel.queue.length, q.consumer))
      = some (.returned, 1, .exited) := by decide +kernel
  obtain ⟨p, hp, hmap⟩ := Option.bind_eq_some_iff.mp hrun
  obtain ⟨q, hq, heq⟩ := Option.map_eq_some_iff.mp hmap
  simp only [Prod.mk.injEq] at heq
  obtain ⟨hreturned, hqueue, hexited⟩ := heq
  obtain ⟨-, -, hreceived⟩ := consumer_terminates ⟨_, hp⟩ hreturned hq
  exact ⟨p, q, hp, hq, hqueue, hreceived hexited⟩

end Pipeline
