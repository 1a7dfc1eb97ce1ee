import ShivaProtocol.Capture.Delivery
import ShivaProtocol.Pipeline.Conservation
import ShivaProtocol.Pipeline.Ordering

/-!
# The shutdown sequence

On a signal `main` stores the shutdown flag, joins the vacuum worker and then detaches the hook.
`process` runs the kernel program, the worker, its consumer and `main` together; it simulates the
system of the two programs and the delivery to the consumer.  A worker that cannot be pinned aborts
the process, and then only the kernel program goes on (`run_of_aborted`).  When `main` has returned,
every frame taken off the ring is counted, and a frame is left behind only if it has been committed
after the last poll that found the ring empty (`shutdown_accounting`).
-/

open SgCommon SgEbpf SgCapture

namespace Pipeline

/-- Where `main` stands: it awaits a signal; it has stored the shutdown flag and awaits the worker;
it has joined the worker; it has returned the result of `detach`. -/
inductive MainPhase where
  | serving
  | stopping
  | joined
  | returned (ok : Bool)
  deriving DecidableEq

/-- The two programs, the dispatch channel and its consumer, the shutdown flag, whether the hook is
attached, and `main`. -/
structure Process where
  system : System
  channel : DispatchChannel
  consumer : Consumer
  shutdown : Bool
  attached : Bool
  main : MainPhase

/-- A step of the kernel program or of the worker; a call of `recv` by the consumer and the end of
the consumer; the signal; the end of the join; the call of `detach`. -/
inductive ProcessAction where
  | kernel (a : KernelAction)
  | worker (a : WorkerAction)
  | recv
  | exit
  | signal
  | join
  | detach (ok : Bool)

/-- Whether the hook allows an action of the kernel program.  An invocation that has begun goes on
after the hook is detached. -/
def hookAllows (attached : Bool) : KernelAction → Bool
  | .ingress _ _ _ => attached
  | _ => true

/-- Whether the shutdown flag allows an action of the worker.  A relaxed load may return the value
the flag had before the store. -/
def flagAllows (shutdown : Bool) : WorkerAction → Bool
  | .checkShutdown flag => !flag || shutdown
  | _ => true

namespace Process

/-- The process when the worker has been spawned. -/
def init : Process where
  system := System.init
  channel := dispatchChannel
  consumer := .receiving
  shutdown := false
  attached := true
  main := .serving

/-- The worker, its channel and its consumer. -/
def delivery (p : Process) : SgCapture.Delivery where
  worker := p.system.worker
  channel := p.channel
  consumer := p.consumer

/-- The process after a step of the consumer. -/
def consume (p : Process) (a : DeliveryAction) : Option Process :=
  match p.delivery.step a with
  | some d => some { p with channel := d.channel, consumer := d.consumer }
  | none => none

/-- The state after an action, if it is enabled.  The threads end with their process; the kernel
program is not part of it. -/
def step (p : Process) : ProcessAction → Option Process
  | .kernel a =>
      match p.system.step (.kernel a), hookAllows p.attached a with
      | some s, true => some { p with system := s }
      | _, _ => none
  | .worker a =>
      match p.system.step (.worker a), channelStep p.system.worker p.channel a,
        flagAllows p.shutdown a with
      | some s, some channel, true => some { p with system := s, channel := channel }
      | _, _, _ => none
  | .recv => p.consume .recv
  | .exit => p.consume .exit
  | .signal =>
      match p.system.worker.phase.alive, p.main with
      | true, .serving => some { p with shutdown := true, main := .stopping }
      | _, _ => none
  | .join =>
      match p.main, p.system.worker.phase with
      | .stopping, .returned => some { p with main := .joined }
      | _, _ => none
  | .detach ok =>
      match p.system.worker.phase.alive, p.main with
      | true, .joined => some { p with attached := !ok, main := .returned ok }
      | _, _ => none

end Process

/-- The process, as a transition system.  Between the return of `main` and the exit of the process
its threads may still take steps. -/
def process : LTS Process ProcessAction where
  init := Process.init
  step := Process.step

/-- What a step of the process can do. -/
inductive ProcessStep (p : Process) : ProcessAction → Process → Prop where
  | kernel {a s} : system.step p.system (.kernel a) = some s → hookAllows p.attached a = true →
      ProcessStep p (.kernel a) { p with system := s }
  | worker {a s channel} : system.step p.system (.worker a) = some s →
      channelStep p.system.worker p.channel a = some channel → flagAllows p.shutdown a = true →
      ProcessStep p (.worker a) { p with system := s, channel := channel }
  | recv {d} : (SgCapture.delivery 0).step p.delivery .recv = some d →
      ProcessStep p .recv { p with channel := d.channel, consumer := d.consumer }
  | exit {d} : (SgCapture.delivery 0).step p.delivery .exit = some d →
      ProcessStep p .exit { p with channel := d.channel, consumer := d.consumer }
  | signal : p.system.worker.phase.alive = true → p.main = .serving →
      ProcessStep p .signal { p with shutdown := true, main := .stopping }
  | join : p.main = .stopping → p.system.worker.phase = .returned →
      ProcessStep p .join { p with main := .joined }
  | detach (ok : Bool) : p.system.worker.phase.alive = true → p.main = .joined →
      ProcessStep p (.detach ok) { p with attached := !ok, main := .returned ok }

/-- A step of the consumer is a step of the delivery. -/
theorem consume_some {p p' : Process} {a : DeliveryAction} (h : p.consume a = some p') :
  ∃ d, (SgCapture.delivery 0).step p.delivery a = some d
    ∧ p' = { p with channel := d.channel, consumer := d.consumer }
  := by
  rw [Process.consume] at h
  split at h
  · rename_i d hd
    use d, hd
    apply (Option.some.inj h).symm
  · cases h

/-- Every step is one of `ProcessStep`. -/
theorem processStep_of_step {p p' : Process} {a : ProcessAction} (h : process.step p a = some p') :
  ProcessStep p a p'
  := by
  cases a with
  | kernel a =>
      simp only [process, Process.step] at h
      split at h
      · rename_i hsystem hhook
        obtain rfl := Option.some.inj h
        apply ProcessStep.kernel hsystem hhook
      · cases h
  | worker a =>
      simp only [process, Process.step] at h
      split at h
      · rename_i hsystem hchannel hflag
        obtain rfl := Option.some.inj h
        apply ProcessStep.worker hsystem hchannel hflag
      · cases h
  | recv =>
      obtain ⟨d, hd, rfl⟩ := consume_some h
      apply ProcessStep.recv hd
  | exit =>
      obtain ⟨d, hd, rfl⟩ := consume_some h
      apply ProcessStep.exit hd
  | signal =>
      simp only [process, Process.step] at h
      split at h
      · rename_i halive hmain
        obtain rfl := Option.some.inj h
        apply ProcessStep.signal halive hmain
      · cases h
  | join =>
      simp only [process, Process.step] at h
      split at h
      · rename_i hmain hreturned
        obtain rfl := Option.some.inj h
        apply ProcessStep.join hmain hreturned
      · cases h
  | detach ok =>
      simp only [process, Process.step] at h
      split at h
      · rename_i halive hmain
        obtain rfl := Option.some.inj h
        apply ProcessStep.detach ok halive hmain
      · cases h

/-- In a process that is alive, a consumer in its loop receives what the channel gives. -/
theorem step_recv {p : Process} {frame : SignalFrame} {channel : DispatchChannel}
    (halive : p.system.worker.phase.alive = true) (hconsumer : p.consumer = .receiving)
    (hrecv : p.channel.recv = some (some frame, channel)) :
  process.step p .recv = some { p with channel := channel }
  := by
  simp only [process, Process.step, Process.consume, SgCapture.Delivery.step, Process.delivery,
    halive, hconsumer, hrecv]

/-! ### The parts of the process -/

/-- The process runs the two programs. -/
def processToSystem : LTS.Simulation process system where
  state p := p.system
  action
    | .kernel a => some (.kernel a)
    | .worker a => some (.worker a)
    | _ => none
  init := rfl
  step := by
    intro p a b q ha h
    cases processStep_of_step h with
    | kernel hsystem _ =>
        obtain rfl := Option.some.inj ha
        apply hsystem
    | worker hsystem _ _ =>
        obtain rfl := Option.some.inj ha
        apply hsystem
    | _ => cases ha
  stutter := by
    intro p a q ha h
    cases processStep_of_step h with
    | kernel _ _ => cases ha
    | worker _ _ _ => cases ha
    | _ => rfl

/-- A step of the kernel program leaves the worker alone. -/
theorem worker_of_step_kernel {s s' : System} {a : KernelAction}
    (h : system.step s (.kernel a) = some s') :
  s'.worker = s.worker
  := by
  cases systemStep_of_step h with
  | kernel _ => rfl

/-- A step of the worker, on a ring and a channel that allow it, is a step of the delivery. -/
theorem delivery_of_step_worker {p : Process} {a : WorkerAction} {s : System}
    {channel : DispatchChannel} (h : system.step p.system (.worker a) = some s)
    (hchannel : channelStep p.system.worker p.channel a = some channel) :
  (SgCapture.delivery 0).step p.delivery (.worker a)
    = some { worker := s.worker, channel := channel, consumer := p.consumer }
  := by
  cases systemStep_of_step h with
  | worker hworker _ =>
      have hstep : p.delivery.worker.step a = some _ := hworker
      have hchannel' : channelStep p.delivery.worker p.delivery.channel a = some channel := hchannel
      simp only [SgCapture.delivery, SgCapture.Delivery.step, hstep, hchannel']
      rfl

/-- A step of the consumer leaves the worker alone. -/
theorem worker_of_step_consumer {d d' : SgCapture.Delivery} {a : DeliveryAction}
    (h : (SgCapture.delivery 0).step d a = some d') (ha : ∀ b, a ≠ .worker b) :
  d'.worker = d.worker
  := by
  cases deliveryStep_of_step h with
  | @worker b _ _ _ _ => cases ha b rfl
  | _ => rfl

/-- A step of the consumer in the process is its step in the delivery. -/
theorem delivery_of_step_consumer {p : Process} {a : DeliveryAction} {d : SgCapture.Delivery}
    (h : (SgCapture.delivery 0).step p.delivery a = some d) (ha : ∀ b, a ≠ .worker b) :
  { p with channel := d.channel, consumer := d.consumer }.delivery = d
  := by
  have hworker : p.system.worker = d.worker := (worker_of_step_consumer h ha).symm
  rw [Process.delivery, hworker]

/-- The process runs the worker with its consumer. -/
def processToDelivery : LTS.Simulation process (SgCapture.delivery 0) where
  state p := p.delivery
  action
    | .worker a => some (.worker a)
    | .recv => some .recv
    | .exit => some .exit
    | _ => none
  init := rfl
  step := by
    intro p a b q ha h
    cases processStep_of_step h with
    | worker hsystem hchannel _ =>
        obtain rfl := Option.some.inj ha
        apply delivery_of_step_worker hsystem hchannel
    | recv hd =>
        obtain rfl := Option.some.inj ha
        rw [hd, delivery_of_step_consumer hd (by simp)]
    | exit hd =>
        obtain rfl := Option.some.inj ha
        rw [hd, delivery_of_step_consumer hd (by simp)]
    | _ => cases ha
  stutter := by
    intro p a q ha h
    cases processStep_of_step h with
    | kernel hsystem _ =>
        simp only [Process.delivery, worker_of_step_kernel hsystem]
    | worker _ _ _ => cases ha
    | recv _ => cases ha
    | exit _ => cases ha
    | _ => rfl

theorem system_reachable {p : Process} (hp : process.Reachable p) :
  system.Reachable p.system
  := processToSystem.reachable hp

theorem delivery_reachable {p : Process} (hp : process.Reachable p) :
  (SgCapture.delivery 0).Reachable p.delivery
  := processToDelivery.reachable hp

/-! ### The end of the process -/

/-- In an aborted process only the kernel program takes a step. -/
theorem kernel_of_aborted {p q : Process} {a : ProcessAction}
    (haborted : p.system.worker.phase.alive = false) (h : process.step p a = some q) :
  ∃ b, a = .kernel b ∧ q = { p with system := { p.system with kernel := q.system.kernel } }
  := by
  have hdead : ¬ p.system.worker.phase.alive = true := by simp [haborted]
  cases processStep_of_step h with
  | @kernel b _ hsystem _ =>
      cases systemStep_of_step hsystem with
      | kernel _ => exact ⟨b, rfl, rfl⟩
  | worker hsystem _ _ =>
      cases systemStep_of_step hsystem with
      | worker hworker _ => cases hdead (running_of_workerStep (workerStep_of_step hworker)).2
  | recv hd =>
      cases deliveryStep_of_step hd with
      | recv halive _ _ => cases hdead halive
      | leave halive _ _ => cases hdead halive
  | exit hd =>
      cases deliveryStep_of_step hd with
      | exit halive _ => cases hdead halive
  | signal halive _ => cases hdead halive
  | join _ hreturned =>
      rw [hreturned] at haborted
      cases haborted
  | detach _ halive _ => cases hdead halive

/-- An aborted process stays as it is, whatever the kernel program does: `main` does not return, the
worker takes no item off the ring, and the consumer receives nothing. -/
theorem run_of_aborted {as : List ProcessAction} {p q : Process}
    (haborted : p.system.worker.phase.alive = false) (h : process.run p as = some q) :
  q = { p with system := { p.system with kernel := q.system.kernel } }
  := by
  apply LTS.run_invariant
    (P := fun q => q = { p with system := { p.system with kernel := q.system.kernel } }) _ rfl h
  intro r a q hr hstep
  have haborted' : r.system.worker.phase.alive = false := by
    rw [hr]
    apply haborted
  obtain ⟨_, -, hq⟩ := kernel_of_aborted haborted' hstep
  rw [hr] at hq
  apply hq

/-! ### The end of the worker -/

/-- Whether `main` has joined the worker. -/
def MainPhase.waited : MainPhase → Bool
  | .joined => true
  | .returned _ => true
  | _ => false

/-- A worker that has returned takes no step. -/
theorem not_step_of_returned {cpuId : ℕ} {w w' : Worker} {a : WorkerAction}
    (hreturned : w.phase = .returned) :
  (worker cpuId).step w a ≠ some w'
  := by
  intro h
  apply (running_of_workerStep (workerStep_of_step h)).1 hreturned

/-- When `main` has joined the worker, the worker has returned. -/
theorem phase_of_waited {p : Process} (hp : process.Reachable p) (hmain : p.main.waited = true) :
  p.system.worker.phase = .returned
  := by
  revert hmain
  apply hp.invariant (P := fun p => p.main.waited = true → p.system.worker.phase = .returned)
  · intro h
    cases h
  · intro p a q _ ih h
    cases processStep_of_step h with
    | kernel hsystem _ =>
        rw [worker_of_step_kernel hsystem]
        apply ih
    | worker hsystem _ _ =>
        intro hmain
        cases systemStep_of_step hsystem with
        | worker hworker _ => cases not_step_of_returned (ih hmain) hworker
    | recv _ => apply ih
    | exit _ => apply ih
    | signal _ _ =>
        intro hmain
        cases hmain
    | join _ hreturned =>
        intro _
        apply hreturned
    | detach _ _ hjoined =>
        intro _
        apply ih
        rw [hjoined]
        rfl

/-- When `main` has returned, so has the worker. -/
theorem phase_of_returned {p : Process} (hp : process.Reachable p) {ok : Bool}
    (hmain : p.main = .returned ok) :
  p.system.worker.phase = .returned
  := by
  apply phase_of_waited hp
  rw [hmain]
  rfl

/-- When the worker has returned, every item taken is counted. -/
theorem counted_of_returned {p : Process} (hp : process.Reachable p)
    (hreturned : p.system.worker.phase = .returned) :
  p.system.counted = p.system.consumed
  := by
  have hsystem := system_reachable hp
  have hworker := worker_reachable hsystem
  have hconnected : p.system.worker.results .disconnected = 0 :=
    (delivering (delivery_reachable hp)).connected
  obtain ⟨htaken, hle⟩ := taken_eq hsystem
  have hlen : p.system.worker.taken.length = p.system.consumed := by
    rw [htaken, List.length_take, min_eq_left hle]
  have houtside : p.system.worker.phase.outside = true := by
    rw [hreturned]
    rfl
  have hrecorded : p.system.worker.phase ≠ .recording := by simp [hreturned]
  have hpending : p.system.worker.pending.length = 0 := by
    rw [pending_of_ne hrecorded, (roomy hworker).empty houtside, List.length_nil]
  have hhand := inHand_of_ne hrecorded
  have hcounted := counted_accounting (by decide) hworker
  rw [System.counted]
  omega

/-! ### What is left behind -/

/-- A call of `ring.next()` moves the position in the ring on, and stays on the ring; no other
action moves it. -/
theorem ringStep_mono {ring : List (List UInt8)} {n m : ℕ} {a : WorkerAction}
    (h : ringStep ring n a = some m) :
  n ≤ m ∧ ((∀ item, a ≠ .next item) → m = n)
  := by
  cases a with
  | next item =>
      rw [ringStep, Option.ite_none_right_eq_some] at h
      obtain rfl := Option.some.inj h.2
      constructor
      · apply Nat.le_add_right
      · intro hne
        cases hne item rfl
  | _ =>
      obtain rfl := Option.some.inj h
      exact ⟨le_refl _, fun _ => rfl⟩

/-- The worker does not go back on the ring. -/
theorem consumed_mono {as : List ProcessAction} {p q : Process} (h : process.run p as = some q) :
  p.system.consumed ≤ q.system.consumed
  := by
  apply process.run_rel (fun p q => p.system.consumed ≤ q.system.consumed) _ _ _ h
  · intro p
    apply le_refl
  · intro p q r hpq hqr
    apply le_trans hpq hqr
  · intro p a q h
    cases processStep_of_step h with
    | kernel hsystem _ =>
        cases systemStep_of_step hsystem with
        | kernel _ => apply le_refl
    | worker hsystem _ _ =>
        cases systemStep_of_step hsystem with
        | worker _ hring => apply (ringStep_mono hring).1
    | _ => apply le_refl

/-- Without a call of `ring.next()` the worker stays where it is on the ring. -/
theorem consumed_of_idle {as : List ProcessAction} {p q : Process}
    (h : process.run p as = some q) (has : ∀ item, .worker (.next item) ∉ as) :
  q.system.consumed = p.system.consumed
  := by
  induction as generalizing p with
  | nil =>
      obtain rfl := Option.some.inj h
      rfl
  | cons a as ih =>
      obtain ⟨r, hstep, hrun⟩ := LTS.run_cons_some h
      rw [ih hrun fun item hmem => has item (List.mem_cons_of_mem a hmem)]
      cases processStep_of_step hstep with
      | kernel hsystem _ =>
          cases systemStep_of_step hsystem with
          | kernel _ => rfl
      | worker hsystem _ _ =>
          cases systemStep_of_step hsystem with
          | worker _ hring =>
              apply (ringStep_mono hring).2
              rintro item rfl
              apply has item List.mem_cons_self
      | _ => rfl

/-- Whether an action commits a frame. -/
def ProcessAction.isCommit : ProcessAction → Bool
  | .kernel a => a.isCommit
  | _ => false

/-- The frames committed in a run are the calls of `ring_output` that have succeeded. -/
theorem length_committed_run {as : List ProcessAction} {p q : Process}
    (h : process.run p as = some q) :
  q.system.kernel.committed.length
    = p.system.kernel.committed.length + as.countP ProcessAction.isCommit
  := by
  apply LTS.run_countP (f := fun p : Process => p.system.kernel.committed.length) _ h
  intro p a q hstep
  cases processStep_of_step hstep with
  | kernel hsystem _ =>
      cases systemStep_of_step hsystem with
      | kernel hkernel => apply length_committed_step hkernel
  | worker hsystem _ _ =>
      cases systemStep_of_step hsystem with
      | worker _ _ => rfl
  | _ => rfl

theorem countP_isCommit_eq_zero_iff (as : List ProcessAction) :
  as.countP ProcessAction.isCommit = 0 ↔ ∀ cpu, .kernel (.output cpu true) ∉ as
  := by
  rw [List.countP_eq_zero]
  constructor
  · intro hnone cpu hmem
    apply hnone _ hmem rfl
  · intro hnone a ha hcommit
    cases a with
    | kernel a =>
        cases a with
        | output cpu room =>
            cases room with
            | true => apply hnone cpu ha
            | false => cases hcommit
        | _ => cases hcommit
    | _ => cases hcommit

/-- A poll that finds the ring empty finds the worker at its end. -/
theorem committed_le_of_poll {p q : Process} (hp : process.Reachable p)
    (h : process.step p (.worker (.next none)) = some q) :
  p.system.kernel.committed.length ≤ q.system.consumed
  := by
  have hsystem := system_reachable hp
  cases processStep_of_step h with
  | worker hstep _ _ =>
      cases systemStep_of_step hstep with
      | worker _ hring =>
          have hmono := (ringStep_mono hring).1
          rw [ringStep, Option.ite_none_right_eq_some] at hring
          have hend := List.getElem?_eq_none_iff.mp hring.1.symm
          rw [length_ring hsystem] at hend
          apply le_trans hend hmono

/-- The number of items on the ring, in terms of the frames committed. -/
theorem waiting_eq {s : System} (hs : system.Reachable s) :
  s.waiting = s.kernel.committed.length - s.consumed ∧ s.consumed ≤ s.kernel.committed.length
  := by
  rw [System.waiting, ← length_ring hs]
  exact ⟨rfl, (taken_eq hs).2⟩

/-- When `main` returns Ok, the items taken off the ring are the frames committed up to the position
of the worker, in commit order, and each of them is counted in one counter; every frame committed
before a poll that found the ring empty is among them; and no frame is left behind exactly if the
last call of `ring.next()` left none and none was committed after it. -/
theorem shutdown_accounting {as : List ProcessAction} {p : Process}
    (h : process.run process.init as = some p) (hmain : p.main = .returned true) :
  p.system.worker.taken = (p.system.kernel.committed.take p.system.consumed).map SignalFrame.bytes
    ∧ p.system.counted = p.system.consumed
    ∧ (∀ bs cs q, as = bs ++ .worker (.next none) :: cs → process.run process.init bs = some q →
      q.system.kernel.committed.length ≤ p.system.consumed)
    ∧ ∀ bs cs q, as = bs ++ cs → process.run process.init bs = some q →
      (∀ item, .worker (.next item) ∉ cs) →
      (p.system.waiting = 0
        ↔ q.system.waiting = 0 ∧ ∀ cpu, .kernel (.output cpu true) ∉ cs)
  := by
  have hp : process.Reachable p := ⟨as, h⟩
  have hsystem := system_reachable hp
  and_intros
  · rw [(taken_eq hsystem).1, ring_eq_committed hsystem, List.map_take]
  · apply counted_of_returned hp (phase_of_returned hp hmain)
  · rintro bs cs q rfl hq
    obtain ⟨r, hstep, hrun⟩ := LTS.run_cons_some (LTS.run_of_append h hq)
    apply le_trans (committed_le_of_poll ⟨bs, hq⟩ hstep) (consumed_mono hrun)
  · rintro bs cs q rfl hq hidle
    have hrest := LTS.run_of_append h hq
    have hconsumed := consumed_of_idle hrest hidle
    have hcommitted := length_committed_run hrest
    obtain ⟨hwaiting, hle⟩ := waiting_eq hsystem
    obtain ⟨hqwaiting, hqle⟩ := waiting_eq (system_reachable ⟨bs, hq⟩)
    rw [← countP_isCommit_eq_zero_iff]
    omega

/-! ### A frame left behind -/

/-- CPU 0 commits a frame; the worker takes it and hands it to the consumer.  Then CPU 1 commits a
frame, and the signal arrives before the worker polls again. -/
def lateFrame : List ProcessAction :=
  (invocation 0 DenyMap.allowAll true samplePacket).map .kernel
    ++ [.worker (.pin true), .worker (.checkShutdown false),
      .worker (.next (some (sampleFrame 0 0).bytes)), .worker (.next none), .worker (.trySend .ok),
      .worker .recordOk, .worker .yieldNow]
    ++ (invocation 1 DenyMap.allowAll true samplePacket).map .kernel
    ++ [.signal, .worker (.checkShutdown true), .worker .ret, .join]

theorem run_lateFrame :
  ∃ p, process.run process.init (lateFrame ++ [.detach true]) = some p
    ∧ p.main = .returned true ∧ p.system.kernel.committed.length = 2 ∧ p.system.consumed = 1
    ∧ p.channel.received = [] ∧ p.channel.queue.length = 1
  := by
  have hrun : (process.run process.init (lateFrame ++ [.detach true])).map
      (fun p => (p.main, p.system.kernel.committed.length, p.system.consumed,
        p.channel.received.length, p.channel.queue.length))
      = some (.returned true, 2, 1, 0, 1) := by decide +kernel
  obtain ⟨p, h, hp⟩ := Option.map_eq_some_iff.mp hrun
  simp only [Prod.mk.injEq, List.length_eq_zero_iff] at hp
  use p, h, hp.1, hp.2.1, hp.2.2.1, hp.2.2.2.1, hp.2.2.2.2

/-- The frame of CPU 1, committed before the hook is detached, is neither taken nor counted when
`main` returns Ok. -/
theorem lateFrame_left :
  (∀ ok, .detach ok ∉ lateFrame)
    ∧ ∃ p, process.run process.init (lateFrame ++ [.detach true]) = some p
      ∧ p.main = .returned true ∧ p.system.kernel.committed.length = 2
      ∧ p.system.worker.taken.length = 1 ∧ p.system.counted = 1
  := by
  constructor
  · intro ok h
    simp [lateFrame, invocation] at h
  · obtain ⟨p, h, hmain, hcommitted, hconsumed, -, -⟩ := run_lateFrame
    have hp : process.Reachable p := ⟨_, h⟩
    have hsystem := system_reachable hp
    refine ⟨p, h, hmain, hcommitted, ?_, ?_⟩
    · obtain ⟨htaken, hle⟩ := taken_eq hsystem
      rw [htaken, List.length_take, min_eq_left hle, hconsumed]
    · rw [counted_of_returned hp (phase_of_returned hp hmain), hconsumed]

/-- In that run the frame of CPU 0 is taken and counted. -/
theorem shutdown_accounting_lateFrame :
  ∃ p, process.run process.init (lateFrame ++ [.detach true]) = some p ∧ p.main = .returned true
    ∧ p.system.worker.taken = (p.system.kernel.committed.take 1).map SignalFrame.bytes
    ∧ p.system.counted = 1
  := by
  obtain ⟨p, h, hmain, -, hconsumed, -, -⟩ := run_lateFrame
  obtain ⟨htaken, hcounted, -, -⟩ := shutdown_accounting h hmain
  rw [hconsumed] at htaken hcounted
  exact ⟨p, h, hmain, htaken, hcounted⟩

end Pipeline
