import ShivaProtocol.Pipeline.Liveness
import ShivaProtocol.Pipeline.Refinement

/-!
# From the ring to the consumer in bounded time

No frame stays in flight for good.  A bounded number of steps of the worker brings it to the top of
its loop with all frames off the ring and out of the batch that have been committed before
(`passes_settled`).  From then on these are in the dispatch channel, where nothing overtakes them;
so when the consumer has received as many frames as the channel holds, each of them has been
received, or its loss has been recorded (`reaches_consumer`).
-/

open SgCommon SgEbpf SgCapture

namespace Pipeline

/-- The worker has taken the first `n` frames off the ring, and is at the top of its loop. -/
structure Settled (n : ℕ) (p : Process) : Prop where
  consumed : n ≤ p.system.consumed
  top : p.system.worker.phase = .top

/-- The steps the worker owes to take the first `n` frames off the ring and to come to the top of
its loop. -/
def Process.debt (n : ℕ) (p : Process) : ℕ :=
  if n ≤ p.system.consumed then p.system.worker.remaining
  else p.system.worker.backlog + 5 * (n - p.system.consumed) + 771

/-- A worker in the middle of its loop does not read the shutdown flag, and each of its steps brings
it closer to the top. -/
theorem remaining_of_ne_top {p q : Process} {a : ProcessAction} (hp : process.Reachable p)
    (hphase : p.system.worker.phase ≠ .top) (h : process.step p a = some q) :
  q.system.worker.remaining + a.isWorker.toNat ≤ p.system.worker.remaining
  := by
  cases processStep_of_step h with
  | kernel hstep _ =>
      rw [worker_of_step_kernel hstep]
      apply le_refl
  | @worker a _ _ hstep _ _ =>
      cases systemStep_of_step hstep with
      | worker hworker _ =>
          have hremaining :=
            remaining_step (roomy (worker_reachable (system_reachable hp))) hworker
          have hreads : a.readsUnset = false := by
            cases workerStep_of_step hworker with
            | poll htop => cases hphase htop
            | _ => rfl
          rw [hreads] at hremaining
          apply hremaining
  | _ => apply le_refl

/-- Until the first `n` frames are settled, each step of the worker pays off one of the steps it
owes. -/
theorem debt_step {p q : Process} {a : ProcessAction} {n : ℕ} (hp : process.Reachable p)
    (hn : n ≤ p.system.kernel.committed.length) (hsettled : ¬ Settled n p)
    (h : process.step p a = some q) (hflag : a ≠ .worker (.checkShutdown true)) :
  q.debt n + a.isWorker.toNat ≤ p.debt n
  := by
  have hrun : process.run p [a] = some q := by rw [LTS.run_singleton, h]
  by_cases hreached : n ≤ p.system.consumed
  · have hstays : n ≤ q.system.consumed := hreached.trans (consumed_mono hrun)
    rw [Process.debt, Process.debt, if_pos hreached, if_pos hstays]
    apply remaining_of_ne_top hp _ h
    intro htop
    apply hsettled ⟨hreached, htop⟩
  · have hremaining := remaining_le (roomy (worker_reachable (system_reachable (hp.step h))))
    have hone : a.isWorker.toNat ≤ 1 := Bool.toNat_le _
    have hbacklog := backlog_run hp hn h hflag
    rw [Process.debt, Process.debt, if_neg hreached]
    split <;> omega

theorem debt_le (n : ℕ) {p : Process} (hp : process.Reachable p) :
  p.debt n ≤ 5 * (n - p.system.consumed) + 1285
  := by
  have hremaining := remaining_le (roomy (worker_reachable (system_reachable hp)))
  have hbacklog := backlog_le p.system.worker
  have hsize : batchSize = 256 := rfl
  rw [Process.debt]
  split <;> omega

/-- A run in which the worker takes sufficiently many steps passes through a state in which the
first `n` frames are settled. -/
theorem passes_settled {p q : Process} {n : ℕ} {as : List ProcessAction} (hp : process.Reachable p)
    (hn : n ≤ p.system.kernel.committed.length) (h : process.run p as = some q)
    (hflag : .worker (.checkShutdown true) ∉ as)
    (hsteps : 5 * (n - p.system.consumed) + 1285 < as.countP ProcessAction.isWorker) :
  ∃ bs t, process.Reachable t ∧ Settled n t ∧ process.run t bs = some q
  := by
  have hreaches := LTS.run_reaches
    (fun p => process.Reachable p ∧ n ≤ p.system.kernel.committed.length)
    (Settled n) (Process.debt n) ProcessAction.isWorker (fun _ => false) 0 ?_ ⟨hp, hn⟩ h
  · rcases hreaches with ⟨cs, bs, t, -, hcs, ht, hbs⟩ | hrank
    · exact ⟨bs, t, hp.run hcs, ht, hbs⟩
    · have hle := debt_le n hp
      omega
  · rintro s a ha t ⟨hs, hle⟩ hsettled hst
    have hrun : process.run s [a] = some t := by rw [LTS.run_singleton, hst]
    refine ⟨⟨hs.step hst, le_trans hle (length_committed_le hrun)⟩, ?_⟩
    right
    apply debt_step hs hle hsettled hst
    rintro rfl
    apply hflag ha

/-! ### From the channel to the consumer -/

/-- In a settled state, nothing is in the hands of the worker. -/
theorem inFlight_of_settled {p : Process} {n : ℕ} (hp : process.Reachable p) (h : Settled n p) :
  p.inFlight = p.channel.queue ++ p.system.kernel.committed.drop p.system.consumed
  := by
  have hroomy := roomy (worker_reachable (system_reachable hp))
  have hpending : p.system.worker.pending = [] := by
    rw [pending_of_ne (by simp [h.top])]
    apply hroomy.empty
    rw [h.top]
    rfl
  rw [Process.inFlight, hpending, List.append_nil]

/-- A frame that has been dispatched stays so. -/
theorem length_accepted_le {w w' : Worker} (h : Moves w w') :
  w.accepted.length ≤ w'.accepted.length
  := by
  cases h with
  | quiet hlog _ => rw [Worker.accepted, Worker.accepted, hlog]
  | dropped hlog _ =>
      rw [Worker.accepted_concat hlog, List.length_append]
      apply Nat.le_add_right
  | pushed hlog _ _ =>
      rw [Worker.accepted_concat hlog, List.length_append]
      apply Nat.le_add_right
  | sent hlog _ =>
      rw [Worker.accepted_concat hlog, List.length_append]
      apply Nat.le_add_right

theorem accepted_mono {p q : Process} {as : List ProcessAction} (hp : process.Reachable p)
    (h : process.run p as = some q) :
  p.system.worker.accepted.length ≤ q.system.worker.accepted.length
  := by
  have hboth : process.Reachable q
      ∧ p.system.worker.accepted.length ≤ q.system.worker.accepted.length := by
    apply process.run_invariant (P := fun q => process.Reachable q
      ∧ p.system.worker.accepted.length ≤ q.system.worker.accepted.length) _ ⟨hp, le_refl _⟩ h
    rintro s a t ⟨hs, hle⟩ hst
    refine ⟨hs.step hst, hle.trans ?_⟩
    cases processStep_of_step hst with
    | kernel hstep _ => rw [worker_of_step_kernel hstep]
    | worker _ _ _ =>
        apply length_accepted_le
        apply moves_of_step (worker_reachable (system_reachable hs)) (frame_of_step_worker hst).2.2
    | _ => apply le_refl
  apply hboth.2

/-- Nothing is overtaken from a settled state on: when the consumer has received what was in the
channel, none of the first `n` frames committed is in flight any more. -/
theorem inFlight_sublist_of_settled {p q : Process} {n : ℕ} {as : List ProcessAction}
    (hp : process.Reachable p) (hsettled : Settled n p) (h : process.run p as = some q)
    (hreceived : p.channel.received.length + p.channel.queue.length ≤ q.channel.received.length) :
  q.inFlight.Sublist (q.system.kernel.committed.drop n)
  := by
  obtain ⟨bs, hbs⟩ := exists_lossyRun hp h
  have hfront := LossyQueue.run_front hbs.run (inFlight_of_settled hp hsettled) hreceived
  have hle := (waiting_eq (system_reachable hp)).2
  rw [← List.drop_append_of_le_length hle, ← hbs.submitted] at hfront
  apply hfront.trans
  apply List.drop_sublist_drop_left _ hsettled.consumed

/-- While there is a frame in the channel, the consumer can receive it. -/
theorem exists_step_recv {p : Process} (hp : process.Reachable p) (hqueue : p.channel.queue ≠ []) :
  ∃ q, process.step p .recv = some q
    ∧ q.channel.received.length = p.channel.received.length + 1
  := by
  have hconsumer : p.consumer = .receiving := by
    by_contra hne
    apply hqueue ((delivering (delivery_reachable hp)).finished hne).2
  obtain ⟨frame, channel, hrecv⟩ := Channel.exists_recv hqueue
  use { p with channel := channel }
  constructor
  · apply step_recv (alive_of_queue (delivery_reachable hp) hqueue) hconsumer hrecv
  · rcases Channel.recv_cases hrecv with ⟨_, -, -, -, hreceived, -⟩ | ⟨hnone, -⟩
    · rw [hreceived, List.length_append]
      rfl
    · cases hnone

/-- Whatever the kernel program and `main` do: when the worker has taken more than five steps for
every frame that waits on the ring, and 1285 for its batches, and the consumer has then received as
many frames as are in the channel, none of the first `n` frames committed is in flight any more:
each has been received or its loss is recorded.  And while there is a frame in the channel, the
consumer has a step to receive one. -/
theorem reaches_consumer {p r q : Process} {n : ℕ} {as bs : List ProcessAction}
    (hp : process.Reachable p) (hn : n ≤ p.system.kernel.committed.length)
    (hr : process.run p as = some r) (hflag : .worker (.checkShutdown true) ∉ as)
    (hsteps : 5 * (n - p.system.consumed) + 1285 < as.countP ProcessAction.isWorker)
    (hq : process.run r bs = some q) :
  (r.channel.received.length + r.channel.queue.length ≤ q.channel.received.length →
      q.inFlight.Sublist (q.system.kernel.committed.drop n))
    ∧ (q.channel.queue ≠ [] →
      ∃ s, process.step q .recv = some s
        ∧ s.channel.received.length = q.channel.received.length + 1)
  := by
  constructor
  · intro hreceived
    obtain ⟨cs, t, ht, hsettled, hcs⟩ := passes_settled hp hn hr hflag hsteps
    apply inFlight_sublist_of_settled ht hsettled (LTS.run_trans hcs hq)
    have hmono := accepted_mono ht hcs
    rw [← received_append_queue ht, ← received_append_queue (ht.run hcs), List.length_append,
      List.length_append] at hmono
    apply hmono.trans hreceived
  · apply exists_step_recv ((hp.run hr).run hq)

/-- The worker goes round its loop on the empty ring another 260 times. -/
def patientRun : List ProcessAction :=
  busyRun ++ (List.replicate 260 [.worker (.checkShutdown false), .worker (.next none),
    .worker .yieldNow]).flatten

/-- One frame is committed, the worker goes round its loop, and the consumer receives the frame:
then nothing is in flight. -/
theorem reaches_consumer_patientRun :
  ∃ p r q, process.run process.init oneFrame = some p ∧ process.run p patientRun = some r
    ∧ process.run r [.recv] = some q
    ∧ p.system.kernel.committed.length = 1 ∧ q.channel.received.length = 1 ∧ q.inFlight = []
  := by
  have hrun : ((process.run process.init oneFrame).bind fun p =>
      (process.run p patientRun).bind fun r => (process.run r [.recv]).map fun q =>
        (p.system.kernel.committed.length, p.system.consumed,
          r.channel.received.length + r.channel.queue.length,
          q.channel.received.length, q.system.kernel.committed.length))
      = some (1, 0, 1, 1, 1) := by decide +kernel
  obtain ⟨p, hp, hbind⟩ := Option.bind_eq_some_iff.mp hrun
  obtain ⟨r, hr, hmap⟩ := Option.bind_eq_some_iff.mp hbind
  obtain ⟨q, hq, heq⟩ := Option.map_eq_some_iff.mp hmap
  simp only [Prod.mk.injEq] at heq
  obtain ⟨hcommitted, hconsumed, hdispatched, hreceived, hlast⟩ := heq
  have hsteps : 1290 < patientRun.countP ProcessAction.isWorker := by decide +kernel
  have hunset : ProcessAction.worker (.checkShutdown true) ∉ patientRun := by
    simp [patientRun, busyRun, List.mem_flatten, -List.reduceReplicate]
  have hinFlight := (reaches_consumer ⟨_, hp⟩ hcommitted.ge hr hunset
    (by rw [hconsumed]; apply hsteps) hq).1 (by rw [hdispatched, hreceived])
  refine ⟨p, r, q, hp, hr, hq, hcommitted, hreceived, ?_⟩
  rw [List.drop_of_length_le hlast.le, List.sublist_nil] at hinFlight
  apply hinFlight

end Pipeline
