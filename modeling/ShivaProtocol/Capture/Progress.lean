import ShivaProtocol.Capture.Delivery
import ShivaProtocol.Capture.Deltas

/-!
# The progress of a worker and of the reporter

Between two calls of `ring.next()` a worker takes a bounded number of steps: two for every frame of
its batch and a few for the loop.  So `backlog` bounds the steps before the next call, with five
steps for every item taken (`backlog_step`), and `remaining` bounds the steps to the end of
`vacuum_entry`, unless the shutdown flag is read as unset (`remaining_step`).  Until it has
returned, or has aborted the process, a worker has a step, whatever the ring and the channel hold
(`exists_step`).

The reporter looks at the shutdown signal between two ticks only.  Once the signal is given it
finishes the tick under way, if there is one, and ends (`reporter_terminates`).
-/

open SgCommon

namespace SgCapture

/-! ### From one call of `ring.next()` to the next -/

/-- The steps a worker owes for the frames of its batch, and to get to its next call of
`ring.next()`. -/
def Worker.backlog (w : Worker) : ℕ :=
  match w.phase with
  | .pinning => 2
  | .top => 1
  | .draining _ => 2 * w.batch.toList.length
  | .dispatching => 2 * w.batch.toList.length + 2
  | .recording => 2 * w.batch.toList.length + 1
  | .exiting => 1
  | .returned => 0
  | .aborted => 0

/-- The number of items that an action takes off the ring. -/
def WorkerAction.items : WorkerAction → ℕ
  | .next (some _) => 1
  | _ => 0

theorem backlog_le (w : Worker) :
  w.backlog ≤ 2 * batchSize + 2
  := by
  have hle := w.batch.length_le
  rw [Worker.backlog]
  split <;> omega

theorem length_tail_of_ne {w : Worker} (h : w.batch.toList ≠ []) :
  w.batch.tail.toList.length + 1 = w.batch.toList.length
  := by
  rw [ArrayVec.tail, List.length_tail]
  have hpos := List.length_pos_iff.mpr h
  omega

/-- Unless it finds the ring empty or reads the shutdown flag as set, every step pays off one of the
steps owed, and an item taken costs five. -/
theorem backlog_step {cpuId : ℕ} {w w' : Worker} {a : WorkerAction} (hw : Roomy w)
    (h : (worker cpuId).step w a = some w') (hflag : a ≠ .checkShutdown true)
    (hempty : a ≠ .next none) :
  w'.backlog + 1 ≤ w.backlog + 5 * a.items
  := by
  cases workerStep_of_step h with
  | pin ok hphase =>
      cases ok <;> simp [Worker.backlog, hphase, WorkerAction.items]
  | stop _ => cases hflag rfl
  | poll hphase => simp [Worker.backlog, hphase, ArrayVec.empty]
  | @item left raw hphase =>
      have hle := length_validate_le w raw
      cases left with
      | zero =>
          simp only [Worker.backlog, hphase, Phase.afterItem, WorkerAction.items]
          omega
      | succ left =>
          simp only [Worker.backlog, hphase, Phase.afterItem, WorkerAction.items]
          omega
  | drained _ => cases hempty rfl
  | @trySend frame rest result hphase hbatch =>
      have htail := length_tail_of_ne (w := w) (by simp [hbatch])
      cases result <;> simp [Worker.backlog, Worker.dispatch, tryDispatch, hphase,
        WorkerAction.items] <;> omega
  | recordOk hphase =>
      have htail := length_tail_of_ne (hw.hand hphase)
      simp only [Worker.backlog, hphase, WorkerAction.items]
      omega
  | yieldNow hphase hbatch =>
      simp only [Worker.backlog, hphase]
      omega
  | ret hphase => simp [Worker.backlog, hphase]

/-! ### To the end of the call -/

/-- The steps a worker has left when it reads the shutdown flag as set. -/
def Worker.remaining (w : Worker) : ℕ :=
  match w.phase with
  | .pinning => 3
  | .top => 2
  | .draining left => 3 * (left + 1) + 2 * w.batch.toList.length + 3
  | .dispatching => 2 * w.batch.toList.length + 3
  | .recording => 2 * w.batch.toList.length + 2
  | .exiting => 1
  | .returned => 0
  | .aborted => 0

theorem remaining_le {w : Worker} (hw : Roomy w) :
  w.remaining ≤ 771
  := by
  have hsize : batchSize = 256 := rfl
  have hle := w.batch.length_le
  rw [Worker.remaining]
  split
  case h_3 left hphase =>
    have hroom := hw.room left hphase
    omega
  all_goals omega

/-- Whether an action reads the shutdown flag as unset. -/
def WorkerAction.readsUnset : WorkerAction → Bool
  | .checkShutdown flag => !flag
  | _ => false

/-- Every step is one step closer to the end, but one that reads the shutdown flag as unset begins
another drain. -/
theorem remaining_step {cpuId : ℕ} {w w' : Worker} {a : WorkerAction} (hw : Roomy w)
    (h : (worker cpuId).step w a = some w') :
  w'.remaining + 1 ≤ w.remaining + 770 * a.readsUnset.toNat
  := by
  cases workerStep_of_step h with
  | pin ok hphase => cases ok <;> simp [Worker.remaining, hphase, WorkerAction.readsUnset]
  | stop hphase => simp [Worker.remaining, hphase]
  | poll hphase => simp [Worker.remaining, hphase, batchSize, ArrayVec.empty,
      WorkerAction.readsUnset]
  | @item left raw hphase =>
      have hle := length_validate_le w raw
      cases left with
      | zero =>
          simp only [Worker.remaining, hphase, Phase.afterItem]
          omega
      | succ left =>
          simp only [Worker.remaining, hphase, Phase.afterItem]
          omega
  | drained hphase =>
      simp only [Worker.remaining, hphase]
      omega
  | @trySend frame rest result hphase hbatch =>
      have htail := length_tail_of_ne (w := w) (by simp [hbatch])
      cases result <;> simp [Worker.remaining, Worker.dispatch, tryDispatch, hphase] <;> omega
  | recordOk hphase =>
      have htail := length_tail_of_ne (hw.hand hphase)
      simp only [Worker.remaining, hphase]
      omega
  | yieldNow hphase hbatch =>
      simp only [Worker.remaining, hphase]
      omega
  | ret hphase => simp [Worker.remaining, hphase]

/-! ### A step to take -/

/-- An attempt to send has one of its outcomes, whatever the channel holds. -/
theorem exists_trySend (channel : DispatchChannel) (frame : SignalFrame) :
  ∃ result channel', channel.trySend frame result = some channel'
  := by
  cases hreceiver : channel.receiver with
  | false =>
      use .disconnected, channel
      simp [Channel.trySend, hreceiver]
  | true =>
      rcases channel.length_le.lt_or_eq with hlt | hfull
      · refine ⟨.ok, _, dif_pos ⟨hreceiver, hlt⟩⟩
      · exact ⟨.full, channel, if_pos hfull⟩

/-- A worker that has not returned has a step in a process that is alive, whatever it finds on the
ring and in the channel and whatever value of the shutdown flag it reads. -/
theorem exists_step (cpuId : ℕ) {w : Worker} (h : w.phase ≠ .returned)
    (halive : w.phase.alive = true) (channel : DispatchChannel) (item : Option (List UInt8))
    (flag : Bool) :
  ∃ a w' channel', (worker cpuId).step w a = some w'
    ∧ channelStep w channel a = some channel'
    ∧ (∀ b, a = .checkShutdown b → b = flag) ∧ ∀ i, a = .next i → i = item
  := by
  cases hphase : w.phase with
  | pinning =>
      refine ⟨.pin true, { w with phase := .top }, channel, ?_, rfl, by simp, by simp⟩
      simp [worker, Worker.step, hphase]
  | top =>
      cases flag with
      | true =>
          refine ⟨.checkShutdown true, { w with phase := .exiting }, channel, ?_, rfl, by simp,
            by simp⟩
          simp [worker, Worker.step, hphase]
      | false =>
          refine ⟨.checkShutdown false,
            { w with phase := .draining (batchSize - 1), batch := ArrayVec.empty _ _ }, channel, ?_,
            rfl, by simp, by simp⟩
          simp [worker, Worker.step, hphase]
  | draining left =>
      cases item with
      | none =>
          refine ⟨.next none, { w with phase := .dispatching }, channel, ?_, rfl, by simp, by simp⟩
          simp [worker, Worker.step, hphase]
      | some raw =>
          refine ⟨.next (some raw), { w.validate raw with phase := Phase.afterItem left }, channel,
            ?_, rfl, by simp, by simp⟩
          simp [worker, Worker.step, hphase]
  | dispatching =>
      rcases hbatch : w.batch.toList with _ | ⟨frame, rest⟩
      · refine ⟨.yieldNow, { w with phase := .top }, channel, ?_, rfl, by simp, by simp⟩
        simp [worker, Worker.step, hphase, hbatch]
      · obtain ⟨result, channel', hsend⟩ := exists_trySend channel frame
        refine ⟨.trySend result, w.dispatch frame result, channel', ?_, ?_, by simp, by simp⟩
        · simp [worker, Worker.step, hphase, hbatch]
        · simp only [channelStep, hbatch, hsend]
  | recording =>
      refine ⟨.recordOk,
        { w with
          phase := .dispatching
          batch := w.batch.tail
          metrics := w.metrics.recordOk w.cpuId },
        channel, ?_, rfl, by simp, by simp⟩
      simp [worker, Worker.step, hphase]
  | exiting =>
      refine ⟨.ret, { w with phase := .returned }, channel.dropSender, ?_, rfl, by simp, by simp⟩
      simp [worker, Worker.step, hphase]
  | returned => cases h hphase
  | aborted =>
      rw [hphase] at halive
      cases halive

/-! ### The reporter -/

/-- Whether an action is a step of the reporter. -/
def ReporterAction.isAdvance : ReporterAction → Bool
  | .advance => true
  | _ => false

/-- The steps the reporter has left when the shutdown has been signalled. -/
def ReporterPhase.remaining : ReporterPhase → ℕ
  | .sleeping => 1
  | .reading sweep => sweep.rest.length + 2
  | .exited => 0
  | .panicked => 0

/-- The lines that the reporter has still to log when the shutdown has been signalled. -/
def ReporterPhase.due : ReporterPhase → ℕ
  | .reading _ => 1
  | _ => 0

theorem ReporterPhase.remaining_le (phase : ReporterPhase) :
  phase.remaining ≤ 98
  := by
  cases phase with
  | reading sweep =>
      have horder := congrArg List.length sweep.order
      have hlength : sweepOrder.length = 96 := by decide
      rw [List.length_append] at horder
      rw [remaining]
      omega
  | _ => simp [remaining]

/-- After the shutdown signal every step of the reporter is one step closer to its end, and it logs
no line but that of the tick under way. -/
theorem reporter_remaining_step {r t : Reporter} {a : ReporterAction} (hstop : r.shutdown = true)
    (h : reporter.step r a = some t) :
  t.shutdown = true ∧ t.phase.remaining + a.isAdvance.toNat ≤ r.phase.remaining
    ∧ t.logged.length + t.phase.due ≤ r.logged.length + r.phase.due
  := by
  cases reporterStep_of_step h with
  | record cpuId k => exact ⟨hstop, le_refl _, le_refl _⟩
  | signal => exact ⟨rfl, le_refl _, le_refl _⟩
  | exit hphase _ =>
      refine ⟨hstop, ?_, ?_⟩
      · simp [ReporterPhase.remaining, hphase, ReporterAction.isAdvance]
      · simp [ReporterPhase.due]
  | wake hphase hrunning =>
      rw [hstop] at hrunning
      cases hrunning
  | load hphase hload =>
      refine ⟨hstop, ?_, ?_⟩
      · simp [ReporterPhase.remaining, hphase, hload.rest, ReporterAction.isAdvance]
      · simp [ReporterPhase.due, hphase]
  | report hphase hrest _ _ _ =>
      refine ⟨hstop, ?_, ?_⟩
      · simp [ReporterPhase.remaining, hphase, hrest, ReporterAction.isAdvance]
      · simp [ReporterPhase.due, hphase]

/-- A reporter that has neither exited nor panicked has a step. -/
theorem exists_advance {r : Reporter} (hexited : r.phase ≠ .exited)
    (hpanicked : r.phase ≠ .panicked) :
  ∃ t, reporter.step r .advance = some t
  := by
  change ∃ t, r.advance = some t
  rw [Reporter.advance]
  cases hphase : r.phase with
  | sleeping => exact ⟨_, rfl⟩
  | reading sweep =>
      cases hload : sweep.load r.metrics with
      | some next =>
          simp only [hload]
          exact ⟨_, rfl⟩
      | none =>
          simp only [hload]
          exact ⟨_, rfl⟩
  | exited => cases hexited hphase
  | panicked => cases hpanicked hphase

/-- Once the shutdown is signalled, the reporter takes at most 98 steps and logs at most one line,
whatever the workers record meanwhile; and as long as the process runs it has a step to take until
it has exited. -/
theorem reporter_terminates {r t : Reporter} {as : List ReporterAction}
    (hr : reporter.Reachable r) (hstop : r.shutdown = true) (h : reporter.run r as = some t) :
  as.countP ReporterAction.isAdvance ≤ 98 ∧ t.logged.length ≤ r.logged.length + 1
    ∧ (t.phase ≠ .exited → ∃ u, reporter.step t .advance = some u)
  := by
  and_intros
  · have hrank := LTS.run_rank (fun r => r.shutdown = true) (fun _ => False)
      (fun r => r.phase.remaining) ReporterAction.isAdvance (fun _ => false) 0 ?_ ?_ hstop h
    · have hle := r.phase.remaining_le
      rcases hrank with hfalse | hrank
      · cases hfalse
      · omega
    · intro r a t hfalse
      cases hfalse
    · intro r a _ t hr hst
      obtain ⟨ht, hle, -⟩ := reporter_remaining_step hr hst
      exact ⟨ht, Or.inr hle⟩
  · have hlines : t.shutdown = true
        ∧ t.logged.length + t.phase.due ≤ r.logged.length + r.phase.due := by
      apply LTS.run_invariant (M := reporter) (P := fun s => s.shutdown = true
        ∧ s.logged.length + s.phase.due ≤ r.logged.length + r.phase.due) _ ⟨hstop, le_refl _⟩ h
      rintro s a t ⟨hs, hle⟩ hst
      obtain ⟨ht, -, hle'⟩ := reporter_remaining_step hs hst
      exact ⟨ht, hle'.trans hle⟩
    have hdue : r.phase.due ≤ 1 := by cases r.phase <;> simp [ReporterPhase.due]
    omega
  · intro hexited
    apply exists_advance hexited
    obtain ⟨bs, hbs⟩ := hr.run h
    apply (books hbs).running

/-- A signal that arrives in the middle of a tick: the tick is logged, and the reporter ends. -/
theorem reporter_terminates_tick :
  ∃ r t, reporter.run reporter.init [.advance, .advance, .signal] = some r
    ∧ reporter.run r (List.replicate 97 .advance) = some t
    ∧ t.logged.length ≤ r.logged.length + 1 ∧ t.logged.length = 1
  := by
  have hrun : ((reporter.run reporter.init [.advance, .advance, .signal]).bind fun r =>
      (reporter.run r (List.replicate 97 .advance)).map fun t =>
        (r.shutdown, t.logged.length)) = some (true, 1) := by decide +kernel
  obtain ⟨r, hr, hmap⟩ := Option.bind_eq_some_iff.mp hrun
  obtain ⟨t, ht, heq⟩ := Option.map_eq_some_iff.mp hmap
  obtain ⟨hstop, hlogged⟩ := Prod.mk.inj heq
  obtain ⟨-, hle, -⟩ := reporter_terminates ⟨_, hr⟩ hstop ht
  exact ⟨r, t, hr, ht, hle, hlogged⟩

end SgCapture
