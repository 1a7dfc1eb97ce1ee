import ShivaProtocol.Capture.Batching

/-!
# Accounting of the worker

Every recording of the worker goes to the cell of its CPU, and the cells count what the log says:
the frames accepted by `try_send`, the items dropped, and the frames refused because the channel
was full (`Counted`).  So the filter without batches keeps those items of a run that are handed on,
and `frames_dropped` counts the others (`handed_eq_unbatched`).  Every item taken is in exactly one
place (`taken_accounting`).
-/

open SgCommon

namespace SgCapture

/-- The number of frames accepted by `try_send` and not yet recorded. -/
def Worker.inHand (w : Worker) : ℕ :=
  if w.phase = .recording then 1 else 0

/-- The counters of a worker count what its log says. -/
structure Counted (w : Worker) : Prop where
  ok : ∃ n, w.metrics.framesOk.Only w.cpuId n ∧ n + w.inHand = w.accepted.length
  dropped : w.metrics.framesDropped.Only w.cpuId w.drops
  full : w.metrics.channelFull.Only w.cpuId (w.results .full)

/-- A worker keeps its CPU id. -/
theorem cpuId_step {cpuId : ℕ} {w w' : Worker} {a : WorkerAction}
    (h : (worker cpuId).step w a = some w') :
  w'.cpuId = w.cpuId
  := by
  cases workerStep_of_step h with
  | @item left raw hphase =>
      rcases validate_cases w raw with ⟨_, -, hv⟩ | ⟨_, -, -, hv⟩
      all_goals
        rw [hv]
        rfl
  | _ => rfl

theorem cpuId_eq {cpuId : ℕ} {w : Worker} (hw : (worker cpuId).Reachable w) :
  w.cpuId = cpuId
  := by
  apply hw.invariant (P := fun w => w.cpuId = cpuId)
  · rfl
  · intro w a w' _ ih h
    rw [cpuId_step h, ih]

/-- A step that changes neither the counters nor the log, and has no frame in hand before or
after it. -/
theorem Counted.frame {w w' : Worker} (hw : Counted w) (hcpu : w'.cpuId = w.cpuId)
    (hmetrics : w'.metrics = w.metrics) (hlog : w'.log = w.log) (hhand : w'.inHand = w.inHand) :
  Counted w'
  := by
  have haccepted : w'.accepted = w.accepted :=
    congrArg (List.filterMap WorkerEvent.accepted) hlog
  have hdrops : w'.drops = w.drops := congrArg (List.countP WorkerEvent.isDrop) hlog
  have hfull : w'.results .full = w.results .full :=
    congrArg (List.countP (WorkerEvent.hasResult .full)) hlog
  constructor
  · rw [hmetrics, hcpu, hhand, haccepted]
    apply hw.ok
  · rw [hmetrics, hcpu, hdrops]
    apply hw.dropped
  · rw [hmetrics, hcpu, hfull]
    apply hw.full

theorem inHand_of_ne {w : Worker} (h : w.phase ≠ .recording) :
  w.inHand = 0
  := if_neg h

/-- Dropping an item. -/
theorem Counted.drop {w : Worker} {left : ℕ} (hw : Counted w) (hlt : w.cpuId < NCPU)
    (hne : w.phase ≠ .recording) (raw : List UInt8) (reason : DropReason) :
  Counted { w.drop raw reason with phase := Phase.afterItem left }
  := by
  obtain ⟨n, hn, haccepted⟩ := hw.ok
  rw [inHand_of_ne hne] at haccepted
  constructor
  · use n, hn
    rw [inHand_of_ne (afterItem_ne_recording left), Worker.accepted_concat rfl, haccepted]
    exact congrArg List.length (List.append_nil _).symm
  · rw [Worker.drops_concat rfl]
    apply hw.dropped.record hlt
  · rw [Worker.results_concat rfl]
    apply hw.full

/-- Adding a frame to the batch. -/
theorem Counted.push {w : Worker} {left : ℕ} (hw : Counted w) (hne : w.phase ≠ .recording)
    (raw : List UInt8) (frame : SignalFrame) :
  Counted { w.push raw frame with phase := Phase.afterItem left }
  := by
  obtain ⟨n, hn, haccepted⟩ := hw.ok
  rw [inHand_of_ne hne] at haccepted
  constructor
  · use n, hn
    rw [inHand_of_ne (afterItem_ne_recording left), Worker.accepted_concat rfl, haccepted]
    exact congrArg List.length (List.append_nil _).symm
  · rw [Worker.drops_concat rfl]
    apply hw.dropped
  · rw [Worker.results_concat rfl]
    apply hw.full

/-- Handing a frame to `try_dispatch`. -/
theorem Counted.dispatch {w : Worker} (hw : Counted w) (hlt : w.cpuId < NCPU)
    (hne : w.phase ≠ .recording) (frame : SignalFrame) (result : SendResult) :
  Counted (w.dispatch frame result)
  := by
  obtain ⟨n, hn, haccepted⟩ := hw.ok
  rw [inHand_of_ne hne, Nat.add_zero] at haccepted
  have hlog : (w.dispatch frame result).log = w.log ++ [.sent frame result] := rfl
  constructor
  · use n
    rw [Worker.accepted_concat hlog, List.length_append, ← haccepted]
    cases result <;> exact ⟨hn, rfl⟩
  · rw [Worker.drops_concat hlog]
    cases result <;> apply hw.dropped
  · rw [Worker.results_concat hlog]
    cases result with
    | ok => apply hw.full
    | full => apply hw.full.record hlt
    | disconnected => apply hw.full

theorem counted {cpuId : ℕ} (hlt : cpuId < NCPU) {w : Worker} (hw : (worker cpuId).Reachable w) :
  Counted w
  := by
  apply hw.invariant
  · constructor
    · use 0, Cells.only_zeroArray cpuId
      rfl
    · apply Cells.only_zeroArray
    · apply Cells.only_zeroArray
  · intro w a w' hr ih h
    have hlt' : w.cpuId < NCPU := by
      rw [cpuId_eq hr]
      apply hlt
    cases workerStep_of_step h with
    | pin ok hphase =>
        refine ih.frame rfl rfl rfl ?_
        rw [inHand_of_ne (by cases ok <;> simp), inHand_of_ne (by simp [hphase])]
    | stop hphase =>
        refine ih.frame rfl rfl rfl ?_
        rw [inHand_of_ne (by simp), inHand_of_ne (by simp [hphase])]
    | poll hphase =>
        refine ih.frame rfl rfl rfl ?_
        rw [inHand_of_ne (by simp), inHand_of_ne (by simp [hphase])]
    | @item left raw hphase =>
        have hne : w.phase ≠ .recording := by simp [hphase]
        rcases validate_cases w raw with ⟨reason, -, hv⟩ | ⟨frame, -, -, hv⟩
        · rw [hv]
          apply ih.drop hlt' hne
        · rw [hv]
          apply ih.push hne
    | drained hphase =>
        refine ih.frame rfl rfl rfl ?_
        rw [inHand_of_ne (by simp), inHand_of_ne (by simp [hphase])]
    | trySend result hphase _ => apply ih.dispatch hlt' (by simp [hphase])
    | recordOk hphase =>
        obtain ⟨n, hn, haccepted⟩ := ih.ok
        rw [Worker.inHand, if_pos hphase] at haccepted
        constructor
        · use n + 1, hn.record hlt'
          apply haccepted
        · apply ih.dropped
        · apply ih.full
    | yieldNow hphase _ =>
        refine ih.frame rfl rfl rfl ?_
        rw [inHand_of_ne (by simp), inHand_of_ne (by simp [hphase])]
    | ret hphase =>
        refine ih.frame rfl rfl rfl ?_
        rw [inHand_of_ne (by simp), inHand_of_ne (by simp [hphase])]

/-- Every frame handed to `try_dispatch` meets one of the three outcomes of `try_send`. -/
theorem length_handed (w : Worker) :
  w.handed.length = w.accepted.length + w.results .full + w.results .disconnected
  := by
  rw [Worker.handed, Worker.accepted, Worker.results, Worker.results]
  induction w.log with
  | nil => rfl
  | cons e log ih =>
      cases e with
      | dropped raw reason => apply ih
      | pushed raw frame fits => apply ih
      | sent frame result =>
          have hhanded : WorkerEvent.handed (.sent frame result) = some frame := rfl
          rw [List.filterMap_cons_some hhanded, List.length_cons, ih]
          cases result with
          | ok =>
              have hok : WorkerEvent.accepted (.sent frame .ok) = some frame := rfl
              rw [List.filterMap_cons_some hok, List.length_cons]
              simp only [List.countP_cons, WorkerEvent.hasResult]
              simp
              omega
          | full =>
              have hfull : WorkerEvent.accepted (.sent frame .full) = none := rfl
              rw [List.filterMap_cons_none hfull]
              simp [WorkerEvent.hasResult]
              omega
          | disconnected =>
              have hdisconnected : WorkerEvent.accepted (.sent frame .disconnected) = none := rfl
              rw [List.filterMap_cons_none hdisconnected]
              simp [WorkerEvent.hasResult]
              omega

/-- Every item taken from the ring is dropped, or its frame waits in the batch, or has met one of
the three outcomes of `try_send`. -/
theorem taken_accounting {cpuId : ℕ} {w : Worker} (hw : (worker cpuId).Reachable w) :
  w.taken.length = w.drops + w.accepted.length + w.results .full + w.results .disconnected
    + w.pending.length
  := by
  have hdrops := (drained hw).drops
  rw [List.length_append, length_handed] at hdrops
  omega

/-- An item taken from the ring is counted, unless its frame waits in the batch, has been accepted
and not yet recorded, or has found the channel disconnected. -/
theorem counted_accounting {cpuId : ℕ} (hlt : cpuId < NCPU) {w : Worker}
    (hw : (worker cpuId).Reachable w) :
  w.taken.length = w.metrics.counted + w.inHand + w.results .disconnected + w.pending.length
  := by
  obtain ⟨⟨n, hn, haccepted⟩, hdropped, hfull⟩ := counted hlt hw
  rw [cpuId_eq hw] at hn hdropped hfull
  rw [taken_accounting hw, Metrics.counted, hn.total hlt, hdropped.total hlt, hfull.total hlt]
  omega

/-! ### The frames behind the counters -/

/-- The frame an event drops, if the item it drops holds one. -/
def WorkerEvent.droppedFrame : WorkerEvent → Option SignalFrame
  | .dropped raw _ => frameOf raw
  | _ => none

/-- The frame for which an event finds the channel full. -/
def WorkerEvent.refused : WorkerEvent → Option SignalFrame
  | .sent frame .full => some frame
  | _ => none

/-- The frames dropped, in order. -/
def Worker.droppedFrames (w : Worker) : List SignalFrame :=
  w.log.filterMap WorkerEvent.droppedFrame

/-- The frames for which the channel was full, in order. -/
def Worker.refused (w : Worker) : List SignalFrame :=
  w.log.filterMap WorkerEvent.refused

theorem droppedFrames_subset (w : Worker) :
  w.droppedFrames ⊆ w.frames
  := by
  intro frame hframe
  obtain ⟨e, he, hdropped⟩ := List.mem_filterMap.mp hframe
  cases e with
  | dropped raw reason =>
      apply List.mem_filterMap.mpr
      use raw
      constructor
      · apply List.mem_filterMap.mpr
        exact ⟨_, he, rfl⟩
      · apply hdropped
  | _ => cases hdropped

/-- The frames handed on are among those taken. -/
theorem handed_subset {cpuId : ℕ} {w : Worker} (hw : (worker cpuId).Reachable w) :
  w.handed ⊆ w.frames
  := by
  apply List.Subset.trans (List.subset_append_left w.handed w.pending)
  rw [← (drained hw).kept]
  apply (Ratchet.keep_sublist _ _).subset

/-- What an event does to a frame, it does to one it hands on. -/
theorem filterMap_subset_handed {f : WorkerEvent → Option SignalFrame}
    (h : ∀ e frame, f e = some frame → e.handed = some frame) (w : Worker) :
  w.log.filterMap f ⊆ w.handed
  := by
  intro frame hframe
  obtain ⟨e, he, hf⟩ := List.mem_filterMap.mp hframe
  apply List.mem_filterMap.mpr
  exact ⟨e, he, h e frame hf⟩

theorem accepted_subset (w : Worker) :
  w.accepted ⊆ w.handed
  := by
  apply filterMap_subset_handed
  intro e frame haccepted
  cases e with
  | sent frame' result =>
      cases result with
      | ok => apply haccepted
      | _ => cases haccepted
  | _ => cases haccepted

theorem refused_subset (w : Worker) :
  w.refused ⊆ w.handed
  := by
  apply filterMap_subset_handed
  intro e frame hrefused
  cases e with
  | sent frame' result =>
      cases result with
      | full => apply hrefused
      | _ => cases hrefused
  | _ => cases hrefused

theorem length_refused (w : Worker) :
  w.refused.length = w.results .full
  := by
  rw [Worker.refused, Worker.results, List.length_filterMap_eq_countP]
  congr 1
  funext e
  cases e with
  | sent frame result => cases result <;> rfl
  | _ => rfl

/-- If every item taken holds a frame, the items dropped are the frames dropped. -/
theorem length_droppedFrames {w : Worker} (h : ∀ raw ∈ w.taken, (frameOf raw).isSome = true) :
  w.droppedFrames.length = w.drops
  := by
  rw [Worker.droppedFrames, Worker.drops, List.length_filterMap_eq_countP]
  apply List.countP_congr
  intro e he
  cases e with
  | dropped raw reason =>
      have hframe : (frameOf raw).isSome = true := by
        apply h
        apply List.mem_filterMap.mpr
        exact ⟨_, he, rfl⟩
      simp [WorkerEvent.droppedFrame, WorkerEvent.isDrop, hframe]
  | _ => simp [WorkerEvent.droppedFrame, WorkerEvent.isDrop]

/-- Whether an action is a call of `try_send` with the outcome `result`. -/
def WorkerAction.hasResult (result : SendResult) : WorkerAction → Bool
  | .trySend r => r == result
  | _ => false

theorem results_step {cpuId : ℕ} (result : SendResult) {w w' : Worker} {a : WorkerAction}
    (h : (worker cpuId).step w a = some w') :
  w'.results result = w.results result + (a.hasResult result).toNat
  := by
  cases workerStep_of_step h with
  | @item left raw hphase =>
      obtain ⟨e, hlog, he⟩ := validate_log w raw
      have hquiet : e.hasResult result = false := by
        cases e with
        | sent frame result => cases he
        | _ => rfl
      apply (Worker.results_concat hlog result).trans
      rw [hquiet]
      rfl
  | @trySend frame _ outcome _ _ =>
      have hlog : (w.dispatch frame outcome).log = w.log ++ [.sent frame outcome] := rfl
      apply (Worker.results_concat hlog result).trans
      rfl
  | _ => rfl

/-- The outcomes of `try_send` in a run are those of its actions. -/
theorem results_run {cpuId : ℕ} (result : SendResult) {as : List WorkerAction} {w w' : Worker}
    (h : (worker cpuId).run w as = some w') :
  w'.results result = w.results result + as.countP (WorkerAction.hasResult result)
  := LTS.run_countP (fun _ _ _ => results_step result) h

/-! ### What the worker records -/

/-- Batching is invisible.  In every run, once the worker is outside the drain and the dispatch,
the frames handed to `try_dispatch` are those the filter without batches keeps of the items
`ring.next()` has returned, `record_drop` has been called once for every other item, each call has
incremented the cell of the worker, and the batch has had room for every valid frame. -/
theorem handed_eq_unbatched {cpuId : ℕ} {as : List WorkerAction} {w : Worker}
    (h : (worker cpuId).run (worker cpuId).init as = some w) (houtside : w.phase.outside = true) :
  w.handed = unbatched 0 (itemsOf as)
    ∧ w.drops + (unbatched 0 (itemsOf as)).length = (itemsOf as).length
    ∧ (cpuId < NCPU → w.metrics.framesDropped.cell cpuId = w.drops)
    ∧ w.overflows = 0
  := by
  have hdrained := drained ⟨as, h⟩
  have htaken : w.taken = itemsOf as := taken_run h
  have hne : w.phase ≠ .recording := by
    intro hphase
    rw [hphase] at houtside
    cases houtside
  have hpending : w.pending = [] := by
    rw [pending_of_ne hne]
    apply (roomy ⟨as, h⟩).empty houtside
  have hkept : unbatched 0 (itemsOf as) = w.handed := by
    rw [unbatched_eq_keep, ← htaken]
    have hkeep := hdrained.kept
    rw [hpending, List.append_nil] at hkeep
    apply hkeep
  have hdrops := hdrained.drops
  rw [hpending, List.append_nil, htaken] at hdrops
  rw [hkept]
  refine ⟨rfl, hdrops, fun hlt => ?_, hdrained.fits⟩
  have hdropped := (counted hlt ⟨as, h⟩).dropped
  rw [cpuId_eq ⟨as, h⟩] at hdropped
  apply hdropped.cell

/-- Two iterations of the poll loop over an item of 63 bytes, a frame, and an older frame. -/
def sampleLoop : List WorkerAction :=
  [.pin true, .checkShutdown false, .next (some (List.replicate 63 0)),
    .next (some (stampedFrame 5).bytes), .next none, .trySend .full, .yieldNow,
    .checkShutdown false, .next (some (stampedFrame 3).bytes), .next none, .yieldNow]

theorem handed_sampleLoop :
  ∃ w, (worker 0).run (worker 0).init sampleLoop = some w ∧ w.phase = .top
    ∧ w.handed = unbatched 0 (itemsOf sampleLoop) ∧ w.metrics.framesDropped.cell 0 = 2
  := by
  have hrun : ∃ w, (worker 0).run (worker 0).init sampleLoop = some w ∧ w.phase = .top
      ∧ w.drops = 2 := ⟨_, rfl, rfl, rfl⟩
  obtain ⟨w, h, htop, hdrops⟩ := hrun
  obtain ⟨hhanded, -, hcell, -⟩ := handed_eq_unbatched h (by rw [htop]; rfl)
  rw [hdrops] at hcell
  exact ⟨w, h, htop, hhanded, hcell (by decide)⟩

/-- At the top of the poll loop, every item taken from the ring is recorded in exactly one counter
of the CPU, except for the frames that have found the channel disconnected: these are recorded in
none. -/
theorem taken_recorded {cpuId : ℕ} (hlt : cpuId < NCPU) {w : Worker}
    (hw : (worker cpuId).Reachable w) (htop : w.phase = .top) :
  w.taken.length = w.metrics.framesOk.cell cpuId + w.metrics.framesDropped.cell cpuId
    + w.metrics.channelFull.cell cpuId + w.results .disconnected
  := by
  obtain ⟨⟨n, hn, haccepted⟩, hdropped, hfull⟩ := counted hlt hw
  rw [cpuId_eq hw] at hn hdropped hfull
  have hhand : w.inHand = 0 := inHand_of_ne (by simp [htop])
  have hpending : w.pending = [] := by
    rw [pending_of_ne (by simp [htop])]
    apply (roomy hw).empty
    rw [htop]
    rfl
  rw [taken_accounting hw, hn.cell, hdropped.cell, hfull.cell, ← haccepted, hhand, hpending]
  simp only [List.length_nil]
  omega

/-- The worker takes a frame and finds the channel disconnected. -/
def orphanRun : List WorkerAction :=
  [.pin true, .checkShutdown false, .next (some (stampedFrame 5).bytes), .next none,
    .trySend .disconnected, .yieldNow]

theorem run_orphanRun :
  ∃ w, (worker 0).run (worker 0).init orphanRun = some w ∧ w.phase = .top ∧ w.taken.length = 1
    ∧ w.results .disconnected = 1 ∧ w.metrics = Metrics.new
  := ⟨_, rfl, rfl, rfl, rfl, rfl⟩

/-- The frame is taken and recorded in no counter. -/
theorem taken_orphanRun :
  ∃ w, (worker 0).run (worker 0).init orphanRun = some w ∧ w.phase = .top
    ∧ w.taken.length ≠ w.metrics.framesOk.cell 0 + w.metrics.framesDropped.cell 0
      + w.metrics.channelFull.cell 0
  := by
  obtain ⟨w, hrun, htop, htaken, -, hmetrics⟩ := run_orphanRun
  use w, hrun, htop
  rw [htaken, hmetrics]
  decide

theorem taken_recorded_orphanRun :
  ∃ w, (worker 0).run (worker 0).init orphanRun = some w ∧ w.phase = .top
    ∧ w.taken.length = w.metrics.framesOk.cell 0 + w.metrics.framesDropped.cell 0
      + w.metrics.channelFull.cell 0 + 1
  := by
  obtain ⟨w, hrun, htop, -, hdisconnected, -⟩ := run_orphanRun
  have hrecorded := taken_recorded (by decide) ⟨_, hrun⟩ htop
  rw [hdisconnected] at hrecorded
  exact ⟨w, hrun, htop, hrecorded⟩

end SgCapture
