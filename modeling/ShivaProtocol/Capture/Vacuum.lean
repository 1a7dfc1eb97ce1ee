import ShivaProtocol.Library.LTS
import ShivaProtocol.Library.ArrayVec
import ShivaProtocol.Library.Saturating
import ShivaProtocol.Capture.Dispatch

/-!
# The vacuum worker

A worker pins itself to its CPU and then polls the ring in a loop: it checks the shutdown flag,
drains up to `batchSize` items into a batch, drops those that fail the validation, and dispatches
the batch.  A failure to pin is a panic, and both profiles are built with `panic = "abort"`, so it
ends the whole process.  `worker` is the transition system of these steps.  Its environment decides
what the worker cannot: what the ring returns, what `try_send` returns and whether the shutdown
flag is set; `WorkerStep` says what each step can do.
-/

open SgCommon

namespace SgCapture

/-- The decrease of the timestamp that is tolerated between consecutive frames. -/
def timestampSlackNs : UInt64 := 0

/-- Why the validation drops an item. -/
inductive DropReason where
  | sizeMismatch
  | timestampRegression
  deriving DecidableEq

/-- What is remembered of a run: the items taken from the ring and what became of them, and the
frames handed to `try_dispatch` with the outcome of `try_send`. -/
inductive WorkerEvent where
  | dropped (raw : List UInt8) (reason : DropReason)
  | pushed (raw : List UInt8) (frame : SignalFrame) (fits : Bool)
  | sent (frame : SignalFrame) (result : SendResult)

/-- Where a worker stands. -/
inductive Phase where
  | pinning
  /-- At the top of the poll loop. -/
  | top
  /-- Before a call of `ring.next()`; `left` iterations of the drain follow the current one. -/
  | draining (left : ℕ)
  | dispatching
  /-- After `try_send` has accepted the first frame of the batch. -/
  | recording
  /-- After the poll loop. -/
  | exiting
  | returned
  /-- The pin has failed, and the panic has aborted the process. -/
  | aborted
  deriving DecidableEq

/-- The state of a worker. -/
structure Worker where
  cpuId : ℕ
  phase : Phase
  batch : ArrayVec SignalFrame batchSize
  lastTsNs : UInt64
  metrics : Metrics
  log : List WorkerEvent

/-- The worker tries to pin itself; it reads the shutdown flag; it takes the next item of the ring,
if there is one; it calls `try_send` for the first frame of the batch; it records a dispatched
frame; it yields; it returns. -/
inductive WorkerAction where
  | pin (ok : Bool)
  | checkShutdown (flag : Bool)
  | next (item : Option (List UInt8))
  | trySend (result : SendResult)
  | recordOk
  | yieldNow
  | ret

/-- The frame an item of the ring holds, if the item has the size of a frame. -/
def frameOf (raw : List UInt8) : Option SignalFrame :=
  if h : raw.length = signalFrameSize then some (SignalFrame.readUnaligned raw h) else none

/-- Whether the process of the worker is alive: no failed pin has aborted it. -/
def Phase.alive : Phase → Bool
  | .aborted => false
  | _ => true

/-- The phase after an iteration of the drain. -/
def Phase.afterItem : ℕ → Phase
  | 0 => .dispatching
  | left + 1 => .draining left

namespace Worker

/-- A worker before it runs. -/
def init (cpuId : ℕ) : Worker where
  cpuId := cpuId
  phase := .pinning
  batch := ArrayVec.empty _ _
  lastTsNs := 0
  metrics := Metrics.new
  log := []

/-- The worker after it has dropped an item. -/
def drop (w : Worker) (raw : List UInt8) (reason : DropReason) : Worker :=
  { w with
    metrics := w.metrics.recordDrop w.cpuId
    log := w.log ++ [.dropped raw reason] }

/-- The worker after it has added a valid frame to its batch. -/
def push (w : Worker) (raw : List UInt8) (frame : SignalFrame) : Worker :=
  { w with
    lastTsNs := frame.timestampNs
    batch := (w.batch.tryPush frame).1
    log := w.log ++ [.pushed raw frame (w.batch.tryPush frame).2] }

/-- The worker after it has validated an item of the ring. -/
def validate (w : Worker) (raw : List UInt8) : Worker :=
  match frameOf raw with
  | none => w.drop raw .sizeMismatch
  | some frame =>
      if frame.timestampNs < Saturating.sub w.lastTsNs timestampSlackNs then
        w.drop raw .timestampRegression
      else
        w.push raw frame

/-- The worker after `try_send` has returned for a frame of its batch.  An accepted frame stays in
the batch until it is recorded. -/
def dispatch (w : Worker) (frame : SignalFrame) (result : SendResult) : Worker :=
  let dispatched := (tryDispatch result w.cpuId w.metrics).1
  { w with
    phase := if dispatched then .recording else .dispatching
    batch := if dispatched then w.batch else w.batch.tail
    metrics := (tryDispatch result w.cpuId w.metrics).2
    log := w.log ++ [.sent frame result] }

/-- The state after an action, if it is enabled. -/
def step (w : Worker) : WorkerAction → Option Worker
  | .pin ok =>
      match w.phase with
      | .pinning => some { w with phase := if ok then .top else .aborted }
      | _ => none
  | .checkShutdown flag =>
      match w.phase with
      | .top =>
          if flag then some { w with phase := .exiting }
          else some { w with phase := .draining (batchSize - 1), batch := ArrayVec.empty _ _ }
      | _ => none
  | .next item =>
      match w.phase, item with
      | .draining left, some raw =>
          some { w.validate raw with phase := Phase.afterItem left }
      | .draining _, none => some { w with phase := .dispatching }
      | _, _ => none
  | .trySend result =>
      match w.phase, w.batch.toList with
      | .dispatching, frame :: _ => some (w.dispatch frame result)
      | _, _ => none
  | .recordOk =>
      match w.phase with
      | .recording =>
          some
            { w with
              phase := .dispatching
              batch := w.batch.tail
              metrics := w.metrics.recordOk w.cpuId }
      | _ => none
  | .yieldNow =>
      match w.phase, w.batch.toList with
      | .dispatching, [] => some { w with phase := .top }
      | _, _ => none
  | .ret =>
      match w.phase with
      | .exiting => some { w with phase := .returned }
      | _ => none

end Worker

/-- A vacuum worker, as a transition system. -/
def worker (cpuId : ℕ) : LTS Worker WorkerAction where
  init := Worker.init cpuId
  step := Worker.step

/-- What a step of a worker can do. -/
inductive WorkerStep (w : Worker) : WorkerAction → Worker → Prop where
  | pin (ok : Bool) : w.phase = .pinning →
      WorkerStep w (.pin ok) { w with phase := if ok then .top else .aborted }
  | stop : w.phase = .top → WorkerStep w (.checkShutdown true) { w with phase := .exiting }
  | poll : w.phase = .top →
      WorkerStep w (.checkShutdown false)
        { w with phase := .draining (batchSize - 1), batch := ArrayVec.empty _ _ }
  | item {left raw} : w.phase = .draining left →
      WorkerStep w (.next (some raw)) { w.validate raw with phase := Phase.afterItem left }
  | drained {left} : w.phase = .draining left →
      WorkerStep w (.next none) { w with phase := .dispatching }
  | trySend {frame rest} (result : SendResult) : w.phase = .dispatching →
      w.batch.toList = frame :: rest → WorkerStep w (.trySend result) (w.dispatch frame result)
  | recordOk : w.phase = .recording →
      WorkerStep w .recordOk
        { w with
          phase := .dispatching
          batch := w.batch.tail
          metrics := w.metrics.recordOk w.cpuId }
  | yieldNow : w.phase = .dispatching → w.batch.toList = [] →
      WorkerStep w .yieldNow { w with phase := .top }
  | ret : w.phase = .exiting → WorkerStep w .ret { w with phase := .returned }

/-- Every step of a worker is one of `WorkerStep`. -/
theorem workerStep_of_step {cpuId : ℕ} {w w' : Worker} {a : WorkerAction}
    (h : (worker cpuId).step w a = some w') :
  WorkerStep w a w'
  := by
  cases a with
  | pin ok =>
      simp only [worker, Worker.step] at h
      split at h
      · rename_i hphase
        obtain rfl := Option.some.inj h
        apply WorkerStep.pin ok hphase
      · cases h
  | checkShutdown flag =>
      simp only [worker, Worker.step] at h
      split at h
      · rename_i hphase
        cases flag with
        | true =>
            obtain rfl := Option.some.inj h
            apply WorkerStep.stop hphase
        | false =>
            obtain rfl := Option.some.inj h
            apply WorkerStep.poll hphase
      · cases h
  | next item =>
      simp only [worker, Worker.step] at h
      split at h
      · rename_i hphase
        obtain rfl := Option.some.inj h
        apply WorkerStep.item hphase
      · rename_i hphase
        obtain rfl := Option.some.inj h
        apply WorkerStep.drained hphase
      · cases h
  | trySend result =>
      simp only [worker, Worker.step] at h
      split at h
      · rename_i hphase hbatch
        obtain rfl := Option.some.inj h
        apply WorkerStep.trySend result hphase hbatch
      · cases h
  | recordOk =>
      simp only [worker, Worker.step] at h
      split at h
      · rename_i hphase
        obtain rfl := Option.some.inj h
        apply WorkerStep.recordOk hphase
      · cases h
  | yieldNow =>
      simp only [worker, Worker.step] at h
      split at h
      · rename_i hphase hbatch
        obtain rfl := Option.some.inj h
        apply WorkerStep.yieldNow hphase hbatch
      · cases h
  | ret =>
      simp only [worker, Worker.step] at h
      split at h
      · rename_i hphase
        obtain rfl := Option.some.inj h
        apply WorkerStep.ret hphase
      · cases h

/-! ### The validation -/

/-- Why the validation rejects an item: it has the wrong size, or it is a frame older than the last
valid one. -/
inductive Rejected (w : Worker) (raw : List UInt8) : DropReason → Prop where
  | size : frameOf raw = none → Rejected w raw .sizeMismatch
  | regression {frame} : frameOf raw = some frame → frame.timestampNs < w.lastTsNs →
      Rejected w raw .timestampRegression

/-- What the validation does with an item: it drops an item it rejects, and it adds the frame of
any other item to the batch. -/
theorem validate_cases (w : Worker) (raw : List UInt8) :
  (∃ reason, Rejected w raw reason ∧ w.validate raw = w.drop raw reason)
  ∨ (∃ frame, frameOf raw = some frame ∧ w.lastTsNs ≤ frame.timestampNs
    ∧ w.validate raw = w.push raw frame)
  := by
  rw [Worker.validate]
  split
  · rename_i hframe
    left
    exact ⟨_, Rejected.size hframe, rfl⟩
  · rename_i frame hframe
    rw [timestampSlackNs, Saturating.sub_zero]
    split
    · rename_i hlt
      left
      exact ⟨_, Rejected.regression hframe hlt, rfl⟩
    · rename_i hge
      right
      exact ⟨_, hframe, UInt64.not_lt.mp hge, rfl⟩

/-! ### The log -/

/-- The item of the ring an event takes. -/
def WorkerEvent.taken : WorkerEvent → Option (List UInt8)
  | .dropped raw _ => some raw
  | .pushed raw _ _ => some raw
  | .sent _ _ => none

/-- The frame an event hands to `try_dispatch`. -/
def WorkerEvent.handed : WorkerEvent → Option SignalFrame
  | .sent frame _ => some frame
  | _ => none

/-- The frame for which `try_dispatch` returns true in an event. -/
def WorkerEvent.accepted : WorkerEvent → Option SignalFrame
  | .sent frame .ok => some frame
  | _ => none

/-- Whether an event is a call of `record_drop`. -/
def WorkerEvent.isDrop : WorkerEvent → Bool
  | .dropped _ _ => true
  | _ => false

/-- Whether an event finds no room in the batch. -/
def WorkerEvent.isOverflow : WorkerEvent → Bool
  | .pushed _ _ false => true
  | _ => false

/-- Whether an event has the outcome `result` of `try_send`. -/
def WorkerEvent.hasResult (result : SendResult) : WorkerEvent → Bool
  | .sent _ r => r == result
  | _ => false

/-- Whether an event drops a frame for its timestamp. -/
def WorkerEvent.isRegression : WorkerEvent → Bool
  | .dropped _ .timestampRegression => true
  | _ => false

/-- The validation takes the item, whatever it does with it. -/
theorem validate_log (w : Worker) (raw : List UInt8) :
  ∃ e, (w.validate raw).log = w.log ++ [e] ∧ e.taken = some raw
  := by
  rcases validate_cases w raw with ⟨_, -, h⟩ | ⟨_, -, -, h⟩
  all_goals
    rw [h]
    exact ⟨_, rfl, rfl⟩

namespace Worker

/-- The items taken from the ring, in order. -/
def taken (w : Worker) : List (List UInt8) :=
  w.log.filterMap WorkerEvent.taken

/-- The frames handed to `try_dispatch`, in order. -/
def handed (w : Worker) : List SignalFrame :=
  w.log.filterMap WorkerEvent.handed

/-- The frames for which `try_dispatch` has returned true, in order. -/
def accepted (w : Worker) : List SignalFrame :=
  w.log.filterMap WorkerEvent.accepted

/-- The number of calls of `record_drop`. -/
def drops (w : Worker) : ℕ :=
  w.log.countP WorkerEvent.isDrop

/-- The number of valid frames for which the batch had no room. -/
def overflows (w : Worker) : ℕ :=
  w.log.countP WorkerEvent.isOverflow

/-- The number of calls of `try_send` with the given outcome. -/
def results (w : Worker) (result : SendResult) : ℕ :=
  w.log.countP (WorkerEvent.hasResult result)

/-- The number of frames dropped for their timestamp. -/
def regressions (w : Worker) : ℕ :=
  w.log.countP WorkerEvent.isRegression

section Concat

variable {w w' : Worker} {e : WorkerEvent}

theorem taken_concat (h : w'.log = w.log ++ [e]) :
  w'.taken = w.taken ++ e.taken.toList
  := by
  rw [taken, h, List.filterMap_append, taken]
  cases he : e.taken <;> simp [he]

theorem handed_concat (h : w'.log = w.log ++ [e]) :
  w'.handed = w.handed ++ e.handed.toList
  := by
  rw [handed, h, List.filterMap_append, handed]
  cases he : e.handed <;> simp [he]

theorem accepted_concat (h : w'.log = w.log ++ [e]) :
  w'.accepted = w.accepted ++ e.accepted.toList
  := by
  rw [accepted, h, List.filterMap_append, accepted]
  cases he : e.accepted <;> simp [he]

theorem drops_concat (h : w'.log = w.log ++ [e]) :
  w'.drops = w.drops + e.isDrop.toNat
  := by
  rw [drops, h, List.countP_append, drops, List.countP_singleton]
  cases e.isDrop <;> rfl

theorem overflows_concat (h : w'.log = w.log ++ [e]) :
  w'.overflows = w.overflows + e.isOverflow.toNat
  := by
  rw [overflows, h, List.countP_append, overflows, List.countP_singleton]
  cases e.isOverflow <;> rfl

theorem results_concat (h : w'.log = w.log ++ [e]) (result : SendResult) :
  w'.results result = w.results result + (e.hasResult result).toNat
  := by
  rw [results, h, List.countP_append, results, List.countP_singleton]
  cases e.hasResult result <;> rfl

theorem regressions_concat (h : w'.log = w.log ++ [e]) :
  w'.regressions = w.regressions + e.isRegression.toNat
  := by
  rw [regressions, h, List.countP_append, regressions, List.countP_singleton]
  cases e.isRegression <;> rfl

end Concat

end Worker

end SgCapture
