import ShivaProtocol.Library.Ratchet
import ShivaProtocol.Capture.Vacuum

/-!
# Batching

However the ring cuts its items into batches, a worker hands on the frames that a filter without
batches keeps: `unbatched` passes over the items once.  Its frames are what a ratchet on the
timestamps keeps of the items that have the size of a frame (`unbatched_eq_keep`).  The batch
always has room for the iterations left in a drain (`Roomy`), so no frame is lost to its capacity,
and what has been handed on together with what waits in the batch is what the filter keeps of
the items taken (`Drained`).
-/

open SgCommon

namespace SgCapture

/-- The filter without batches: an item is kept exactly if it has the size of a frame and its
timestamp is at least that of the last item kept. -/
def unbatched : UInt64 → List (List UInt8) → List SignalFrame
  | _, [] => []
  | last, raw :: items =>
      if h : raw.length = signalFrameSize then
        let frame := SignalFrame.readUnaligned raw h
        if last ≤ frame.timestampNs then frame :: unbatched frame.timestampNs items
        else unbatched last items
      else unbatched last items

/-- The timestamp of a frame as a natural number. -/
def timestamp (frame : SignalFrame) : ℕ :=
  frame.timestampNs.toNat

/-- The filter without batches is a ratchet on the timestamps of the frames. -/
theorem unbatched_eq_keep (last : UInt64) (items : List (List UInt8)) :
  unbatched last items = Ratchet.keep timestamp last.toNat (items.filterMap frameOf)
  := by
  induction items generalizing last with
  | nil => rfl
  | cons raw items ih =>
      rw [unbatched]
      by_cases h : raw.length = signalFrameSize
      · have hframe : frameOf raw = some (SignalFrame.readUnaligned raw h) := dif_pos h
        rw [dif_pos h, List.filterMap_cons_some hframe]
        by_cases hle : last ≤ (SignalFrame.readUnaligned raw h).timestampNs
        · have hle' : last.toNat ≤ timestamp (SignalFrame.readUnaligned raw h) :=
            UInt64.le_iff_toNat_le.mp hle
          rw [Ratchet.keep_cons_of_le hle']
          simp only [if_pos hle, ih]
          rfl
        · have hlt : timestamp (SignalFrame.readUnaligned raw h) < last.toNat :=
            UInt64.lt_iff_toNat_lt.mp (UInt64.not_le.mp hle)
          rw [Ratchet.keep_cons_of_lt hlt]
          simp only [if_neg hle, ih]
      · rw [dif_neg h, List.filterMap_cons_none (dif_neg h), ih]

/-! ### The batch has room -/

/-- Whether the batch is not in use. -/
def Phase.outside : Phase → Bool
  | .draining _ => false
  | .dispatching => false
  | .recording => false
  | _ => true

/-- The batch has room for the iterations left in the drain, is empty outside the drain and the
dispatch, and holds the frame that is to be recorded. -/
structure Roomy (w : Worker) : Prop where
  room : ∀ left, w.phase = .draining left → w.batch.toList.length + left < batchSize
  empty : w.phase.outside = true → w.batch.toList = []
  hand : w.phase = .recording → w.batch.toList ≠ []

theorem length_tryPush_le {α : Type} {capacity : ℕ} (v : ArrayVec α capacity) (x : α) :
  (v.tryPush x).1.toList.length ≤ v.toList.length + 1
  := by
  rw [ArrayVec.tryPush]
  split <;> simp

/-- The validation adds at most one frame to the batch. -/
theorem length_validate_le (w : Worker) (raw : List UInt8) :
  (w.validate raw).batch.toList.length ≤ w.batch.toList.length + 1
  := by
  rcases validate_cases w raw with ⟨_, -, h⟩ | ⟨_, -, -, h⟩
  · rw [h]
    apply Nat.le_succ
  · rw [h]
    apply length_tryPush_le

/-- Outside the drain and the dispatch nothing is asked of the batch but that it is empty. -/
theorem Roomy.of_outside {w : Worker} (houtside : w.phase.outside = true)
    (hempty : w.batch.toList = []) :
  Roomy w
  := by
  constructor
  · intro left h
    rw [h] at houtside
    cases houtside
  · intro _
    apply hempty
  · intro h
    rw [h] at houtside
    cases houtside

/-- During the dispatch nothing is asked of the batch. -/
theorem Roomy.of_dispatching {w : Worker} (hphase : w.phase = .dispatching) :
  Roomy w
  := by
  constructor
  · intro left h
    cases hphase.symm.trans h
  · intro h
    rw [hphase] at h
    cases h
  · intro h
    cases hphase.symm.trans h

/-- During the drain the batch needs room for the iterations left. -/
theorem Roomy.of_draining {w : Worker} {left : ℕ} (hphase : w.phase = .draining left)
    (hroom : w.batch.toList.length + left < batchSize) :
  Roomy w
  := by
  constructor
  · intro left' h
    cases hphase.symm.trans h
    apply hroom
  · intro h
    rw [hphase] at h
    cases h
  · intro h
    cases hphase.symm.trans h

theorem roomy {cpuId : ℕ} {w : Worker} (hw : (worker cpuId).Reachable w) :
  Roomy w
  := by
  apply hw.invariant
  · apply Roomy.of_outside <;> rfl
  · intro w a w' _ ih h
    cases workerStep_of_step h with
    | pin ok hphase =>
        apply Roomy.of_outside
        · cases ok <;> rfl
        · apply ih.empty
          rw [hphase]
          rfl
    | stop hphase =>
        apply Roomy.of_outside rfl
        apply ih.empty
        rw [hphase]
        rfl
    | poll hphase =>
        apply Roomy.of_draining rfl
        exact Nat.lt_succ_self 255
    | @item left raw hphase =>
        have hroom := ih.room left hphase
        have hle := length_validate_le w raw
        cases left with
        | zero => apply Roomy.of_dispatching rfl
        | succ left =>
            apply Roomy.of_draining rfl
            change (w.validate raw).batch.toList.length + left < batchSize
            omega
    | drained hphase => apply Roomy.of_dispatching rfl
    | @trySend frame rest result hphase hbatch =>
        cases result with
        | ok =>
            constructor
            · intro left h
              cases h
            · intro h
              cases h
            · intro _
              change w.batch.toList ≠ []
              rw [hbatch]
              apply List.cons_ne_nil
        | full => apply Roomy.of_dispatching rfl
        | disconnected => apply Roomy.of_dispatching rfl
    | recordOk hphase => apply Roomy.of_dispatching rfl
    | yieldNow hphase hbatch =>
        apply Roomy.of_outside rfl
        apply hbatch
    | ret hphase =>
        apply Roomy.of_outside rfl
        apply ih.empty
        rw [hphase]
        rfl

/-! ### Nothing is lost between the drain and the dispatch -/

/-- The frames of the batch that have not been handed to `try_dispatch`: all of them, or all but
the first if that has been accepted and not yet been recorded. -/
def Worker.pending (w : Worker) : List SignalFrame :=
  if w.phase = .recording then w.batch.toList.tail else w.batch.toList

/-- The frames among the items taken from the ring. -/
def Worker.frames (w : Worker) : List SignalFrame :=
  w.taken.filterMap frameOf

/-- The frames handed on and those waiting in the batch are what the filter keeps of the items
taken, and `last_ts_ns` is the timestamp of the last of them; every other item has been recorded
as dropped, for its timestamp if it is a frame; and no frame has been lost to the capacity of the
batch. -/
structure Drained (w : Worker) : Prop where
  kept : Ratchet.keep timestamp 0 w.frames = w.handed ++ w.pending
  level : Ratchet.level timestamp 0 w.frames = w.lastTsNs.toNat
  drops : w.drops + (w.handed ++ w.pending).length = w.taken.length
  regressions : w.regressions + (w.handed ++ w.pending).length = w.frames.length
  fits : w.overflows = 0

/-- A step that takes no item and hands nothing on leaves all this as it is. -/
theorem Drained.frame {w w' : Worker} (hw : Drained w) (hlog : w'.log = w.log)
    (hpending : w'.pending = w.pending) (hts : w'.lastTsNs = w.lastTsNs) :
  Drained w'
  := by
  have htaken : w'.taken = w.taken := congrArg (List.filterMap WorkerEvent.taken) hlog
  have hhanded : w'.handed = w.handed := congrArg (List.filterMap WorkerEvent.handed) hlog
  have hdrops : w'.drops = w.drops := congrArg (List.countP WorkerEvent.isDrop) hlog
  have hregressions : w'.regressions = w.regressions :=
    congrArg (List.countP WorkerEvent.isRegression) hlog
  have hoverflows : w'.overflows = w.overflows :=
    congrArg (List.countP WorkerEvent.isOverflow) hlog
  constructor
  · rw [Worker.frames, htaken, hhanded, hpending]
    apply hw.kept
  · rw [Worker.frames, htaken, hts]
    apply hw.level
  · rw [hdrops, hhanded, hpending, htaken]
    apply hw.drops
  · rw [hregressions, hhanded, hpending, Worker.frames, htaken]
    apply hw.regressions
  · rw [hoverflows]
    apply hw.fits

/-- The frames taken, after one more item. -/
theorem frames_concat {w w' : Worker} {raw : List UInt8} (htaken : w'.taken = w.taken ++ [raw]) :
  w'.frames = w.frames ++ (frameOf raw).toList
  := by
  rw [Worker.frames, Worker.frames, htaken, List.filterMap_append]
  cases hframe : frameOf raw <;> simp [hframe]

/-- Dropping an item the validation rejects. -/
theorem Drained.drop {w w' : Worker} {raw : List UInt8} {reason : DropReason} (hw : Drained w)
    (hlog : w'.log = w.log ++ [.dropped raw reason]) (hpending : w'.pending = w.pending)
    (hts : w'.lastTsNs = w.lastTsNs) (hrejected : Rejected w raw reason) :
  Drained w'
  := by
  have htaken : w'.taken = w.taken ++ [raw] := Worker.taken_concat hlog
  have hframes := frames_concat htaken
  have hhanded : w'.handed = w.handed := (Worker.handed_concat hlog).trans (List.append_nil _)
  have hdrops : w'.drops = w.drops + 1 := Worker.drops_concat hlog
  have hoverflows : w'.overflows = w.overflows := Worker.overflows_concat hlog
  have hregressions := Worker.regressions_concat hlog
  have hcount := hw.drops
  have hcount' := hw.regressions
  have hfilter : Ratchet.keep timestamp 0 w'.frames = Ratchet.keep timestamp 0 w.frames
      ∧ Ratchet.level timestamp 0 w'.frames = Ratchet.level timestamp 0 w.frames
      ∧ w'.regressions + w.frames.length = w.regressions + w'.frames.length := by
    cases hrejected with
    | size hnone =>
        rw [hframes, hnone, hregressions, Option.toList_none, List.append_nil]
        exact ⟨rfl, rfl, rfl⟩
    | @regression frame hframe hlt =>
        have hbelow : timestamp frame < Ratchet.level timestamp 0 w.frames := by
          rw [hw.level]
          apply UInt64.lt_iff_toNat_lt.mp hlt
        obtain ⟨hkeep, hlevel⟩ := Ratchet.concat_of_lt hbelow
        rw [hframes, hframe, hregressions, Option.toList_some, hkeep, hlevel, List.length_append]
        simp only [WorkerEvent.isRegression, Bool.toNat_true, List.length_singleton, true_and]
        omega
  constructor
  · rw [hfilter.1, hhanded, hpending]
    apply hw.kept
  · rw [hfilter.2.1, hts]
    apply hw.level
  · rw [hdrops, hhanded, hpending, htaken]
    simp only [List.length_append, List.length_singleton] at hcount ⊢
    omega
  · have hbalance := hfilter.2.2
    rw [hhanded, hpending]
    omega
  · rw [hoverflows]
    apply hw.fits

/-- Adding a frame the filter keeps to a batch with room for it. -/
theorem Drained.push {w w' : Worker} {raw : List UInt8} {frame : SignalFrame} (hw : Drained w)
    (hlog : w'.log = w.log ++ [.pushed raw frame true])
    (hpending : w'.pending = w.pending ++ [frame]) (hts : w'.lastTsNs = frame.timestampNs)
    (hframe : frameOf raw = some frame) (hle : w.lastTsNs ≤ frame.timestampNs) :
  Drained w'
  := by
  have htaken : w'.taken = w.taken ++ [raw] := Worker.taken_concat hlog
  have hframes : w'.frames = w.frames ++ [frame] := by
    rw [frames_concat htaken, hframe, Option.toList_some]
  have hhanded : w'.handed = w.handed := (Worker.handed_concat hlog).trans (List.append_nil _)
  have hdrops : w'.drops = w.drops := Worker.drops_concat hlog
  have hregressions : w'.regressions = w.regressions := Worker.regressions_concat hlog
  have hoverflows : w'.overflows = w.overflows := Worker.overflows_concat hlog
  have hcount := hw.drops
  have hcount' := hw.regressions
  have habove : Ratchet.level timestamp 0 w.frames ≤ timestamp frame := by
    rw [hw.level]
    apply UInt64.le_iff_toNat_le.mp hle
  obtain ⟨hkeep, hlevel⟩ := Ratchet.concat_of_le habove
  constructor
  · rw [hframes, hkeep, hhanded, hpending, ← List.append_assoc, hw.kept]
  · rw [hframes, hlevel, hts]
    rfl
  · rw [hdrops, hhanded, hpending, htaken]
    simp only [List.length_append, List.length_singleton] at hcount ⊢
    omega
  · rw [hregressions, hhanded, hpending, hframes]
    simp only [List.length_append, List.length_singleton] at hcount' ⊢
    omega
  · rw [hoverflows]
    apply hw.fits

/-- Handing the first pending frame on. -/
theorem Drained.send {w w' : Worker} {frame : SignalFrame} {result : SendResult} (hw : Drained w)
    (hlog : w'.log = w.log ++ [.sent frame result]) (hpending : w.pending = frame :: w'.pending)
    (hts : w'.lastTsNs = w.lastTsNs) :
  Drained w'
  := by
  have htaken : w'.taken = w.taken := (Worker.taken_concat hlog).trans (List.append_nil _)
  have hhanded : w'.handed = w.handed ++ [frame] := Worker.handed_concat hlog
  have hdrops : w'.drops = w.drops := Worker.drops_concat hlog
  have hregressions : w'.regressions = w.regressions := Worker.regressions_concat hlog
  have hoverflows : w'.overflows = w.overflows := Worker.overflows_concat hlog
  have hall : w'.handed ++ w'.pending = w.handed ++ w.pending := by
    rw [hhanded, List.append_assoc, hpending, List.singleton_append]
  constructor
  · rw [Worker.frames, htaken, hall]
    apply hw.kept
  · rw [Worker.frames, htaken, hts]
    apply hw.level
  · rw [hdrops, hall, htaken]
    apply hw.drops
  · rw [hregressions, hall, Worker.frames, htaken]
    apply hw.regressions
  · rw [hoverflows]
    apply hw.fits

theorem pending_of_ne {w : Worker} (h : w.phase ≠ .recording) :
  w.pending = w.batch.toList
  := if_neg h

theorem afterItem_ne_recording (left : ℕ) :
  Phase.afterItem left ≠ .recording
  := by cases left <;> simp [Phase.afterItem]

theorem drained {cpuId : ℕ} {w : Worker} (hw : (worker cpuId).Reachable w) :
  Drained w
  := by
  apply hw.invariant
  · constructor <;> rfl
  · intro w a w' hr ih h
    have hroomy := roomy hr
    cases workerStep_of_step h with
    | pin ok hphase =>
        refine ih.frame rfl ?_ rfl
        rw [pending_of_ne (by cases ok <;> simp), pending_of_ne (by simp [hphase])]
    | stop hphase =>
        refine ih.frame rfl ?_ rfl
        rw [pending_of_ne (by simp), pending_of_ne (by simp [hphase])]
    | poll hphase =>
        refine ih.frame rfl ?_ rfl
        rw [pending_of_ne (by simp), pending_of_ne (by simp [hphase]),
          hroomy.empty (by rw [hphase]; rfl)]
        rfl
    | @item left raw hphase =>
        have hbatch : w.pending = w.batch.toList := pending_of_ne (by simp [hphase])
        rcases validate_cases w raw with ⟨reason, hrejected, hdrop⟩ | ⟨frame, hframe, hle, hpush⟩
        · rw [hdrop]
          refine ih.drop rfl ?_ rfl hrejected
          rw [hbatch, pending_of_ne (afterItem_ne_recording left)]
          rfl
        · have hroom := hroomy.room left hphase
          obtain ⟨hlist, hfits⟩ := ArrayVec.tryPush_of_lt (v := w.batch) (by omega) frame
          rw [hpush]
          refine ih.push ?_ ?_ rfl hframe hle
          · rw [← hfits]
            rfl
          · rw [hbatch, pending_of_ne (afterItem_ne_recording left), ← hlist]
            rfl
    | drained hphase =>
        refine ih.frame rfl ?_ rfl
        rw [pending_of_ne (by simp), pending_of_ne (by simp [hphase])]
    | @trySend frame rest result hphase hbatch =>
        refine ih.send rfl ?_ rfl
        rw [pending_of_ne (by simp [hphase]), hbatch]
        cases result <;> simp [Worker.pending, Worker.dispatch, tryDispatch, ArrayVec.tail, hbatch]
    | recordOk hphase =>
        refine ih.frame rfl ?_ rfl
        rw [pending_of_ne (by simp), Worker.pending, if_pos hphase]
        rfl
    | yieldNow hphase hbatch =>
        refine ih.frame rfl ?_ rfl
        rw [pending_of_ne (by simp), pending_of_ne (by simp [hphase])]
    | ret hphase =>
        refine ih.frame rfl ?_ rfl
        rw [pending_of_ne (by simp), pending_of_ne (by simp [hphase])]

/-! ### Whole runs -/

/-- What a call of `ring.next()` returns. -/
def WorkerAction.poll : WorkerAction → Option (Option (List UInt8))
  | .next item => some item
  | _ => none

/-- What the calls of `ring.next()` return in a run. -/
def polls (as : List WorkerAction) : List (Option (List UInt8)) :=
  as.filterMap WorkerAction.poll

/-- The items `ring.next()` returns in a run. -/
def itemsOf (as : List WorkerAction) : List (List UInt8) :=
  (polls as).filterMap id

/-- A step takes the item `ring.next()` returns. -/
theorem taken_step {cpuId : ℕ} {w w' : Worker} {a : WorkerAction}
    (h : (worker cpuId).step w a = some w') :
  w'.taken = w.taken ++ itemsOf [a]
  := by
  cases workerStep_of_step h with
  | @item left raw hphase =>
      obtain ⟨e, hlog, he⟩ := validate_log w raw
      apply (Worker.taken_concat hlog).trans
      rw [he]
      rfl
  | @trySend frame rest result _ _ =>
      have hlog : (w.dispatch frame result).log = w.log ++ [.sent frame result] := rfl
      apply Worker.taken_concat hlog
  | _ => exact (List.append_nil _).symm

theorem taken_run {cpuId : ℕ} {as : List WorkerAction} {w w' : Worker}
    (h : (worker cpuId).run w as = some w') :
  w'.taken = w.taken ++ itemsOf as
  := by
  induction as generalizing w with
  | nil =>
      obtain rfl := Option.some.inj h
      symm
      apply List.append_nil
  | cons a as ih =>
      obtain ⟨v, hstep, hrun⟩ := LTS.run_cons_some h
      rw [ih hrun, taken_step hstep, List.append_assoc, itemsOf, itemsOf, itemsOf, polls, polls,
        polls, ← List.filterMap_append, ← List.filterMap_append, List.singleton_append]

theorem polls_append (as bs : List WorkerAction) :
  polls (as ++ bs) = polls as ++ polls bs
  := List.filterMap_append

/-- In all its calls, `try_send` returns what `outcome` allows. -/
def SendsOf (outcome : SignalFrame → SendResult) (as : List WorkerAction) : Prop :=
  ∀ result, .trySend result ∈ as → ∃ frame, outcome frame = result

theorem SendsOf.append {outcome : SignalFrame → SendResult} {as bs : List WorkerAction}
    (has : SendsOf outcome as) (hbs : SendsOf outcome bs) :
  SendsOf outcome (as ++ bs)
  := by
  intro result h
  rcases List.mem_append.mp h with h | h
  · apply has result h
  · apply hbs result h

/-- An action that does not send changes nothing. -/
theorem SendsOf.cons {outcome : SignalFrame → SendResult} {a : WorkerAction}
    {as : List WorkerAction} (has : SendsOf outcome as) (ha : ∀ result, a ≠ .trySend result) :
  SendsOf outcome (a :: as)
  := by
  intro result h
  rcases List.mem_cons.mp h with rfl | h
  · cases ha result rfl
  · apply has result h

theorem SendsOf.nil (outcome : SignalFrame → SendResult) :
  SendsOf outcome []
  := by
  intro result h
  cases h

/-- The dispatch of a batch comes to an end, whatever `try_send` returns for its frames. -/
theorem exists_run_dispatching (cpuId : ℕ) (outcome : SignalFrame → SendResult) {w : Worker}
    (hphase : w.phase = .dispatching) :
  ∃ as w', (worker cpuId).run w as = some w' ∧ w'.phase = .top ∧ polls as = []
    ∧ SendsOf outcome as
  := by
  rcases h : w.batch.toList with _ | ⟨frame, rest⟩
  · have hstep : (worker cpuId).step w .yieldNow = some { w with phase := .top } := by
      simp only [worker, Worker.step, hphase, h]
    use [.yieldNow], { w with phase := .top }
    rw [LTS.run_cons, hstep]
    exact ⟨rfl, rfl, rfl, (SendsOf.nil outcome).cons (by simp)⟩
  · have hsend : (worker cpuId).step w (.trySend (outcome frame))
        = some (w.dispatch frame (outcome frame)) := by
      simp only [worker, Worker.step, hphase, h]
    -- the frame leaves the batch at once, or after it has been recorded
    have hleave : ∃ as v, (worker cpuId).run w as = some v ∧ v.phase = .dispatching
        ∧ v.batch.toList = rest ∧ polls as = [] ∧ SendsOf outcome as := by
      have hsends (result : SendResult) (hr : outcome frame = result) :
          SendsOf outcome [.trySend result] := by
        intro result' h'
        obtain rfl := WorkerAction.trySend.inj (List.mem_singleton.mp h')
        use frame
      cases hr : outcome frame with
      | ok =>
          rw [hr] at hsend
          use [.trySend .ok, .recordOk],
            { w.dispatch frame .ok with
              phase := .dispatching
              batch := w.batch.tail
              metrics := w.metrics.recordOk w.cpuId }
          rw [LTS.run_cons, hsend]
          and_intros
          · rfl
          · rfl
          · apply congrArg List.tail h
          · rfl
          · apply (hsends .ok hr).append ((SendsOf.nil outcome).cons (by simp))
      | full =>
          rw [hr] at hsend
          use [.trySend .full], w.dispatch frame .full
          rw [LTS.run_cons, hsend]
          exact ⟨rfl, rfl, congrArg List.tail h, rfl, hsends .full hr⟩
      | disconnected =>
          rw [hr] at hsend
          use [.trySend .disconnected], w.dispatch frame .disconnected
          rw [LTS.run_cons, hsend]
          exact ⟨rfl, rfl, congrArg List.tail h, rfl, hsends .disconnected hr⟩
    obtain ⟨as, v, hrun, hphase', hbatch, hpolls, hsends⟩ := hleave
    obtain ⟨bs, w', hrun', htop, hpolls', hsends'⟩ := exists_run_dispatching cpuId outcome hphase'
    use as ++ bs, w'
    rw [polls_append, hpolls, hpolls']
    exact ⟨LTS.run_trans hrun hrun', htop, rfl, hsends.append hsends'⟩
  termination_by w.batch.toList.length
  decreasing_by simp [hbatch, h]

/-- From the dispatch of a batch, a worker comes to the next drain. -/
theorem exists_run_draining (cpuId : ℕ) (outcome : SignalFrame → SendResult) {w : Worker}
    (hphase : w.phase = .dispatching) :
  ∃ as w' left, (worker cpuId).run w as = some w' ∧ w'.phase = .draining left ∧ polls as = []
    ∧ SendsOf outcome as
  := by
  obtain ⟨as, v, hrun, htop, hpolls, hsends⟩ := exists_run_dispatching cpuId outcome hphase
  have hstep : (worker cpuId).step v (.checkShutdown false)
      = some { v with phase := .draining (batchSize - 1), batch := ArrayVec.empty _ _ } := by
    simp only [worker, Worker.step, htop]
    rfl
  use as ++ [.checkShutdown false],
    { v with phase := .draining (batchSize - 1), batch := ArrayVec.empty _ _ }, batchSize - 1
  rw [polls_append, hpolls]
  and_intros
  · apply LTS.run_trans hrun
    rw [LTS.run_singleton, hstep]
  · rfl
  · rfl
  · apply hsends.append ((SendsOf.nil outcome).cons (by simp))

/-- Whatever the ring and `try_send` return, the poll loop gets through it: every finite sequence of
items and empty polls is polled in some run, which ends at the top of the loop. -/
theorem exists_run_polls (cpuId : ℕ) (outcome : SignalFrame → SendResult)
    (ps : List (Option (List UInt8))) :
  ∃ as w, (worker cpuId).run (worker cpuId).init as = some w ∧ w.phase = .top
    ∧ polls as = ps ++ [none] ∧ SendsOf outcome as
  := by
  have hdrain : ∀ (ps : List (Option (List UInt8))) {w : Worker} {left : ℕ},
      w.phase = .draining left → ∃ as w', (worker cpuId).run w as = some w' ∧ w'.phase = .top
        ∧ polls as = ps ++ [none] ∧ SendsOf outcome as := by
    intro ps
    induction ps with
    | nil =>
        intro w left hphase
        have hstep : (worker cpuId).step w (.next none)
            = some { w with phase := .dispatching } := by
          simp only [worker, Worker.step, hphase]
        obtain ⟨as, w', hrun, htop, hpolls, hsends⟩ := exists_run_dispatching cpuId outcome
          (w := { w with phase := .dispatching }) rfl
        use .next none :: as, w'
        rw [LTS.run_cons, hstep]
        exact ⟨hrun, htop, congrArg (none :: ·) hpolls, hsends.cons (by simp)⟩
    | cons p ps ih =>
        intro w left hphase
        -- after the poll the worker drains on, if need be with the next batch
        have hpoll : ∃ as v left', (worker cpuId).run w as = some v ∧ v.phase = .draining left'
            ∧ polls as = [p] ∧ SendsOf outcome as := by
          obtain ⟨v, hstep, hv⟩ : ∃ v, (worker cpuId).step w (.next p) = some v
              ∧ (v.phase = .dispatching ∨ ∃ left', v.phase = .draining left') := by
            rcases p with _ | raw
            · use { w with phase := .dispatching }
              simp [worker, Worker.step, hphase]
            · use { w.validate raw with phase := Phase.afterItem left }
              cases left <;> simp [worker, Worker.step, hphase, Phase.afterItem]
          rcases hv with hv | ⟨left', hv⟩
          · obtain ⟨as, v', left', hrun, hphase', hpolls, hsends⟩ :=
              exists_run_draining cpuId outcome hv
            use .next p :: as, v', left'
            rw [LTS.run_cons, hstep]
            exact ⟨hrun, hphase', congrArg (p :: ·) hpolls, hsends.cons (by simp)⟩
          · use [.next p], v, left'
            rw [LTS.run_cons, hstep]
            exact ⟨rfl, hv, rfl, (SendsOf.nil outcome).cons (by simp)⟩
        obtain ⟨as, v, left', hrun, hphase', hpolls, hsends⟩ := hpoll
        obtain ⟨bs, w', hrun', htop, hpolls', hsends'⟩ := ih hphase'
        use as ++ bs, w'
        rw [polls_append, hpolls, hpolls']
        exact ⟨LTS.run_trans hrun hrun', htop, rfl, hsends.append hsends'⟩
  obtain ⟨as, w, hrun, htop, hpolls, hsends⟩ := hdrain ps
    (w := { Worker.init cpuId with phase := .draining (batchSize - 1) }) rfl
  use .pin true :: .checkShutdown false :: as, w
  exact ⟨hrun, htop, hpolls, (hsends.cons (by simp)).cons (by simp)⟩

/-- A frame with a given timestamp. -/
def stampedFrame (ts : UInt64) : SignalFrame :=
  { SignalFrame.zeroed with timestampNs := ts }

end SgCapture
