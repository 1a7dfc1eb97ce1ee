import ShivaProtocol.Capture.Accounting

/-!
# What becomes of a frame

A step of a worker drops an item, adds a frame to the batch, hands the first frame of the batch on,
or does nothing of the kind (`moves_of_step`).  So every frame taken off the ring is dropped, handed
to `try_dispatch`, or waiting in the batch (`frames_perm`), and while no frame finds the channel
disconnected, every frame handed on is accepted or refused (`handed_perm`).  What is handed on and
what is accepted keep the order of what is taken (`handed_pending_sublist`, `accepted_sublist`).
-/

open SgCommon

namespace SgCapture

/-- What a step does to the frames of a worker. -/
inductive Moves (w w' : Worker) : Prop where
  | quiet : w'.log = w.log → w'.pending = w.pending → Moves w w'
  | dropped {raw reason} : w'.log = w.log ++ [.dropped raw reason] → w'.pending = w.pending →
      Moves w w'
  | pushed {raw frame} : w'.log = w.log ++ [.pushed raw frame true] →
      frameOf raw = some frame → w'.pending = w.pending ++ [frame] → Moves w w'
  | sent {frame result} : w'.log = w.log ++ [.sent frame result] →
      w.pending = frame :: w'.pending → Moves w w'

/-- Validating an item of the ring during a drain. -/
theorem moves_of_item {w : Worker} {left : ℕ} (hroomy : Roomy w) (hphase : w.phase = .draining left)
    (raw : List UInt8) :
  Moves w { w.validate raw with phase := Phase.afterItem left }
  := by
  have hbatch : w.pending = w.batch.toList := pending_of_ne (by simp [hphase])
  rcases validate_cases w raw with ⟨reason, -, hdrop⟩ | ⟨frame, hframe, -, hpush⟩
  · rw [hdrop]
    refine .dropped rfl ?_
    rw [hbatch, pending_of_ne (afterItem_ne_recording left)]
    rfl
  · have hroom := hroomy.room left hphase
    obtain ⟨hlist, hfits⟩ := ArrayVec.tryPush_of_lt (v := w.batch) (by omega) frame
    rw [hpush]
    refine .pushed ?_ hframe ?_
    · rw [← hfits]
      rfl
    · rw [hbatch, pending_of_ne (afterItem_ne_recording left), ← hlist]
      rfl

theorem moves_of_step {cpuId : ℕ} {w w' : Worker} {a : WorkerAction}
    (hw : (worker cpuId).Reachable w) (h : (worker cpuId).step w a = some w') :
  Moves w w'
  := by
  have hroomy := roomy hw
  cases workerStep_of_step h with
  | pin ok hphase =>
      refine .quiet rfl ?_
      rw [pending_of_ne (by cases ok <;> simp), pending_of_ne (by simp [hphase])]
  | stop hphase =>
      refine .quiet rfl ?_
      rw [pending_of_ne (by simp), pending_of_ne (by simp [hphase])]
  | poll hphase =>
      refine .quiet rfl ?_
      rw [pending_of_ne (by simp), pending_of_ne (by simp [hphase]),
        hroomy.empty (by rw [hphase]; rfl)]
      rfl
  | @item left raw hphase => apply moves_of_item hroomy hphase
  | drained hphase =>
      refine .quiet rfl ?_
      rw [pending_of_ne (by simp), pending_of_ne (by simp [hphase])]
  | @trySend frame rest result hphase hbatch =>
      refine .sent rfl ?_
      rw [pending_of_ne (by simp [hphase]), hbatch]
      cases result <;> simp [Worker.pending, Worker.dispatch, tryDispatch, ArrayVec.tail, hbatch]
  | recordOk hphase =>
      refine .quiet rfl ?_
      rw [pending_of_ne (by simp), Worker.pending, if_pos hphase]
      rfl
  | yieldNow hphase hbatch =>
      refine .quiet rfl ?_
      rw [pending_of_ne (by simp), pending_of_ne (by simp [hphase])]
  | ret hphase =>
      refine .quiet rfl ?_
      rw [pending_of_ne (by simp), pending_of_ne (by simp [hphase])]

theorem Worker.droppedFrames_concat {w w' : Worker} {e : WorkerEvent} (h : w'.log = w.log ++ [e]) :
  w'.droppedFrames = w.droppedFrames ++ e.droppedFrame.toList
  := by
  rw [droppedFrames, h, List.filterMap_append, droppedFrames]
  cases he : e.droppedFrame <;> simp [he]

/-- Every frame taken is dropped, handed on, or waiting in the batch. -/
def Parted (w : Worker) : Prop :=
  w.frames.Perm (w.droppedFrames ++ (w.handed ++ w.pending))

/-- What a step does to the frames, it does to both sides. -/
theorem Parted.step {w w' : Worker} (hw : Parted w) (h : Moves w w') :
  Parted w'
  := by
  cases h with
  | quiet hlog hpending =>
      rw [Parted, Worker.frames, Worker.taken, Worker.droppedFrames, Worker.handed, hlog, hpending]
      apply hw
  | @dropped raw reason hlog hpending =>
      have hhanded : w'.handed = w.handed :=
        (Worker.handed_concat hlog).trans (List.append_nil _)
      have hdropped : w'.droppedFrames = w.droppedFrames ++ (frameOf raw).toList :=
        Worker.droppedFrames_concat hlog
      rw [Parted, frames_concat (Worker.taken_concat hlog), hdropped, hhanded, hpending,
        List.append_assoc]
      apply (hw.append_right _).trans
      rw [List.append_assoc]
      apply List.perm_append_comm.append_left
  | @pushed raw frame hlog hframe hpending =>
      have hhanded : w'.handed = w.handed :=
        (Worker.handed_concat hlog).trans (List.append_nil _)
      have hdropped : w'.droppedFrames = w.droppedFrames :=
        (Worker.droppedFrames_concat hlog).trans (List.append_nil _)
      rw [Parted, frames_concat (Worker.taken_concat hlog), hframe, hdropped, hhanded, hpending,
        ← List.append_assoc, ← List.append_assoc, List.append_assoc w.droppedFrames]
      apply hw.append_right
  | @sent frame result hlog hpending =>
      have htaken : w'.taken = w.taken := (Worker.taken_concat hlog).trans (List.append_nil _)
      have hhanded : w'.handed = w.handed ++ [frame] := Worker.handed_concat hlog
      have hdropped : w'.droppedFrames = w.droppedFrames :=
        (Worker.droppedFrames_concat hlog).trans (List.append_nil _)
      rw [Parted, Worker.frames, htaken, hdropped, hhanded, List.append_assoc,
        List.singleton_append, ← hpending]
      apply hw

theorem frames_perm {cpuId : ℕ} {w : Worker} (hw : (worker cpuId).Reachable w) :
  w.frames.Perm (w.droppedFrames ++ (w.handed ++ w.pending))
  := by
  apply hw.invariant (P := Parted)
  · apply List.Perm.refl
  · intro w a w' hr ih h
    apply ih.step (moves_of_step hr h)

/-- While no frame has found the channel disconnected, every frame handed on is accepted or
refused. -/
theorem handed_perm {w : Worker} (h : w.results .disconnected = 0) :
  w.handed.Perm (w.accepted ++ w.refused)
  := by
  rw [Worker.results] at h
  rw [Worker.handed, Worker.accepted, Worker.refused]
  generalize w.log = log at h
  induction log with
  | nil => apply List.Perm.refl
  | cons e log ih =>
      rw [List.countP_cons, Nat.add_eq_zero_iff] at h
      have hrest := ih h.1
      cases e with
      | dropped raw reason => apply hrest
      | pushed raw frame fits => apply hrest
      | sent frame result =>
          have hhanded : WorkerEvent.handed (.sent frame result) = some frame := rfl
          rw [List.filterMap_cons_some hhanded]
          cases result with
          | ok =>
              have hok : WorkerEvent.accepted (.sent frame .ok) = some frame := rfl
              have hnone : WorkerEvent.refused (.sent frame .ok) = none := rfl
              rw [List.filterMap_cons_some hok, List.filterMap_cons_none hnone]
              apply hrest.cons
          | full =>
              have hnone : WorkerEvent.accepted (.sent frame .full) = none := rfl
              have hfull : WorkerEvent.refused (.sent frame .full) = some frame := rfl
              rw [List.filterMap_cons_none hnone, List.filterMap_cons_some hfull]
              apply (hrest.cons frame).trans List.perm_middle.symm
          | disconnected => simp [WorkerEvent.hasResult] at h

/-! ### Order -/

/-- The frames handed on, followed by those waiting in the batch, keep the order in which they have
been taken. -/
theorem handed_pending_sublist {cpuId : ℕ} {w : Worker} (hw : (worker cpuId).Reachable w) :
  (w.handed ++ w.pending).Sublist w.frames
  := by
  rw [← (drained hw).kept]
  apply Ratchet.keep_sublist

/-- The timestamps of the frames handed on and of those waiting in the batch are sorted. -/
theorem handed_pending_sorted {cpuId : ℕ} {w : Worker} (hw : (worker cpuId).Reachable w) :
  (w.handed ++ w.pending).Pairwise fun a b => timestamp a ≤ timestamp b
  := by
  rw [← (drained hw).kept]
  apply Ratchet.keep_sorted

/-- The frames accepted keep the order in which they have been handed on. -/
theorem accepted_sublist (w : Worker) :
  w.accepted.Sublist w.handed
  := by
  rw [Worker.accepted, Worker.handed]
  induction w.log with
  | nil => apply List.Sublist.refl
  | cons e log ih =>
      cases e with
      | dropped raw reason => apply ih
      | pushed raw frame fits => apply ih
      | sent frame result =>
          have hhanded : WorkerEvent.handed (.sent frame result) = some frame := rfl
          rw [List.filterMap_cons_some hhanded]
          cases result with
          | ok => apply ih.cons_cons
          | full => apply ih.cons
          | disconnected => apply ih.cons

end SgCapture
