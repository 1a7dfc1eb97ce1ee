import ShivaProtocol.Ebpf.History
import ShivaProtocol.Capture.Accounting
import ShivaProtocol.Pipeline.Wire

/-!
# The kernel program and the worker on its ring

`system` runs the kernel program on all CPUs and one vacuum worker, which takes the items off the
ring in commit order.  It simulates both of its parts (`systemToKernel`, `systemToWorker`), and in
every reachable state the frames the worker has seen are the frames committed up to the position
it has reached (`frames_eq`).
-/

open SgCommon SgEbpf SgCapture

namespace Pipeline

/-- The kernel program, the number of items taken off its ring, and the worker that takes them. -/
structure System where
  kernel : Kernel
  consumed : ℕ
  worker : Worker

/-- A step of the kernel program, or of the worker. -/
inductive SystemAction where
  | kernel (a : KernelAction)
  | worker (a : WorkerAction)

/-- The position in the ring after an action of the worker, if the ring allows the action: it
returns the item at the position, if there is one. -/
def ringStep (ring : List (List UInt8)) (consumed : ℕ) : WorkerAction → Option ℕ
  | .next item => if item = ring[consumed]? then some (consumed + item.toList.length) else none
  | _ => some consumed

namespace System

/-- The system before the first step.  `build_ring_handles` gives the ring to worker 0. -/
def init : System where
  kernel := Kernel.init
  consumed := 0
  worker := Worker.init 0

/-- The state after an action, if it is enabled. -/
def step (s : System) : SystemAction → Option System
  | .kernel a =>
      match s.kernel.step a with
      | some k => some { s with kernel := k }
      | none => none
  | .worker a =>
      match s.worker.step a, ringStep s.kernel.ring s.consumed a with
      | some w, some n => some { s with consumed := n, worker := w }
      | _, _ => none

end System

/-- The kernel program and the worker, as a transition system. -/
def system : LTS System SystemAction where
  init := System.init
  step := System.step

/-- What a step of the system can do. -/
inductive SystemStep (s : System) : SystemAction → System → Prop where
  | kernel {a k} : SgEbpf.kernel.step s.kernel a = some k →
      SystemStep s (.kernel a) { s with kernel := k }
  | worker {a w n} : (SgCapture.worker 0).step s.worker a = some w →
      ringStep s.kernel.ring s.consumed a = some n →
      SystemStep s (.worker a) { s with consumed := n, worker := w }

/-- Every step is one of `SystemStep`. -/
theorem systemStep_of_step {s s' : System} {a : SystemAction} (h : system.step s a = some s') :
  SystemStep s a s'
  := by
  cases a with
  | kernel a =>
      simp only [system, System.step] at h
      split at h
      · rename_i hkernel
        obtain rfl := Option.some.inj h
        apply SystemStep.kernel hkernel
      · cases h
  | worker a =>
      simp only [system, System.step] at h
      split at h
      · rename_i hworker hring
        obtain rfl := Option.some.inj h
        apply SystemStep.worker hworker hring
      · cases h

theorem step_kernel {s : System} {a : KernelAction} {k : Kernel}
    (h : kernel.step s.kernel a = some k) :
  system.step s (.kernel a) = some { s with kernel := k }
  := by
  have hkernel : s.kernel.step a = some k := h
  simp only [system, System.step, hkernel]

theorem step_worker {s : System} {a : WorkerAction} {w : Worker} {n : ℕ}
    (h : (worker 0).step s.worker a = some w)
    (hring : ringStep s.kernel.ring s.consumed a = some n) :
  system.step s (.worker a) = some { s with consumed := n, worker := w }
  := by
  have hworker : s.worker.step a = some w := h
  simp only [system, System.step, hworker, hring]

/-- The system runs the kernel program. -/
def systemToKernel : LTS.Simulation system kernel where
  state s := s.kernel
  action
    | .kernel a => some a
    | .worker _ => none
  init := rfl
  step := by
    intro s a b t ha h
    cases systemStep_of_step h with
    | kernel hkernel =>
        obtain rfl := Option.some.inj ha
        apply hkernel
    | worker _ _ => cases ha
  stutter := by
    intro s a t ha h
    cases systemStep_of_step h with
    | kernel _ => cases ha
    | worker _ _ => rfl

/-- The system runs the worker. -/
def systemToWorker : LTS.Simulation system (worker 0) where
  state s := s.worker
  action
    | .kernel _ => none
    | .worker a => some a
  init := rfl
  step := by
    intro s a b t ha h
    cases systemStep_of_step h with
    | kernel _ => cases ha
    | worker hworker _ =>
        obtain rfl := Option.some.inj ha
        apply hworker
  stutter := by
    intro s a t ha h
    cases systemStep_of_step h with
    | kernel _ => rfl
    | worker _ _ => cases ha

section Parts

variable {s : System} (hs : system.Reachable s)

include hs

theorem kernel_reachable :
  kernel.Reachable s.kernel
  := systemToKernel.reachable hs

theorem worker_reachable :
  (worker 0).Reachable s.worker
  := systemToWorker.reachable hs

/-- The ring holds the bytes of the frames committed. -/
theorem ring_eq_committed :
  s.kernel.ring = s.kernel.committed.map SignalFrame.bytes
  := ring_eq (kernel_reachable hs)

theorem length_ring :
  s.kernel.ring.length = s.kernel.committed.length
  := by rw [ring_eq_committed hs, List.length_map]

end Parts

/-! ### The ring -/

/-- The ring only grows. -/
theorem ring_prefix {k k' : Kernel} {a : KernelAction} (h : kernel.step k a = some k') :
  k.ring <+: k'.ring
  := by
  cases kernelStep_of_step h with
  | output room _ =>
      cases room with
      | true => apply List.prefix_append
      | false => apply List.prefix_refl
  | _ => apply List.prefix_refl

/-- The ring returns its items in order. -/
theorem ringStep_take {ring : List (List UInt8)} {n m : ℕ} {a : WorkerAction}
    (h : ringStep ring n a = some m) (hle : n ≤ ring.length) :
  ring.take m = ring.take n ++ itemsOf [a] ∧ m ≤ ring.length
  := by
  cases a with
  | next item =>
      rw [ringStep, Option.ite_none_right_eq_some] at h
      obtain ⟨hitem, hm⟩ := h
      obtain rfl := Option.some.inj hm
      cases item with
      | none => exact ⟨(List.append_nil _).symm, hle⟩
      | some raw =>
          obtain ⟨hlt, hget⟩ := List.getElem?_eq_some_iff.mp hitem.symm
          constructor
          · change ring.take (n + 1) = ring.take n ++ [raw]
            rw [← hget, List.take_append_getElem]
          · apply hlt
  | _ =>
      obtain rfl := Option.some.inj h
      exact ⟨(List.append_nil _).symm, hle⟩

/-- The worker has taken the items of the ring up to the position it has reached. -/
theorem taken_eq {s : System} (hs : system.Reachable s) :
  s.worker.taken = s.kernel.ring.take s.consumed ∧ s.consumed ≤ s.kernel.ring.length
  := by
  apply hs.invariant
    (P := fun s => s.worker.taken = s.kernel.ring.take s.consumed
      ∧ s.consumed ≤ s.kernel.ring.length)
  · exact ⟨rfl, Nat.le_refl 0⟩
  · rintro s a s' - ⟨htaken, hle⟩ h
    cases systemStep_of_step h with
    | kernel hkernel =>
        obtain ⟨new, hring⟩ := ring_prefix hkernel
        simp only [← hring]
        constructor
        · rw [htaken, List.take_append_of_le_length hle]
        · rw [List.length_append]
          apply le_trans hle (Nat.le_add_right _ _)
    | worker hworker hring =>
        obtain ⟨htake, hle'⟩ := ringStep_take hring hle
        constructor
        · rw [taken_step hworker, htaken, htake]
        · apply hle'

/-- The frames the worker has seen are the frames committed up to the position it has reached. -/
theorem frames_eq {s : System} (hs : system.Reachable s) :
  s.worker.frames = s.kernel.committed.take s.consumed
  := by
  rw [Worker.frames, (taken_eq hs).1, ring_eq_committed hs, ← List.map_take, List.filterMap_map]
  apply Eq.trans _ List.filterMap_some
  congr 1
  funext frame
  apply frameOf_bytes

/-! ### Runs of one part -/

/-- A run of the kernel program is a run of the system. -/
theorem run_kernel {as : List KernelAction} {s : System} {k : Kernel}
    (h : kernel.run s.kernel as = some k) :
  system.run s (as.map .kernel) = some { s with kernel := k }
  := by
  induction as generalizing s with
  | nil =>
      obtain rfl := Option.some.inj h
      rfl
  | cons a as ih =>
      obtain ⟨k', hstep, hrun⟩ := LTS.run_cons_some h
      rw [List.map_cons, LTS.run_cons, step_kernel hstep, Option.bind_some]
      rw [ih (s := { s with kernel := k' }) hrun]

/-- A run of the worker that polls the rest of the ring is a run of the system. -/
theorem run_worker {as : List WorkerAction} {s : System} {w : Worker}
    (h : (worker 0).run s.worker as = some w) (hle : s.consumed ≤ s.kernel.ring.length)
    (hpolls : polls as = (s.kernel.ring.drop s.consumed).map some ++ [none]
      ∨ (polls as = [] ∧ s.consumed = s.kernel.ring.length)) :
  system.run s (as.map .worker)
    = some { s with consumed := s.kernel.ring.length, worker := w }
  := by
  induction as generalizing s with
  | nil =>
      obtain rfl := Option.some.inj h
      rcases hpolls with hpolls | ⟨-, hend⟩
      · cases List.append_ne_nil_of_right_ne_nil _ (List.cons_ne_nil _ _) hpolls.symm
      · rw [← hend]
        rfl
  | cons a as ih =>
      obtain ⟨w', hstep, hrun⟩ := LTS.run_cons_some h
      -- the ring answers as the run of the worker asks
      have hring : ∃ n, ringStep s.kernel.ring s.consumed a = some n ∧ n ≤ s.kernel.ring.length
          ∧ (polls as = (s.kernel.ring.drop n).map some ++ [none]
            ∨ (polls as = [] ∧ n = s.kernel.ring.length)) := by
        cases a with
        | next item =>
            have hcons : polls (.next item :: as) = item :: polls as := rfl
            rw [hcons] at hpolls
            rcases hpolls with hpolls | ⟨hpolls, -⟩
            · rcases hle.eq_or_lt with hend | hlt
              · rw [hend, List.drop_length, List.map_nil, List.nil_append] at hpolls
                obtain ⟨rfl, hrest⟩ := List.cons.inj hpolls
                have hnone : s.kernel.ring[s.consumed]? = none := by
                  rw [hend, List.getElem?_length]
                use s.consumed, if_pos hnone.symm, hle
                right
                exact ⟨hrest, hend⟩
              · rw [List.drop_eq_getElem_cons hlt, List.map_cons, List.cons_append] at hpolls
                obtain ⟨rfl, hrest⟩ := List.cons.inj hpolls
                use s.consumed + 1, if_pos (List.getElem?_eq_getElem hlt).symm, hlt
                left
                apply hrest
            · cases hpolls
        | _ => exact ⟨s.consumed, rfl, hle, hpolls⟩
      obtain ⟨n, hn, hle', hpolls'⟩ := hring
      rw [List.map_cons, LTS.run_cons, step_worker hstep hn, Option.bind_some]
      rw [ih (s := { s with consumed := n, worker := w' }) hrun hle' hpolls']

/-- Whatever the kernel program has committed before the worker starts, some run of the worker
drains the ring. -/
theorem exists_run_drain {as : List KernelAction} {k : Kernel}
    (h : kernel.run kernel.init as = some k) (outcome : SignalFrame → SendResult) :
  ∃ (bs : List WorkerAction) (s : System),
    system.run system.init (as.map .kernel ++ bs.map .worker) = some s ∧ s.kernel = k
      ∧ s.consumed = k.ring.length ∧ s.worker.phase = .top ∧ SendsOf outcome bs
  := by
  obtain ⟨bs, w, hrun, htop, hpolls, hsends⟩ := exists_run_polls 0 outcome (k.ring.map some)
  use bs, { kernel := k, consumed := k.ring.length, worker := w }
  and_intros
  · rw [LTS.run_append, run_kernel (s := system.init) h, Option.bind_some]
    apply run_worker (s := { system.init with kernel := k }) hrun (Nat.zero_le _)
    left
    apply hpolls
  · rfl
  · rfl
  · apply htop
  · apply hsends

end Pipeline
