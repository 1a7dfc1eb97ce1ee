import ShivaProtocol.Capture.Deltas

/-!
# The workers and the reporter

Any number of vacuum workers share a metrics block with the reporter, until one of them cannot be
pinned and aborts the process.  What a step of a worker does
to the block is a list of recordings for its CPU (`recordings_of_workerStep`), so the reporter runs
among the workers as it does among recordings (`reporter_run_of_run`), and its deltas add up to the
totals of its last tick (`sum_delta_of_reachable`).
-/

open SgCommon

namespace SgCapture

/-- The recordings of a CPU, one after another. -/
def Metrics.recordAll (m : Metrics) (cpuId : ℕ) (ks : List Counter) : Metrics :=
  ks.foldl (fun m k => m.record cpuId k) m

/-- What a step of a worker does to the metrics block is a list of recordings for its CPU. -/
theorem recordings_of_workerStep {w w' : Worker} {a : WorkerAction} (h : WorkerStep w a w') :
  ∃ ks, w'.metrics = w.metrics.recordAll w.cpuId ks
  := by
  cases h with
  | pin ok _ => exact ⟨[], rfl⟩
  | stop _ => exact ⟨[], rfl⟩
  | poll _ => exact ⟨[], rfl⟩
  | @item left raw _ =>
      change ∃ ks, (w.validate raw).metrics = w.metrics.recordAll w.cpuId ks
      rcases validate_cases w raw with ⟨_, -, hdrop⟩ | ⟨_, -, -, hpush⟩
      · rw [hdrop]
        exact ⟨[.drop], rfl⟩
      · rw [hpush]
        exact ⟨[], rfl⟩
  | drained _ => exact ⟨[], rfl⟩
  | trySend result _ _ =>
      cases result with
      | ok => exact ⟨[], rfl⟩
      | full => exact ⟨[.full], rfl⟩
      | disconnected => exact ⟨[], rfl⟩
  | recordOk _ => exact ⟨[.ok], rfl⟩
  | yieldNow _ _ => exact ⟨[], rfl⟩
  | ret _ => exact ⟨[], rfl⟩

/-- The recordings of a CPU are a run among which the reporter takes no step. -/
theorem run_recordings (r : Reporter) (cpuId : ℕ) (ks : List Counter) :
  reporter.run r (ks.map (.record cpuId)) = some { r with metrics := r.metrics.recordAll cpuId ks }
  := by
  induction ks generalizing r with
  | nil => rfl
  | cons k ks ih => apply ih { r with metrics := r.metrics.record cpuId k }

/-- The workers, and the reporter with the metrics block that all share. -/
structure Telemetry (ι : Type) where
  workers : ι → Worker
  reporter : Reporter

/-- A step of a worker; the shutdown is signalled; a step of the reporter. -/
inductive TelemetryAction (ι : Type) where
  | worker (i : ι) (a : WorkerAction)
  | signal
  | advance

namespace Telemetry

variable {ι : Type}

/-- The threads before they run, with a worker for each of the CPUs. -/
def init (cpuIds : ι → ℕ) : Telemetry ι where
  workers i := Worker.init (cpuIds i)
  reporter := Reporter.init

/-- A worker with the metrics block as the others have left it. -/
def worker (s : Telemetry ι) (i : ι) : Worker :=
  { s.workers i with metrics := s.reporter.metrics }

variable [Fintype ι] [DecidableEq ι]

/-- The state after an action, if it is enabled.  The threads end with their process. -/
def step (s : Telemetry ι) (a : TelemetryAction ι) : Option (Telemetry ι) :=
  if ∀ i, (s.workers i).phase.alive = true then
    match a with
    | .worker i a =>
        ((s.worker i).step a).map fun w =>
          { workers := Function.update s.workers i w
            reporter := { s.reporter with metrics := w.metrics } }
    | .signal => (s.reporter.step .signal).map fun r => { s with reporter := r }
    | .advance => (s.reporter.step .advance).map fun r => { s with reporter := r }
  else none

end Telemetry

section Telemetry

variable {ι : Type} [Fintype ι] [DecidableEq ι] {cpuIds : ι → ℕ}

/-- Workers for the CPUs `cpuIds` and the reporter, as a transition system. -/
def telemetry (cpuIds : ι → ℕ) : LTS (Telemetry ι) (TelemetryAction ι) where
  init := Telemetry.init cpuIds
  step := Telemetry.step

/-- A step of the threads is a run of the reporter. -/
theorem reporter_run_of_step {s t : Telemetry ι} {a : TelemetryAction ι}
    (h : (telemetry cpuIds).step s a = some t) :
  ∃ as, reporter.run s.reporter as = some t.reporter
  := by
  obtain ⟨-, h⟩ := Option.ite_none_right_eq_some.mp h
  cases a with
  | worker i a =>
      obtain ⟨w, hw, rfl⟩ := Option.map_eq_some_iff.mp h
      obtain ⟨ks, hks⟩ := recordings_of_workerStep (@workerStep_of_step (cpuIds i) _ _ _ hw)
      use ks.map (.record (s.worker i).cpuId)
      rw [run_recordings, hks]
      rfl
  | signal =>
      change Option.map _ (reporter.step s.reporter .signal) = some t at h
      obtain ⟨r, hr, rfl⟩ := Option.map_eq_some_iff.mp h
      use [.signal]
      rw [LTS.run_singleton, hr]
  | advance =>
      change Option.map _ (reporter.step s.reporter .advance) = some t at h
      obtain ⟨r, hr, rfl⟩ := Option.map_eq_some_iff.mp h
      use [.advance]
      rw [LTS.run_singleton, hr]

/-- A run of the threads is a run of the reporter. -/
theorem reporter_run_of_run {as : List (TelemetryAction ι)} {s t : Telemetry ι}
    (h : (telemetry cpuIds).run s as = some t) :
  ∃ bs, reporter.run s.reporter bs = some t.reporter
  := by
  apply LTS.run_rel (fun s t => ∃ bs, reporter.run s.reporter bs = some t.reporter) _ _ _ h
  · intro s
    use []
    rfl
  · rintro s t u ⟨as, has⟩ ⟨bs, hbs⟩
    use as ++ bs
    apply LTS.run_trans has hbs
  · intro s a t hst
    apply reporter_run_of_step hst

/-- While the total of a rate's counter fits in a word, its deltas add up to the total of the last
tick, whatever the workers do. -/
theorem sum_delta_of_reachable {s : Telemetry ι} (hs : (telemetry cpuIds).Reachable s) {rate : Rate}
    (htotal : (s.reporter.metrics.cells rate.counter).total < 2 ^ 64) :
  (s.reporter.logged.map fun line => (line.delta rate).toNat).sum = (s.reporter.prev rate).toNat
  := by
  obtain ⟨as, has⟩ := hs
  obtain ⟨bs, hbs⟩ := reporter_run_of_run has
  apply sum_delta hbs htotal

end Telemetry

end SgCapture
