import ShivaProtocol.Ebpf.Lifetime
import ShivaProtocol.Capture.Telemetry
import ShivaProtocol.Pipeline.Refinement

/-!
# The process and its reporter

The reporter shares the metrics block with the worker of the process; `main` tells it to stop
between the store of the shutdown flag and the join of the worker.  `monitored` is the process
together with its reporter.  The kernel program selects at most a million packets on a CPU, so the
totals of the reporter never wrap around, and what it logs can be held against what the kernel
program commits: after every tick the log accounts for every frame committed before the tick, save
those on the ring and in the hands of the worker, and for no frame that has not been committed
(`tick_accounts`).
-/

open SgCommon SgEbpf SgCapture

namespace Pipeline

/-- The process and its reporter. -/
structure Monitored where
  process : Process
  reporter : Reporter

/-- A step of the process; `main` tells the reporter to stop; a step of the reporter. -/
inductive MonitoredAction where
  | process (a : ProcessAction)
  | stopReporter
  | advance

/-- Whether `main` may take a step: it joins the worker after it has told the reporter to stop. -/
def joinAllows (stopped : Bool) : ProcessAction → Bool
  | .join => stopped
  | _ => true

namespace Monitored

/-- The process and its reporter before they run. -/
def init : Monitored where
  process := Process.init
  reporter := Reporter.init

/-- The state after an action, if it is enabled.  The reporter ends with the process. -/
def step (s : Monitored) : MonitoredAction → Option Monitored
  | .process a =>
      match s.process.step a, joinAllows s.reporter.shutdown a with
      | some p, true =>
          some
            { process := p
              reporter := { s.reporter with metrics := p.system.worker.metrics } }
      | _, _ => none
  | .stopReporter =>
      match s.process.system.worker.phase.alive, s.process.main with
      | true, .stopping => (s.reporter.step .signal).map fun r => { s with reporter := r }
      | _, _ => none
  | .advance =>
      match s.process.system.worker.phase.alive with
      | true => (s.reporter.step .advance).map fun r => { s with reporter := r }
      | false => none

end Monitored

/-- The process and its reporter, as a transition system. -/
def monitored : LTS Monitored MonitoredAction where
  init := Monitored.init
  step := Monitored.step

/-- What a step can do. -/
inductive MonitoredStep (s : Monitored) : MonitoredAction → Monitored → Prop where
  | process {a p} : process.step s.process a = some p →
      joinAllows s.reporter.shutdown a = true →
      MonitoredStep s (.process a)
        { process := p
          reporter := { s.reporter with metrics := p.system.worker.metrics } }
  | stopReporter {r} : s.process.system.worker.phase.alive = true → s.process.main = .stopping →
      reporter.step s.reporter .signal = some r →
      MonitoredStep s .stopReporter { s with reporter := r }
  | advance {r} : s.process.system.worker.phase.alive = true →
      reporter.step s.reporter .advance = some r →
      MonitoredStep s .advance { s with reporter := r }

/-- Every step is one of `MonitoredStep`. -/
theorem monitoredStep_of_step {s t : Monitored} {a : MonitoredAction}
    (h : monitored.step s a = some t) :
  MonitoredStep s a t
  := by
  cases a with
  | process a =>
      simp only [monitored, Monitored.step] at h
      split at h
      · rename_i hprocess hjoin
        obtain rfl := Option.some.inj h
        apply MonitoredStep.process hprocess hjoin
      · cases h
  | stopReporter =>
      simp only [monitored, Monitored.step] at h
      split at h
      · rename_i halive hmain
        obtain ⟨r, hr, rfl⟩ := Option.map_eq_some_iff.mp h
        apply MonitoredStep.stopReporter halive hmain hr
      · cases h
  | advance =>
      simp only [monitored, Monitored.step] at h
      split at h
      · rename_i halive
        obtain ⟨r, hr, rfl⟩ := Option.map_eq_some_iff.mp h
        apply MonitoredStep.advance halive hr
      · cases h

/-- The process runs as it does without its reporter. -/
def monitoredToProcess : LTS.Simulation monitored process where
  state s := s.process
  action
    | .process a => some a
    | _ => none
  init := rfl
  step := by
    intro s a b t ha h
    cases monitoredStep_of_step h with
    | process hprocess _ =>
        obtain rfl := Option.some.inj ha
        apply hprocess
    | stopReporter _ _ _ => cases ha
    | advance _ _ => cases ha
  stutter := by
    intro s a t ha h
    cases monitoredStep_of_step h with
    | process _ _ => cases ha
    | stopReporter _ _ _ => rfl
    | advance _ _ => rfl

/-- What a step of the process does to the metrics block is a list of recordings. -/
theorem recordings_of_processStep {p q : Process} {a : ProcessAction}
    (h : process.step p a = some q) :
  ∃ cpuId ks, q.system.worker.metrics = p.system.worker.metrics.recordAll cpuId ks
  := by
  cases processStep_of_step h with
  | kernel hsystem _ => exact ⟨0, [], by rw [worker_of_step_kernel hsystem]; rfl⟩
  | worker hsystem _ _ =>
      cases systemStep_of_step hsystem with
      | worker hworker _ =>
          exact ⟨_, recordings_of_workerStep (workerStep_of_step hworker)⟩
  | _ => exact ⟨0, [], rfl⟩

/-- A step of the reporter leaves the counters alone. -/
theorem metrics_advance {r t : Reporter} (h : reporter.step r .advance = some t) :
  t.metrics = r.metrics
  := by
  cases reporterStep_of_step h with
  | exit _ _ => rfl
  | wake _ _ => rfl
  | load _ _ => rfl
  | report _ _ _ _ _ => rfl

/-- The reporter reads the metrics block of the worker. -/
def Monitored.Attached (s : Monitored) : Prop :=
  s.reporter.metrics = s.process.system.worker.metrics

/-- A step is a run of the reporter. -/
theorem reporter_run_of_monitoredStep {s t : Monitored} {a : MonitoredAction} (hs : s.Attached)
    (h : monitored.step s a = some t) :
  t.Attached ∧ ∃ as, reporter.run s.reporter as = some t.reporter
  := by
  cases monitoredStep_of_step h with
  | process hprocess _ =>
      obtain ⟨cpuId, ks, hks⟩ := recordings_of_processStep hprocess
      refine ⟨rfl, ks.map (.record cpuId), ?_⟩
      rw [run_recordings, hks, hs]
  | stopReporter _ _ hr =>
      refine ⟨?_, [.signal], by rw [LTS.run_singleton, hr]⟩
      obtain rfl := Option.some.inj hr
      apply hs
  | advance _ hr =>
      refine ⟨?_, [.advance], by rw [LTS.run_singleton, hr]⟩
      rw [Monitored.Attached, metrics_advance hr]
      apply hs

/-- A run is a run of the reporter. -/
theorem reporter_run_of_monitored {s t : Monitored} {as : List MonitoredAction} (hs : s.Attached)
    (h : monitored.run s as = some t) :
  t.Attached ∧ ∃ bs, reporter.run s.reporter bs = some t.reporter
  := by
  apply monitored.run_rel
    (fun s t => s.Attached → t.Attached ∧ ∃ bs, reporter.run s.reporter bs = some t.reporter)
    _ _ _ h hs
  · intro s hs
    exact ⟨hs, [], rfl⟩
  · intro s t u hst htu hs
    obtain ⟨ht, as, has⟩ := hst hs
    obtain ⟨hu, bs, hbs⟩ := htu ht
    exact ⟨hu, as ++ bs, LTS.run_trans has hbs⟩
  · intro s a t hst hs
    apply reporter_run_of_monitoredStep hs hst

theorem process_reachable {s : Monitored} (hs : monitored.Reachable s) :
  process.Reachable s.process
  := monitoredToProcess.reachable hs

/-! ### The totals -/

/-- The number of frames on the ring and in the hands of the worker, committed and not counted. -/
def System.uncounted (s : System) : ℕ :=
  s.waiting + s.worker.pending.length + s.worker.inHand

/-- Every frame committed is counted, on the ring, or in the hands of the worker. -/
theorem committed_eq_counted {p : Process} (hp : process.Reachable p) :
  p.system.kernel.committed.length = p.system.counted + p.system.uncounted
  := by
  have hsystem := system_reachable hp
  have hconnected : p.system.worker.results .disconnected = 0 :=
    (delivering (delivery_reachable hp)).connected
  have hcounted := counted_accounting (by decide) (worker_reachable hsystem)
  obtain ⟨hwaiting, hle⟩ := waiting_eq hsystem
  obtain ⟨htaken, -⟩ := taken_eq hsystem
  have hlen : p.system.worker.taken.length = p.system.consumed := by
    rw [htaken, ring_eq_committed hsystem, List.length_take, List.length_map, min_eq_left hle]
  rw [System.counted, System.uncounted]
  omega

/-- There are no more CPUs than CPU ids. -/
theorem card_cpus_le (cpus : Finset UInt32) :
  cpus.card ≤ 2 ^ 32
  := by
  have hinj : Function.Injective UInt32.toFin := fun _ _ h => UInt32.toFin_inj.mp h
  have hcard : (cpus.image UInt32.toFin).card = cpus.card := Finset.card_image_of_injective _ hinj
  have hle := (cpus.image UInt32.toFin).card_le_univ
  rw [hcard, Fintype.card_fin] at hle
  apply hle

/-- The frames committed in a run never exceed a word. -/
theorem length_committed_lt {p : Process} (hp : process.Reachable p) :
  p.system.kernel.committed.length < 2 ^ 64
  := by
  have hkernel := kernel_reachable (system_reachable hp)
  have haccounting := selected_accounting hkernel
  obtain ⟨as, has⟩ := hkernel
  have hon : ArrivesOn Finset.univ as := fun cpu _ _ _ => Finset.mem_univ cpu
  have hle := selected_le has hon
  have hcard := card_cpus_le Finset.univ
  have hmax : maxpps = 1000000 := rfl
  have hbound : maxpps * (Finset.univ : Finset UInt32).card ≤ 1000000 * 2 ^ 32 := by
    rw [hmax]
    apply Nat.mul_le_mul_left _ hcard
  omega

/-- The increments of a counter, all its cells together, never exceed a word. -/
theorem total_lt {p : Process} (hp : process.Reachable p) (k : Counter) :
  (p.system.worker.metrics.cells k).total < 2 ^ 64
  := by
  have hcommitted := committed_eq_counted hp
  have hlt := length_committed_lt hp
  rw [System.counted, Metrics.counted] at hcommitted
  cases k <;> simp only [Metrics.cells] <;> omega

/-! ### The log -/

/-- The sum of all deltas logged, of both rates. -/
def accounted (r : Reporter) : ℕ :=
  (r.logged.map fun line => line.deltaOk.toNat).sum
    + (r.logged.map fun line => line.deltaDrop.toNat).sum

/-- A tick of the reporter: it begins in `s`, where the reporter sleeps, and ends with the step from
`t` to `u`, which logs the one line of the tick. -/
structure Tick (s : Monitored) (as : List MonitoredAction) (t u : Monitored) (line : Line) :
    Prop where
  begins : s.reporter.phase = .sleeping
  during : monitored.run s as = some t
  silent : t.reporter.logged = s.reporter.logged
  ends : monitored.step t .advance = some u
  logs : u.reporter.logged = t.reporter.logged ++ [line]

/-- What a step that logs has read. -/
theorem sums_of_logs {r r' : Reporter} {line : Line} (h : reporter.step r .advance = some r')
    (hlogs : r'.logged = r.logged ++ [line]) :
  ∃ sweep, r.phase = .reading sweep ∧ sweep.rest = []
    ∧ (∀ rate, r'.prev rate = sweep.sums rate.counter) ∧ line.channelFull = sweep.sums .full
  := by
  have hne : r.logged ≠ r.logged ++ [line] := by simp
  cases reporterStep_of_step h with
  | exit _ _ => cases hne hlogs
  | wake _ _ => cases hne hlogs
  | load _ _ => cases hne hlogs
  | @report sweep line' hphase hrest _ _ hfull =>
      obtain rfl := List.singleton_inj.mp (List.append_cancel_left hlogs)
      refine ⟨sweep, hphase, hrest, ?_, hfull⟩
      rintro (_ | _) <;> rfl

/-- When a tick has logged its line, the deltas logged so far and the total of `channel_full` in the
line account for every frame committed before the tick, save those that were on the ring or in
the hands of the worker when it began; and for no frame that has not been committed when it ends.
The increments of a counter, all its cells together, fit in a word: neither a cell nor a total wraps
around. -/
theorem tick_accounts {s t u : Monitored} {as : List MonitoredAction} {line : Line}
    (hs : monitored.Reachable s) (htick : Tick s as t u line) :
  s.process.system.kernel.committed.length
      ≤ accounted u.reporter + line.channelFull.toNat + s.process.system.uncounted
    ∧ accounted u.reporter + line.channelFull.toNat
      ≤ t.process.system.kernel.committed.length
    ∧ ∀ k, (u.process.system.worker.metrics.cells k).total < 2 ^ 64
  := by
  have ht := hs.run htick.during
  have hwords := total_lt (process_reachable (ht.step htick.ends))
  obtain ⟨before, hbefore⟩ := hs
  have hinit : monitored.init.Attached := rfl
  obtain ⟨hattached, bs, hbs⟩ := reporter_run_of_monitored hinit hbefore
  obtain ⟨hattached', cs, hcs⟩ := reporter_run_of_monitored hattached htick.during
  have hprocess := process_reachable ht
  have htotal (k : Counter) : (t.reporter.metrics.cells k).total < 2 ^ 64 := by
    rw [hattached']
    apply total_lt hprocess
  cases monitoredStep_of_step htick.ends with
  | @advance r _ hr =>
      obtain ⟨sweep, hphase, hrest, hprev, hfull⟩ := sums_of_logs hr htick.logs
      have hbetween (k : Counter) := total_between hbs htick.begins hcs hphase hrest
        (congrArg List.length htick.silent) (htotal k)
      have hrun : reporter.run reporter.init (bs ++ cs ++ [.advance]) = some r := by
        apply LTS.run_trans (LTS.run_trans hbs hcs)
        rw [LTS.run_singleton, hr]
      have hsum (rate : Rate) : (r.logged.map fun line => (line.delta rate).toNat).sum
          = (sweep.sums rate.counter).toNat := by
        rw [← hprev rate]
        apply sum_delta hrun
        rw [metrics_advance hr]
        apply htotal
      have hok := hsum .frames
      have hdrop := hsum .drops
      simp only [Line.delta, Rate.counter] at hok hdrop
      have hstart := committed_eq_counted (process_reachable ⟨before, hbefore⟩)
      have hend := committed_eq_counted hprocess
      rw [System.counted, Metrics.counted] at hstart hend
      have hbok := hbetween .ok
      have hbdrop := hbetween .drop
      have hbfull := hbetween .full
      rw [hattached, hattached'] at hbok hbdrop hbfull
      simp only [Metrics.cells] at hbok hbdrop hbfull
      rw [accounted, hok, hdrop, hfull]
      refine ⟨?_, ?_, hwords⟩
      · omega
      · omega

/-- CPU 0 commits a frame, and the worker takes, dispatches and records it. -/
def recordedRun : List MonitoredAction :=
  (invocation 0 DenyMap.allowAll true samplePacket).map (fun a => .process (.kernel a))
    ++ [.pin true, .checkShutdown false, .next (some (sampleFrame 0 0).bytes), .next none,
      .trySend .ok, .recordOk].map (fun a => .process (.worker a))

/-- The tick after that run logs the frame. -/
theorem tick_recordedRun :
  ∃ s t u line, monitored.run monitored.init recordedRun = some s
    ∧ Tick s (List.replicate 97 .advance) t u line ∧ line.deltaOk = 1
    ∧ s.process.system.kernel.committed.length = 1 ∧ s.process.system.uncounted = 0
  := by
  have hrun : ((monitored.run monitored.init recordedRun).bind fun s =>
      (monitored.run s (List.replicate 97 .advance)).bind fun t =>
        (monitored.step t .advance).map fun u =>
          ((match s.reporter.phase with | .sleeping => true | _ => false),
            s.reporter.logged.length, t.reporter.logged.length,
            u.reporter.logged.map fun line => line.deltaOk,
            s.process.system.kernel.committed.length, s.process.system.uncounted))
      = some (true, 0, 0, [1], 1, 0) := by decide +kernel
  obtain ⟨s, hs, hmap⟩ := Option.bind_eq_some_iff.mp hrun
  obtain ⟨t, ht, hmap⟩ := Option.bind_eq_some_iff.mp hmap
  obtain ⟨u, hu, heq⟩ := Option.map_eq_some_iff.mp hmap
  simp only [Prod.mk.injEq, List.length_eq_zero_iff] at heq
  obtain ⟨hsleeping, hslog, htlog, hulog, hcommitted, huncounted⟩ := heq
  obtain ⟨line, hline, hdelta⟩ := List.map_eq_singleton_iff.mp hulog
  refine ⟨s, t, u, line, hs, ⟨?_, ht, ?_, hu, ?_⟩, hdelta, hcommitted, huncounted⟩
  · cases hphase : s.reporter.phase with
    | sleeping => rfl
    | _ =>
        rw [hphase] at hsleeping
        cases hsleeping
  · rw [hslog, htlog]
  · rw [hline, htlog, List.nil_append]

/-- The log accounts for the one frame committed in that run. -/
theorem tick_accounts_recordedRun :
  ∃ s t u line, monitored.run monitored.init recordedRun = some s
    ∧ Tick s (List.replicate 97 .advance) t u line
    ∧ 1 ≤ accounted u.reporter + line.channelFull.toNat
    ∧ (u.process.system.worker.metrics.cells .ok).total < 2 ^ 64
  := by
  obtain ⟨s, t, u, line, hs, htick, -, hcommitted, huncounted⟩ := tick_recordedRun
  obtain ⟨hle, -, hwords⟩ := tick_accounts ⟨_, hs⟩ htick
  rw [hcommitted, huncounted] at hle
  exact ⟨s, t, u, line, hs, htick, hle, hwords .ok⟩

end Pipeline
