import ShivaProtocol.Capture.Loader

/-!
# The entry point of the capture process

`main` attaches the kernel program, spawns a consumer and a worker for every populated slot of the
first `workerCount` slots, awaits a signal, stores the shutdown flag, joins the workers, and
detaches.  `MainOutcome` says how a run can end.  A run that has attached the program cleans up
exactly if none of its steps between the attachment and the signal fails, or if it has no worker
to spawn (`cleansUp_iff`).  A run is taken to its end here; a panic, which aborts the process before
it gets there, is the subject of `Capture.ExitStatus`.
-/

open SgCommon

namespace SgCapture

/-- The number a text denotes, if it is that of a 64-bit `usize`. -/
def parseUsize (s : String) : Option ℕ :=
  let digits : List Char :=
    match s.toList with
    | '+' :: cs => cs
    | cs => cs
  let n : ℕ := digits.foldl (fun n c => 10 * n + (c.toNat - 48)) 0
  if digits ≠ [] ∧ digits.all Char.isDigit = true ∧ n < 2 ^ 64 then some n else none

section Main

variable {Ring Link : Type} (env : Environment Ring Link)

/-- The number of slots to spawn workers for: the second argument, if it is a number, or else all.
-/
def workerCount : ℕ :=
  min ((env.args[2]?.bind parseUsize).getD NCPU) NCPU

/-- Spawns a consumer and a worker for every populated slot, from slot `cpuId` on, and returns the
CPUs of the workers. -/
def spawnWorkers : ℕ → List (Option Ring) → Logged Error (MainEvent Link) (List ℕ)
  | _, [] => pure []
  | cpuId, none :: slots => spawnWorkers (cpuId + 1) slots
  | cpuId, some _ :: slots => do
      .attempt (context ("failed to spawn arena consumer thread for CPU " ++ toString cpuId)
        (env.spawnConsumer cpuId))
      .emit (.spawnConsumer cpuId)
      .emit (.spawnWorker cpuId)
      let joinHandles ← spawnWorkers (cpuId + 1) slots
      return cpuId :: joinHandles

/-- Joins the workers; the error of a join is logged, and the next worker is joined.  The panic of a
worker is not such an error: it aborts the process. -/
def joinWorkers : List ℕ → Logged Error (MainEvent Link) Unit
  | [] => pure ()
  | cpuId :: joinHandles => do
      .emit (.join cpuId)
      .ignore (.attempt (env.join cpuId))
      joinWorkers joinHandles

/-- What `main` does once it has spawned the workers. -/
def superviseWorkers (iface : String) (probe : LoadedProbe Link) (joinHandles : List ℕ) :
    Logged Error (MainEvent Link) Unit :=
  if joinHandles.isEmpty then do
    .ignore (detach env probe)
    .attempt (.error ⟨["No vacuum workers were spawned: all " ++ toString (workerCount env)
      ++ " requested CPU ring slot(s) are absent in the eBPF object.  Verify the eBPF map "
      ++ "names (`SIGNAL_RING_\x7bcpu_id\x7d`) and the CPU topology on this host."]⟩)
  else do
    .emit .spawnReporter
    .attempt (context "failed to install SIGINT handler" env.sigint)
    .attempt (context "failed to install SIGTERM handler" env.sigterm)
    .emit .storeShutdown
    .emit .stopReporter
    joinWorkers env joinHandles
    (detach env probe).mapError
      (.wrap ("XDP detach on `" ++ iface ++ "` failed; run `ip link set " ++ iface
        ++ " xdp off` manually"))

/-- A run of the process in which `build` gives the handles of the rings. -/
def mainWith (build : Except Error (List (Option Ring))) : Logged Error (MainEvent Link) Unit := do
  let iface ← .attempt (okOr "Usage: sg-capture <interface> [optional-worker-count]" env.args[1]?)
  let (probe, ringHandles) ← (loadAndAttach env build iface).mapError
    (.wrap ("failed to load and attach eBPF probe on `" ++ iface ++ "`"))
  let joinHandles ← spawnWorkers env 0 (ringHandles.take (workerCount env))
  superviseWorkers env iface probe joinHandles

/-- A run of the process. -/
def main : Logged Error (MainEvent Link) Unit :=
  mainWith env (buildRingHandles env)

/-! ### How a run can end -/

/-- The CPUs of the populated slots, from slot `cpuId` on. -/
def populated : ℕ → List (Option Ring) → List ℕ
  | _, [] => []
  | cpuId, none :: slots => populated (cpuId + 1) slots
  | cpuId, some _ :: slots => cpuId :: populated (cpuId + 1) slots

/-- What is spawned for some CPUs. -/
def spawned (cpuIds : List ℕ) : List (MainEvent Link) :=
  cpuIds.flatMap fun cpuId => [.spawnConsumer cpuId, .spawnWorker cpuId]

/-- Whether the consumer of a CPU can be spawned. -/
def Spawns (cpuId : ℕ) : Prop :=
  env.spawnConsumer cpuId = .ok ()

/-- How spawning the workers of some CPUs can end: a consumer and a worker for each of them; or an
error at the first consumer that cannot be spawned. -/
inductive SpawnOutcome (cpuIds : List ℕ) : Logged Error (MainEvent Link) (List ℕ) → Prop where
  | spawned : (∀ cpuId ∈ cpuIds, Spawns env cpuId) →
      SpawnOutcome cpuIds ⟨.ok cpuIds, spawned cpuIds⟩
  | failed (before : List ℕ) {after cpuId} (e : Error) : cpuIds = before ++ cpuId :: after →
      ¬ Spawns env cpuId → SpawnOutcome cpuIds ⟨.error e, spawned before⟩

theorem spawned_cons (cpuId : ℕ) (cpuIds : List ℕ) :
  spawned (cpuId :: cpuIds)
    = (.spawnConsumer cpuId :: .spawnWorker cpuId :: spawned cpuIds : List (MainEvent Link))
  := rfl

theorem spawnWorkers_cons {cpuId : ℕ} (h : Spawns env cpuId) (ring : Ring)
    (slots : List (Option Ring)) :
  spawnWorkers env cpuId (some ring :: slots)
    = ⟨(spawnWorkers env (cpuId + 1) slots).outcome.map (cpuId :: ·),
      .spawnConsumer cpuId :: .spawnWorker cpuId :: (spawnWorkers env (cpuId + 1) slots).log⟩
  := by
  rw [spawnWorkers, h]
  rcases spawnWorkers env (cpuId + 1) slots with ⟨_ | joinHandles, log⟩
  · rfl
  · change (⟨.ok (cpuId :: joinHandles),
      .spawnConsumer cpuId :: .spawnWorker cpuId :: (log ++ [])⟩ :
        Logged Error (MainEvent Link) (List ℕ)) = _
    rw [List.append_nil]
    rfl

theorem spawnOutcome (cpuId : ℕ) (slots : List (Option Ring)) :
  SpawnOutcome env (populated cpuId slots) (spawnWorkers env cpuId slots)
  := by
  induction slots generalizing cpuId with
  | nil =>
      apply SpawnOutcome.spawned
      simp [populated]
  | cons slot slots ih =>
      cases slot with
      | none => apply ih
      | some ring =>
          rw [populated]
          cases hspawn : env.spawnConsumer cpuId with
          | error e =>
              rw [spawnWorkers, hspawn]
              refine SpawnOutcome.failed [] _ rfl ?_
              simp [Spawns, hspawn]
          | ok _ =>
              rw [spawnWorkers_cons env hspawn]
              have hrest := ih (cpuId + 1)
              generalize spawnWorkers env (cpuId + 1) slots = rest at hrest ⊢
              cases hrest with
              | spawned hall =>
                  rw [← spawned_cons]
                  apply SpawnOutcome.spawned
                  exact List.forall_mem_cons.mpr ⟨hspawn, hall⟩
              | failed before e hsplit hfail =>
                  rw [← spawned_cons, hsplit]
                  apply SpawnOutcome.failed (cpuId :: before) e rfl hfail

theorem joinWorkers_eq (joinHandles : List ℕ) :
  joinWorkers env joinHandles = ⟨.ok (), joinHandles.map .join⟩
  := by
  induction joinHandles with
  | nil => rfl
  | cons cpuId joinHandles ih =>
      rw [joinWorkers, ih]
      rfl

/-- What the rest of `main` needs to get to its end, given the CPUs of the populated slots: every
consumer can be spawned, and if there is a worker, then both signal handlers can be installed. -/
structure Proceeds (cpuIds : List ℕ) : Prop where
  spawns : ∀ cpuId ∈ cpuIds, Spawns env cpuId
  signals : cpuIds ≠ [] → env.sigint = .ok () ∧ env.sigterm = .ok ()

/-- How a run can end: before the attachment; with the handles of the rings not built; with a
consumer not spawned; with no worker to spawn; with a signal handler not installed; or after a
signal. -/
inductive MainOutcome (build : Except Error (List (Option Ring))) :
    Logged Error (MainEvent Link) Unit → Prop where
  | unattached (e : Error) : MainOutcome build ⟨.error e, []⟩
  | unbuilt {e' : Error} (e : Error) (link : Link) : build = .error e' →
      MainOutcome build ⟨.error e, [.attach link]⟩
  | unspawned {slots before after cpuId} (e : Error) (link : Link) : build = .ok slots →
      populated 0 (slots.take (workerCount env)) = before ++ cpuId :: after →
      ¬ Spawns env cpuId → MainOutcome build ⟨.error e, .attach link :: spawned before⟩
  | idle {slots} (e : Error) (link : Link) : build = .ok slots →
      populated 0 (slots.take (workerCount env)) = [] →
      MainOutcome build ⟨.error e, [.attach link, .detach link]⟩
  | unsignalled {slots cpuIds} (e : Error) (link : Link) : build = .ok slots →
      populated 0 (slots.take (workerCount env)) = cpuIds → cpuIds ≠ [] →
      ¬ (env.sigint = .ok () ∧ env.sigterm = .ok ()) →
      MainOutcome build ⟨.error e, .attach link :: (spawned cpuIds ++ [.spawnReporter])⟩
  | stopped {slots cpuIds} (outcome : Except Error Unit) (link : Link) : build = .ok slots →
      populated 0 (slots.take (workerCount env)) = cpuIds → cpuIds ≠ [] → Proceeds env cpuIds →
      MainOutcome build
        ⟨outcome, .attach link :: (spawned cpuIds ++ .spawnReporter :: .storeShutdown
          :: .stopReporter :: (cpuIds.map .join ++ [.detach link]))⟩

section Supervise

variable (iface : String) (probe : LoadedProbe Link) {joinHandles : List ℕ}

/-- Without workers, `main` detaches and fails. -/
theorem superviseWorkers_nil :
  ∃ e, superviseWorkers env iface probe [] = ⟨.error e, [.detach probe.linkId]⟩
  := by
  apply Exists.intro
  have hlog : (detach env probe).ignore.log = [.detach probe.linkId] := log_detach env probe
  rw [superviseWorkers, List.isEmpty_nil, if_pos rfl, Logged.bind_of_ok rfl, hlog]
  rfl

/-- If a signal handler cannot be installed, `main` fails at once. -/
theorem superviseWorkers_of_not (hne : joinHandles ≠ [])
    (h : ¬ (env.sigint = .ok () ∧ env.sigterm = .ok ())) :
  ∃ e, superviseWorkers env iface probe joinHandles = ⟨.error e, [.spawnReporter]⟩
  := by
  rw [superviseWorkers, if_neg (by simpa using hne)]
  cases hint : env.sigint with
  | error e => exact ⟨_, rfl⟩
  | ok _ =>
      cases hterm : env.sigterm with
      | error e => exact ⟨_, rfl⟩
      | ok _ => cases h ⟨hint, hterm⟩

/-- After a signal, `main` stores the shutdown flag, joins the workers and detaches. -/
theorem superviseWorkers_of (hne : joinHandles ≠ []) (hint : env.sigint = .ok ())
    (hterm : env.sigterm = .ok ()) :
  ∃ outcome, superviseWorkers env iface probe joinHandles
    = ⟨outcome, .spawnReporter :: .storeShutdown :: .stopReporter
      :: (joinHandles.map .join ++ [.detach probe.linkId])⟩
  := by
  apply Exists.intro
  rw [superviseWorkers, if_neg (by simpa using hne), hint, hterm, joinWorkers_eq,
    ← log_detach env probe]
  rfl

end Supervise

theorem mainOutcome (build : Except Error (List (Option Ring))) :
  MainOutcome env build (mainWith env build)
  := by
  apply Logged.attempt_bind MainOutcome.unattached
  intro iface _
  have hload := loadOutcome env build iface
  generalize loadAndAttach env build iface = loaded at hload ⊢
  cases hload with
  | unattached e => apply MainOutcome.unattached
  | unbuilt link hbuild => apply MainOutcome.unbuilt _ link hbuild
  | @attached slots link hbuild =>
      have hspawn := spawnOutcome env 0 (slots.take (workerCount env))
      generalize hpopulated : populated 0 (slots.take (workerCount env)) = cpuIds at hspawn
      rw [Logged.bind_of_ok rfl]
      simp only
      generalize spawnWorkers env 0 (slots.take (workerCount env)) = spawning at hspawn ⊢
      cases hspawn with
      | failed before e hsplit hfail =>
          rw [hsplit] at hpopulated
          apply MainOutcome.unspawned e link hbuild hpopulated hfail
      | spawned hall =>
          rw [Logged.bind_of_ok rfl]
          by_cases hnil : cpuIds = []
          · subst hnil
            obtain ⟨e, he⟩ := superviseWorkers_nil env iface ⟨iface, link⟩
            rw [he]
            apply MainOutcome.idle e link hbuild hpopulated
          · by_cases hsignals : env.sigint = .ok () ∧ env.sigterm = .ok ()
            · obtain ⟨outcome, houtcome⟩ :=
                superviseWorkers_of env iface ⟨iface, link⟩ hnil hsignals.1 hsignals.2
              rw [houtcome]
              apply MainOutcome.stopped outcome link hbuild hpopulated hnil
              exact ⟨hall, fun _ => hsignals⟩
            · obtain ⟨e, he⟩ := superviseWorkers_of_not env iface ⟨iface, link⟩ hnil hsignals
              rw [he]
              apply MainOutcome.unsignalled e link hbuild hpopulated hnil hsignals

/-! ### Cleaning up -/

/-- The link an event detaches. -/
def MainEvent.detached : MainEvent Link → Option Link
  | .detach link => some link
  | _ => none

/-- In a run, `detach` is invoked exactly once, on the given link, and the shutdown flag is stored
if a worker has been spawned. -/
structure CleansUp (link : Link) (log : List (MainEvent Link)) : Prop where
  detached : log.filterMap MainEvent.detached = [link]
  stopped : ∀ cpuId, .spawnWorker cpuId ∈ log → .storeShutdown ∈ log

theorem detached_spawned (cpuIds : List ℕ) :
  (spawned cpuIds : List (MainEvent Link)).filterMap MainEvent.detached = []
  := by
  rw [List.filterMap_eq_nil_iff]
  intro e he
  obtain ⟨cpuId, -, hmem⟩ := List.mem_flatMap.mp he
  rcases List.mem_pair.mp hmem with rfl | rfl
  · rfl
  · rfl

theorem detached_join (cpuIds : List ℕ) :
  (cpuIds.map .join : List (MainEvent Link)).filterMap MainEvent.detached = []
  := by
  rw [List.filterMap_eq_nil_iff]
  intro e he
  obtain ⟨cpuId, -, rfl⟩ := List.mem_map.mp he
  rfl

/-- A run that has not detached has not cleaned up. -/
theorem not_cleansUp {link : Link} {log : List (MainEvent Link)}
    (h : log.filterMap MainEvent.detached = []) :
  ¬ CleansUp link log
  := by
  intro hclean
  cases h.symm.trans hclean.detached

/-- Once the handles of the rings are built, it is known which CPUs get a worker. -/
theorem exists_proceeds_iff {build : Except Error (List (Option Ring))}
    {slots : List (Option Ring)} {cpuIds : List ℕ} (hbuild : build = .ok slots)
    (hpopulated : populated 0 (slots.take (workerCount env)) = cpuIds) :
  (∃ slots, build = .ok slots ∧ Proceeds env (populated 0 (slots.take (workerCount env))))
    ↔ Proceeds env cpuIds
  := by
  constructor
  · rintro ⟨slots', hslots, hproceeds⟩
    obtain rfl := Except.ok.inj (hbuild.symm.trans hslots)
    rw [← hpopulated]
    apply hproceeds
  · intro hproceeds
    use slots, hbuild
    rw [hpopulated]
    apply hproceeds

/-- A run that has attached the program cleans up exactly if the handles of the rings are built,
the consumer of every populated slot is spawned, and both signal handlers are installed unless no
slot is populated. -/
theorem cleansUp_iff {build : Except Error (List (Option Ring))} {link : Link}
    (h : .attach link ∈ (mainWith env build).log) :
  CleansUp link (mainWith env build).log
    ↔ ∃ slots, build = .ok slots ∧ Proceeds env (populated 0 (slots.take (workerCount env)))
  := by
  have houtcome := mainOutcome env build
  generalize mainWith env build = run at h houtcome ⊢
  cases houtcome with
  | unattached e => cases h
  | unbuilt e link' hbuild =>
      apply iff_of_false
      · apply not_cleansUp rfl
      · rintro ⟨slots, hslots, -⟩
        cases hbuild.symm.trans hslots
  | unspawned e link' hbuild hpopulated hfail =>
      rw [exists_proceeds_iff env hbuild hpopulated]
      apply iff_of_false
      · apply not_cleansUp
        apply detached_spawned
      · intro hproceeds
        apply hfail
        apply hproceeds.spawns
        apply List.mem_append_right _ List.mem_cons_self
  | unsignalled e link' hbuild hpopulated hne hsignals =>
      rw [exists_proceeds_iff env hbuild hpopulated]
      apply iff_of_false
      · apply not_cleansUp
        rw [List.filterMap_cons_none rfl, List.filterMap_append, detached_spawned]
        rfl
      · intro hproceeds
        apply hsignals (hproceeds.signals hne)
  | idle e link' hbuild hpopulated =>
      rw [exists_proceeds_iff env hbuild hpopulated]
      have hlink : link = link' := by simpa using h
      subst hlink
      apply iff_of_true
      · constructor
        · rfl
        · intro cpuId hmem
          simp at hmem
      · constructor
        · intro cpuId hmem
          cases hmem
        · intro hne
          contradiction
  | stopped outcome link' hbuild hpopulated _ hproceeds =>
      rw [exists_proceeds_iff env hbuild hpopulated]
      have hlink : link = link' := by simpa [spawned] using h
      subst hlink
      apply iff_of_true
      · constructor
        · rw [List.filterMap_cons_none rfl, List.filterMap_append, detached_spawned,
            List.nil_append, List.filterMap_cons_none rfl, List.filterMap_cons_none rfl,
            List.filterMap_cons_none rfl, List.filterMap_append, detached_join]
          rfl
        · intro cpuId _
          simp
      · apply hproceeds

/-! ### The one worker -/

theorem populated_none (cpuId n : ℕ) :
  populated cpuId (List.replicate n (none : Option Ring)) = []
  := by
  induction n generalizing cpuId with
  | zero => rfl
  | succ n ih => apply ih

/-- `buildRingHandles` populates slot 0 and no other. -/
theorem populated_buildRingHandles {slots : List (Option Ring)} (n : ℕ)
    (h : buildRingHandles env = .ok slots) :
  populated 0 (slots.take n) = if n = 0 then [] else [0]
  := by
  have hslots : ∃ ring, slots = some ring :: List.replicate 31 none := by
    rw [buildRingHandles] at h
    rcases hring : env.signalRing with _ | _ | ring
    all_goals rw [hring] at h
    · cases h
    · cases h
    · obtain rfl := Except.ok.inj h
      exact ⟨ring, rfl⟩
  obtain ⟨ring, rfl⟩ := hslots
  cases n with
  | zero => rfl
  | succ n =>
      rw [List.take_succ_cons, List.take_replicate, populated, populated_none]
      rfl

/-- If a worker is spawned, it is that of CPU 0, and no other is. -/
theorem populated_eq_singleton {slots : List (Option Ring)} {cpuIds : List ℕ}
    (hbuild : buildRingHandles env = .ok slots)
    (hpopulated : populated 0 (slots.take (workerCount env)) = cpuIds) (hne : cpuIds ≠ []) :
  cpuIds = [0]
  := by
  rw [populated_buildRingHandles env _ hbuild] at hpopulated
  split at hpopulated
  · cases hne hpopulated.symm
  · apply hpopulated.symm

/-- A run that gets to the signal has spawned one worker, that of CPU 0, and then stores the
shutdown flag, joins the worker and detaches. -/
theorem log_main_of_stored (h : .storeShutdown ∈ (main env).log) :
  ∃ link, (main env).log = [.attach link, .spawnConsumer 0, .spawnWorker 0, .spawnReporter,
    .storeShutdown, .stopReporter, .join 0, .detach link]
  := by
  have houtcome := mainOutcome env (buildRingHandles env)
  rw [← main] at houtcome
  generalize main env = run at h houtcome ⊢
  cases houtcome with
  | unattached e => cases h
  | unbuilt e link _ => simp at h
  | unspawned e link _ _ _ => simp [spawned] at h
  | unsignalled e link _ _ _ _ => simp [spawned] at h
  | idle e link _ _ => simp at h
  | stopped outcome link hbuild hpopulated hne _ =>
      obtain rfl := populated_eq_singleton env hbuild hpopulated hne
      exact ⟨link, rfl⟩

end Main

/-- Calls that all succeed, on an interface `eth0`. -/
def sampleEnvironment : Environment Unit Unit where
  args := ["sg-capture", "eth0"]
  objectExists := true
  readObject := .ok ()
  loadObject := .ok ()
  program := some (.ok ())
  verify := .ok ()
  attach _ := .ok ()
  signalRing := some (.ok ())
  spawnConsumer _ := .ok ()
  sigint := .ok ()
  sigterm := .ok ()
  join _ := .ok ()
  detach _ := .ok ()

theorem cleansUp_sampleEnvironment :
  .attach () ∈ (main sampleEnvironment).log ∧ CleansUp () (main sampleEnvironment).log
  := by
  have hattach : .attach () ∈ (main sampleEnvironment).log := List.mem_cons_self
  refine ⟨hattach, (cleansUp_iff sampleEnvironment hattach).mpr ⟨_, rfl, ?_⟩⟩
  constructor
  · intro cpuId _
    rfl
  · intro _
    exact ⟨rfl, rfl⟩

/-- If the handler of SIGINT cannot be installed, `main` leaves the program attached and its worker
running. -/
theorem not_cleansUp_sigint :
  ∃ env : Environment Unit Unit, .attach () ∈ (main env).log ∧ .spawnWorker 0 ∈ (main env).log
    ∧ .detach () ∉ (main env).log ∧ .storeShutdown ∉ (main env).log
    ∧ ¬ CleansUp () (main env).log
  := by
  use { sampleEnvironment with sigint := .error ⟨["too many open files"]⟩ }
  have hlog : (main { sampleEnvironment with sigint := .error ⟨["too many open files"]⟩ }).log
      = [.attach (), .spawnConsumer 0, .spawnWorker 0, .spawnReporter] := rfl
  rw [hlog]
  refine ⟨by decide, by decide, by decide, by decide, not_cleansUp rfl⟩

end SgCapture
