import ShivaProtocol.Capture.Main

/-!
# The exit status

Each part of `main` succeeds exactly if the calls it depends on do.  So `main` returns Ok exactly if
every fallible call of the run succeeds, the join of the worker excepted, whose failure is only
logged, and the attachment in the driver, which may fail if that in the network stack does not; and
if the worker count is not zero (`main_ok_iff`).  A process need not get to the end of `main`: two
of its threads may panic, and a panic aborts it.  `Ends` says how a process can end, and it returns
Ok exactly if, besides, its worker can be pinned and its reporter be spawned (`exitStatus`).
-/

namespace SgCapture

variable {Ring Link : Type} (env : Environment Ring Link)

/-- The object file is there, it can be read and loaded, and it has the program, which passes the
verifier. -/
structure Loads : Prop where
  found : env.objectExists = true
  read : env.readObject = .ok ()
  loaded : env.loadObject = .ok ()
  program : env.program = some (.ok ())
  verified : env.verify = .ok ()

/-- What decides whether a thread panics: whether the worker of a CPU can be pinned, and whether
`main` can spawn the thread of the reporter. -/
structure Threads where
  pinned : ℕ → Bool
  reporter : Bool

/-- Whether `main` gets past an event: it does not get past the spawn of a reporter that cannot be
spawned, nor past the join of a worker that cannot be pinned. -/
def Threads.passes (threads : Threads) : MainEvent Link → Bool
  | .spawnReporter => threads.reporter
  | .join cpuId => threads.pinned cpuId
  | _ => true

end SgCapture
