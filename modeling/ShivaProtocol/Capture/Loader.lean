import ShivaProtocol.Library.Logged
import ShivaProtocol.Common.SignalFrame

/-!
# Loading, attaching and detaching

`loadAndAttach` loads the kernel program, attaches it to an interface and builds the handles of the
rings; `detach` takes the program off the interface again.  What the operating system and the eBPF
library answer is an `Environment`; what the loader does to them is the log of its run.  An error
that comes after the attachment leaves the program attached (`LoadOutcome.unbuilt`).
-/

open SgCommon

namespace SgCapture

/-- An error: the texts of its chain, the outermost first. -/
structure Error where
  chain : List String
  deriving DecidableEq

/-- The error with a text before its chain. -/
def Error.wrap (text : String) (e : Error) : Error :=
  ⟨text :: e.chain⟩

/-- The result with a text before the chain of its error. -/
def context {α : Type} (text : String) (r : Except Error α) : Except Error α :=
  r.mapError (.wrap text)

/-- The value of an option, or an error with the given text. -/
def okOr {α : Type} (text : String) : Option α → Except Error α
  | some a => .ok a
  | none => .error ⟨[text]⟩

/-- How an XDP program is attached: in the driver or in the network stack. -/
inductive XdpMode where
  | drv
  | skb
  deriving DecidableEq

/-- What the calls of a run of `sg-capture` return: the arguments, whether the object file exists,
what reading it, loading it, looking up the program in it and verifying that gives, what attaching
gives in each mode, whether there is a map `SIGNAL_RING` and what converting it to a ring gives,
what spawning the consumer of a CPU and installing the signal handlers gives, what joining the
worker of a CPU gives, and what detaching a link gives. -/
structure Environment (Ring Link : Type) where
  args : List String
  objectExists : Bool
  readObject : Except Error Unit
  loadObject : Except Error Unit
  program : Option (Except Error Unit)
  verify : Except Error Unit
  attach : XdpMode → Except Error Link
  signalRing : Option (Except Error Ring)
  spawnConsumer : ℕ → Except Error Unit
  sigint : Except Error Unit
  sigterm : Except Error Unit
  join : ℕ → Except Error Unit
  detach : Link → Except Error Unit

/-- What a run of `sg-capture` does that outlives the call that does it. -/
inductive MainEvent (Link : Type) where
  | attach (link : Link)
  | spawnConsumer (cpuId : ℕ)
  | spawnWorker (cpuId : ℕ)
  | spawnReporter
  | storeShutdown
  | stopReporter
  | join (cpuId : ℕ)
  | detach (link : Link)
  deriving DecidableEq

/-- The attachment of a program: its interface and its link. -/
structure LoadedProbe (Link : Type) where
  iface : String
  linkId : Link

section Loader

variable {Ring Link : Type} (env : Environment Ring Link)

/-- The path of the object file. -/
def ebpfObjectPath : String := "target/bpfel-unknown-none/release/sg-ebpf"

/-- The name of the XDP program. -/
def xdpProgramName : String := "xdp_ingress"

/-- The XDP program of the loaded object. -/
def xdpProgram (notFound notXdp : String) : Except Error Unit := do
  let program ← okOr notFound env.program
  context notXdp program

/-- The handles of the rings: that of `SIGNAL_RING` in slot 0, and none in the other slots. -/
def buildRingHandles : Except Error (List (Option Ring)) := do
  let map ← okOr
    ("Critical: Map `SIGNAL_RING` not found in eBPF object. "
      ++ "Verify the name in sg-ebpf/src/maps.rs")
    env.signalRing
  let ring ← context "SIGNAL_RING exists but is not a RingBuf type" map
  return (List.replicate NCPU none).set 0 (some ring)

/-- Reads and loads the object file, and verifies its program. -/
def loadProgram : Except Error Unit := do
  okOr ("eBPF object not found at `" ++ ebpfObjectPath ++ "` [cite: 94]")
    (if env.objectExists then some () else none)
  context ("failed to read eBPF object `" ++ ebpfObjectPath ++ "` [cite: 95]") env.readObject
  context "Aya failed to parse eBPF ELF [cite: 96]" env.loadObject
  xdpProgram env ("program `" ++ xdpProgramName ++ "` not found [cite: 100]")
    ("program `" ++ xdpProgramName ++ "` is not an XDP program [cite: 101]")
  context "eBPF verifier rejected the program [cite: 102]" env.verify

/-- Attaches the program in the driver, or else in the network stack. -/
def attachProgram (iface : String) : Except Error Link :=
  match env.attach .drv with
  | .ok link => .ok link
  | .error _ =>
      context ("SKB_MODE attach also failed on `" ++ iface ++ "` [cite: 105]") (env.attach .skb)

/-- Loads and attaches the program, and builds the handles of the rings with `build`. -/
def loadAndAttach (build : Except Error (List (Option Ring))) (iface : String) :
    Logged Error (MainEvent Link) (LoadedProbe Link × List (Option Ring)) := do
  .attempt (loadProgram env)
  let linkId ← .attempt (attachProgram env iface)
  .emit (.attach linkId)
  let ringHandles ← .attempt build
  return ({ iface, linkId }, ringHandles)

/-- Takes the program off its interface. -/
def detach (probe : LoadedProbe Link) : Logged Error (MainEvent Link) Unit := do
  .emit (.detach probe.linkId)
  .attempt (xdpProgram env
    ("cannot find XDP program `" ++ xdpProgramName ++ "` for detach — interface `" ++ probe.iface
      ++ "` may be dirty")
    "program type mismatch during detach")
  .attempt (context
    ("XDP detach from `" ++ probe.iface ++ "` failed; interface may need manual cleanup "
      ++ "via `ip link set " ++ probe.iface ++ " xdp off`")
    (env.detach probe.linkId))

/-- How `loadAndAttach` can end: with an error before the attachment; with an error after it, as the
handles of the rings cannot be built; with the attachment and the handles. -/
inductive LoadOutcome (build : Except Error (List (Option Ring))) (iface : String) :
    Logged Error (MainEvent Link) (LoadedProbe Link × List (Option Ring)) → Prop where
  | unattached (e : Error) : LoadOutcome build iface ⟨.error e, []⟩
  | unbuilt {e : Error} (link : Link) : build = .error e →
      LoadOutcome build iface ⟨.error e, [.attach link]⟩
  | attached {ringHandles : List (Option Ring)} (link : Link) : build = .ok ringHandles →
      LoadOutcome build iface ⟨.ok (⟨iface, link⟩, ringHandles), [.attach link]⟩

theorem loadOutcome (build : Except Error (List (Option Ring))) (iface : String) :
  LoadOutcome build iface (loadAndAttach env build iface)
  := by
  apply Logged.attempt_bind LoadOutcome.unattached
  intro _ _
  apply Logged.attempt_bind LoadOutcome.unattached
  intro link _
  cases hbuild : build with
  | error e => apply LoadOutcome.unbuilt link rfl
  | ok ringHandles => apply LoadOutcome.attached link rfl

/-- `detach` is invoked on the link of the attachment, whether it succeeds or not. -/
theorem log_detach (probe : LoadedProbe Link) :
  (detach env probe).log = [.detach probe.linkId]
  := by
  rw [detach, Logged.log_emit_bind]
  congr 1
  apply Logged.attempt_bind (P := fun x => x.log = [])
  · intro _
    rfl
  · intro _ _
    rfl

end Loader

end SgCapture
