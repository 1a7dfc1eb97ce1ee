import Mathlib.Logic.Function.Basic
import ShivaProtocol.Library.LTS
import ShivaProtocol.Ebpf.Filter

/-!
# The kernel program on many CPUs

`xdpIngress` is the program: it parses a packet, passes it through the filter, builds a frame and
outputs it to the ring.  Every CPU runs one invocation at a time, and invocations on different
CPUs interleave between the parsing and filtering of the packet, the reading of the clock, and
the output to the ring.  `kernel` is the transition system of these steps, and `KernelStep` says
what each of them can do.  The three steps of an invocation, taken in a row, are `xdpIngress`
(`run_invocation`).
-/

open SgCommon

namespace SgEbpf

/-- What an XDP program may tell the driver to do with a packet. -/
inductive XdpAction where
  | aborted
  | drop
  | pass
  | tx
  | redirect
  deriving DecidableEq, Repr

/-- The frame for a packet, built on a zeroed frame. -/
def buildFrame (cpuId : UInt32) (view : ProtoView) (result : FilterResult) (now : UInt64) :
    SignalFrame :=
  { SignalFrame.zeroed with
    flowHash := result.flowHash
    timestampNs := now
    l3Hdr := view.l3Hdr
    l4Flags := (result.flowHash >>> 32).toUInt32
    ppsDelta := result.ppsDelta
    cpuId := cpuId }

/-- Where an invocation of the program stands on a CPU. -/
inductive Invocation where
  | idle
  | selected (view : ProtoView) (result : FilterResult)
  | stamped (frame : SignalFrame)

/-- Whether an invocation is between its selection and its output. -/
def Invocation.busy : Invocation → Bool
  | .idle => false
  | _ => true

/-- What is remembered of a run: the packets selected, and the calls of `ringOutput` with their
results. -/
inductive KernelEvent where
  | selected (cpu : UInt32) (result : FilterResult)
  | output (cpu : UInt32) (frame : SignalFrame) (committed : Bool)

/-- The state of the kernel side: the rate counters and the running invocation of every CPU, the
clock, everything committed to the ring so far, and the history of the run. -/
structure Kernel where
  counters : UInt32 → PpsCounters
  running : UInt32 → Invocation
  clock : UInt64
  ring : List (List UInt8)
  history : List KernelEvent

/-- A packet arrives on a CPU, with the content of the deny map it meets; a CPU reads the clock;
a CPU outputs its frame, and the ring has room for it or not; time passes. -/
inductive KernelAction where
  | ingress (cpu : UInt32) (pkt : List UInt8) (denyMap : DenyMap)
  | stamp (cpu : UInt32)
  | output (cpu : UInt32) (room : Bool)
  | tick (now : UInt64)

namespace Kernel

/-- The kernel before the first packet. -/
def init : Kernel where
  counters _ := PpsCounters.zero
  running _ := .idle
  clock := 0
  ring := []
  history := []

/-- The kernel after the filter has accepted a packet on a CPU. -/
def accept (k : Kernel) (cpu : UInt32) (counters : PpsCounters) (view : ProtoView)
    (result : FilterResult) : Kernel :=
  { k with
    counters := Function.update k.counters cpu counters
    running := Function.update k.running cpu (.selected view result)
    history := k.history ++ [.selected cpu result] }

/-- The kernel after the filter has given its verdict on a packet. -/
def settle (k : Kernel) (cpu : UInt32) (view : ProtoView) :
    Option FilterResult × PpsCounters → Kernel
  | (none, counters) => { k with counters := Function.update k.counters cpu counters }
  | (some result, counters) => k.accept cpu counters view result

/-- The kernel after a CPU has built its frame. -/
def prepare (k : Kernel) (cpu : UInt32) (frame : SignalFrame) : Kernel :=
  { k with running := Function.update k.running cpu (.stamped frame) }

/-- The kernel after a CPU has outputted its frame. -/
def emit (k : Kernel) (cpu : UInt32) (frame : SignalFrame) (room : Bool) : Kernel :=
  { k with
    running := Function.update k.running cpu .idle
    ring := (ringOutput k.ring frame room).1
    history := k.history ++ [.output cpu frame (ringOutput k.ring frame room).2] }

/-- The state after an action, if it is enabled. -/
def step (k : Kernel) : KernelAction → Option Kernel
  | .ingress cpu pkt denyMap =>
      match k.running cpu, inspect pkt with
      | .idle, .ok none => some k
      | .idle, .ok (some view) =>
          some (k.settle cpu view (select denyMap (k.counters cpu) view))
      | _, _ => none
  | .stamp cpu =>
      match k.running cpu with
      | .selected view result => some (k.prepare cpu (buildFrame cpu view result k.clock))
      | _ => none
  | .output cpu room =>
      match k.running cpu with
      | .stamped frame => some (k.emit cpu frame room)
      | _ => none
  | .tick now => if k.clock ≤ now then some { k with clock := now } else none

section Fields

variable (k : Kernel) (cpu : UInt32) (counters : PpsCounters) (view : ProtoView)
  (result : FilterResult) (frame : SignalFrame) (room : Bool)

@[simp]
theorem accept_counters :
  (k.accept cpu counters view result).counters = Function.update k.counters cpu counters
  := rfl

@[simp]
theorem accept_running :
  (k.accept cpu counters view result).running
    = Function.update k.running cpu (.selected view result)
  := rfl

@[simp]
theorem accept_clock :
  (k.accept cpu counters view result).clock = k.clock
  := rfl

@[simp]
theorem accept_ring :
  (k.accept cpu counters view result).ring = k.ring
  := rfl

@[simp]
theorem accept_history :
  (k.accept cpu counters view result).history = k.history ++ [.selected cpu result]
  := rfl

@[simp]
theorem prepare_counters :
  (k.prepare cpu frame).counters = k.counters
  := rfl

@[simp]
theorem prepare_running :
  (k.prepare cpu frame).running = Function.update k.running cpu (.stamped frame)
  := rfl

@[simp]
theorem prepare_clock :
  (k.prepare cpu frame).clock = k.clock
  := rfl

@[simp]
theorem prepare_ring :
  (k.prepare cpu frame).ring = k.ring
  := rfl

@[simp]
theorem prepare_history :
  (k.prepare cpu frame).history = k.history
  := rfl

@[simp]
theorem emit_counters :
  (k.emit cpu frame room).counters = k.counters
  := rfl

@[simp]
theorem emit_running :
  (k.emit cpu frame room).running = Function.update k.running cpu .idle
  := rfl

@[simp]
theorem emit_clock :
  (k.emit cpu frame room).clock = k.clock
  := rfl

@[simp]
theorem emit_history :
  (k.emit cpu frame room).history = k.history ++ [.output cpu frame room]
  := by cases room <;> rfl

end Fields

end Kernel

/-- The kernel program on all CPUs, as a transition system. -/
def kernel : LTS Kernel KernelAction where
  init := Kernel.init
  step := Kernel.step

/-- What a step of the kernel can do. -/
inductive KernelStep (k : Kernel) : KernelAction → Kernel → Prop where
  /-- The parser rejects the packet. -/
  | foreign {cpu pkt denyMap} : k.running cpu = .idle → ¬ Accepted pkt →
      KernelStep k (.ingress cpu pkt denyMap) k
  /-- The deny check refuses the packet. -/
  | denied {cpu pkt denyMap} (h : Accepted pkt) : k.running cpu = .idle →
      denyCheck denyMap (viewOf pkt h.1).flowHash = true →
      KernelStep k (.ingress cpu pkt denyMap) k
  /-- The rate gate refuses the packet. -/
  | limited {cpu pkt denyMap} (h : Accepted pkt) : k.running cpu = .idle →
      denyCheck denyMap (viewOf pkt h.1).flowHash = false → maxpps ≤ (k.counters cpu).count →
      KernelStep k (.ingress cpu pkt denyMap) k
  /-- The filter accepts the packet. -/
  | accepted {cpu pkt denyMap counters} (h : Accepted pkt) : k.running cpu = .idle →
      denyCheck denyMap (viewOf pkt h.1).flowHash = false → (k.counters cpu).count < maxpps →
      counters.count = (k.counters cpu).count + 1 →
      KernelStep k (.ingress cpu pkt denyMap)
        (k.accept cpu counters (viewOf pkt h.1)
          ⟨(viewOf pkt h.1).flowHash, UInt32.ofNat (k.counters cpu).count⟩)
  | stamp {cpu view result} : k.running cpu = .selected view result →
      KernelStep k (.stamp cpu) (k.prepare cpu (buildFrame cpu view result k.clock))
  | output {cpu frame} (room : Bool) : k.running cpu = .stamped frame →
      KernelStep k (.output cpu room) (k.emit cpu frame room)
  | tick {now} : k.clock ≤ now → KernelStep k (.tick now) { k with clock := now }

/-- A packet the parser accepts, on an idle CPU, is refused by the deny check, refused by the
rate gate, or accepted. -/
theorem kernelStep_of_accepted {k : Kernel} {cpu : UInt32} {pkt : List UInt8}
    {denyMap : DenyMap} (hidle : k.running cpu = .idle) (h : Accepted pkt) :
  KernelStep k (.ingress cpu pkt denyMap)
    (k.settle cpu (viewOf pkt h.1) (select denyMap (k.counters cpu) (viewOf pkt h.1)))
  := by
  rcases hs : select denyMap (k.counters cpu) (viewOf pkt h.1) with ⟨o, counters⟩
  rcases select_cases hs with ⟨hdeny, rfl, rfl⟩ | ⟨hpass, hfull, rfl, rfl⟩ |
    ⟨hpass, hlt, rfl, hcount⟩
  · rw [Kernel.settle, Function.update_eq_self]
    apply KernelStep.denied h hidle hdeny
  · rw [Kernel.settle, Function.update_eq_self]
    apply KernelStep.limited h hidle hpass hfull
  · apply KernelStep.accepted h hidle hpass hlt hcount

/-- Every step of the kernel is one of `KernelStep`. -/
theorem kernelStep_of_step {k k' : Kernel} {a : KernelAction} (h : kernel.step k a = some k') :
  KernelStep k a k'
  := by
  cases a with
  | ingress cpu pkt denyMap =>
      simp only [kernel, Kernel.step, inspect_eq] at h
      by_cases hacc : Accepted pkt
      · simp only [dif_pos hacc] at h
        split at h
        · simp_all
        · rename_i hidle hview
          obtain rfl := Option.some.inj h
          obtain rfl := Option.some.inj (Except.ok.inj hview)
          apply kernelStep_of_accepted hidle hacc
        · cases h
      · simp only [dif_neg hacc] at h
        split at h
        · rename_i hidle _
          obtain rfl := Option.some.inj h
          apply KernelStep.foreign hidle hacc
        · simp_all
        · cases h
  | stamp cpu =>
      simp only [kernel, Kernel.step] at h
      split at h
      · rename_i hsel
        obtain rfl := Option.some.inj h
        apply KernelStep.stamp hsel
      · cases h
  | output cpu room =>
      simp only [kernel, Kernel.step] at h
      split at h
      · rename_i hst
        obtain rfl := Option.some.inj h
        apply KernelStep.output room hst
      · cases h
  | tick now =>
      simp only [kernel, Kernel.step] at h
      split at h
      · rename_i hle
        obtain rfl := Option.some.inj h
        apply KernelStep.tick hle
      · cases h

/-! ### Packets that pass -/

/-- On an idle CPU with a counter below the threshold, a packet that passes the deny check is
accepted. -/
theorem step_ingress {k : Kernel} {cpu : UInt32} {pkt : List UInt8} {denyMap : DenyMap}
    (h : Accepted pkt) (hidle : k.running cpu = .idle)
    (hpass : denyCheck denyMap (viewOf pkt h.1).flowHash = false)
    (hlt : (k.counters cpu).count < maxpps) :
  kernel.step k (.ingress cpu pkt denyMap)
    = some (k.accept cpu (k.counters cpu).advance (viewOf pkt h.1)
      ⟨(viewOf pkt h.1).flowHash, UInt32.ofNat (k.counters cpu).count⟩)
  := by
  have hstep : kernel.step k (.ingress cpu pkt denyMap)
      = some (k.settle cpu (viewOf pkt h.1)
        (select denyMap (k.counters cpu) (viewOf pkt h.1))) := by
    simp only [kernel, Kernel.step, inspect_eq, hidle, dif_pos h]
  rw [hstep, select_of_passed hpass, if_neg (not_le.mpr hlt), Kernel.settle]

theorem step_stamp {k : Kernel} {cpu : UInt32} {view : ProtoView} {result : FilterResult}
    (h : k.running cpu = .selected view result) :
  kernel.step k (.stamp cpu) = some (k.prepare cpu (buildFrame cpu view result k.clock))
  := by simp only [kernel, Kernel.step, h]

theorem step_output {k : Kernel} {cpu : UInt32} {frame : SignalFrame}
    (h : k.running cpu = .stamped frame) (room : Bool) :
  kernel.step k (.output cpu room) = some (k.emit cpu frame room)
  := by simp only [kernel, Kernel.step, h]

theorem step_tick {k : Kernel} {now : UInt64} (h : k.clock ≤ now) :
  kernel.step k (.tick now) = some { k with clock := now }
  := if_pos h

/-! ### One invocation -/

/-- What the program does after the verdict of the filter. -/
def finish (cpu : UInt32) (room : Bool) (k : Kernel) : XdpAction × Kernel :=
  match k.running cpu with
  | .selected view result => (.pass, k.emit cpu (buildFrame cpu view result k.clock) room)
  | _ => (.pass, k)

/-- The program on one packet, run without interruption: what it returns, and the kernel after
it. -/
def xdpIngress (k : Kernel) (cpu : UInt32) (denyMap : DenyMap) (room : Bool)
    (pkt : List UInt8) : Except OutOfBounds (XdpAction × Kernel) := do
  let some view ← inspect pkt | return (.pass, k)
  return finish cpu room (k.settle cpu view (select denyMap (k.counters cpu) view))

/-- The steps of one invocation, taken in a row. -/
def invocation (cpu : UInt32) (denyMap : DenyMap) (room : Bool) (pkt : List UInt8) :
    List KernelAction :=
  [.ingress cpu pkt denyMap, .stamp cpu, .output cpu room]

/-- The frame of a packet that is accepted now. -/
def Kernel.frameOf (k : Kernel) (cpu : UInt32) (view : ProtoView) : SignalFrame :=
  buildFrame cpu view ⟨view.flowHash, UInt32.ofNat (k.counters cpu).count⟩ k.clock

/-- The kernel after an invocation on a packet that passes. -/
def Kernel.invoke (k : Kernel) (cpu : UInt32) (view : ProtoView) (room : Bool) : Kernel :=
  let result : FilterResult := ⟨view.flowHash, UInt32.ofNat (k.counters cpu).count⟩
  ((k.accept cpu (k.counters cpu).advance view result).prepare cpu (k.frameOf cpu view)).emit cpu
    (k.frameOf cpu view) room

/-- An invocation on a packet that passes. -/
theorem run_invocation_of_passed {k : Kernel} {cpu : UInt32} {pkt : List UInt8}
    {denyMap : DenyMap} (h : Accepted pkt) (hidle : k.running cpu = .idle)
    (hpass : denyCheck denyMap (viewOf pkt h.1).flowHash = false)
    (hlt : (k.counters cpu).count < maxpps) (room : Bool) :
  kernel.run k (invocation cpu denyMap room pkt) = some (k.invoke cpu (viewOf pkt h.1) room)
  := by
  rw [invocation, LTS.run_cons, step_ingress h hidle hpass hlt, Option.bind_some, LTS.run_cons,
    step_stamp (Function.update_self cpu _ k.running), Option.bind_some, LTS.run_cons,
    step_output (Function.update_self cpu _ _), Option.bind_some, LTS.run_nil]
  rfl

theorem invoke_running {k : Kernel} {cpu : UInt32} (hidle : k.running cpu = .idle)
    (view : ProtoView) (room : Bool) :
  (k.invoke cpu view room).running = k.running
  := by simp [Kernel.invoke, ← hidle]

theorem invoke_counters (k : Kernel) (cpu : UInt32) (view : ProtoView) (room : Bool) :
  (k.invoke cpu view room).counters
    = Function.update k.counters cpu (k.counters cpu).advance
  := rfl

/-- The kernel after invocations on packets that pass, one after the other. -/
def Kernel.invokeAll (k : Kernel) (cpu : UInt32) (view : ProtoView) (rooms : List Bool) : Kernel :=
  rooms.foldl (fun k room => k.invoke cpu view room) k

/-- Invocations on copies of a packet that passes, one after the other on an idle CPU. -/
theorem run_invocations {cpu : UInt32} {pkt : List UInt8} {denyMap : DenyMap} (h : Accepted pkt)
    (hpass : denyCheck denyMap (viewOf pkt h.1).flowHash = false) {rooms : List Bool}
    {k : Kernel} (hidle : k.running cpu = .idle)
    (hlt : (k.counters cpu).count + rooms.length ≤ maxpps) :
  kernel.run k (rooms.flatMap fun room => invocation cpu denyMap room pkt)
    = some (k.invokeAll cpu (viewOf pkt h.1) rooms)
  := by
  induction rooms generalizing k with
  | nil => rfl
  | cons room rooms ih =>
      rw [List.length_cons] at hlt
      have hfirst : (k.counters cpu).count < maxpps := by omega
      rw [List.flatMap_cons, LTS.run_append, run_invocation_of_passed h hidle hpass hfirst,
        Option.bind_some, ih]
      · rfl
      · rw [invoke_running hidle, hidle]
      · rw [invoke_counters, Function.update_self, count_advance hfirst]
        omega

theorem invokeAll_running {cpu : UInt32} (view : ProtoView) {rooms : List Bool} {k : Kernel}
    (hidle : k.running cpu = .idle) :
  (k.invokeAll cpu view rooms).running = k.running
  := by
  induction rooms generalizing k with
  | nil => rfl
  | cons room rooms ih =>
      have hfirst : (k.invoke cpu view room).running = k.running := invoke_running hidle view room
      have hrest := ih (k := k.invoke cpu view room) (by rw [hfirst, hidle])
      apply hrest.trans hfirst

/-- Reading the clock and outputting the frame is what the program does on a selected packet. -/
theorem run_finish {k : Kernel} {cpu : UInt32} {view : ProtoView} {result : FilterResult}
    (h : k.running cpu = .selected view result) (room : Bool) :
  ∃ k', finish cpu room k = (.pass, k') ∧ k'.running cpu = .idle
    ∧ kernel.run k [.stamp cpu, .output cpu room] = some k'
  := by
  use k.emit cpu (buildFrame cpu view result k.clock) room
  and_intros
  · simp only [finish, h]
  · apply Function.update_self
  · simp [kernel, Kernel.step, h, Kernel.emit]

/-- The program passes every packet on, and on an idle CPU it does what one invocation does: one
step if the packet is not selected, three steps otherwise. -/
theorem run_invocation {k : Kernel} {cpu : UInt32} (hidle : k.running cpu = .idle)
    (denyMap : DenyMap) (room : Bool) (pkt : List UInt8) :
  ∃ k', xdpIngress k cpu denyMap room pkt = .ok (.pass, k') ∧ k'.running cpu = .idle
    ∧ (kernel.run k ((invocation cpu denyMap room pkt).take 1) = some k'
      ∨ kernel.run k (invocation cpu denyMap room pkt) = some k')
  := by
  by_cases hacc : Accepted pkt
  · have hstep : kernel.step k (.ingress cpu pkt denyMap)
        = some (k.settle cpu (viewOf pkt hacc.1)
          (select denyMap (k.counters cpu) (viewOf pkt hacc.1))) := by
      simp only [kernel, Kernel.step, inspect_eq, hidle, dif_pos hacc]
    have hprog : xdpIngress k cpu denyMap room pkt
        = .ok (finish cpu room (k.settle cpu (viewOf pkt hacc.1)
          (select denyMap (k.counters cpu) (viewOf pkt hacc.1)))) := by
      rw [xdpIngress, inspect_eq, dif_pos hacc]
      rfl
    rcases hs : select denyMap (k.counters cpu) (viewOf pkt hacc.1) with ⟨_ | result, counters⟩
    · rw [hs, Kernel.settle] at hstep hprog
      use { k with counters := Function.update k.counters cpu counters }
      and_intros
      · simp only [hprog, finish, hidle]
      · apply hidle
      · left
        rw [invocation, List.take_succ_cons, LTS.run_cons, hstep]
        rfl
    · rw [hs, Kernel.settle] at hstep hprog
      obtain ⟨k', hfinish, hidle', hrun⟩ := run_finish (k := k.accept cpu counters _ result)
        (Function.update_self cpu _ k.running) room
      use k'
      rw [hprog, hfinish, invocation, LTS.run_cons, hstep]
      exact ⟨rfl, hidle', Or.inr hrun⟩
  · use k
    have hstep : kernel.step k (.ingress cpu pkt denyMap) = some k := by
      simp only [kernel, Kernel.step, inspect_eq, hidle, dif_neg hacc]
    and_intros
    · rw [xdpIngress, inspect_eq, dif_neg hacc]
      rfl
    · apply hidle
    · left
      rw [invocation, List.take_succ_cons, LTS.run_cons, hstep]
      rfl

end SgEbpf
