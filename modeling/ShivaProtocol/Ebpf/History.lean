import Mathlib.Data.FinEnum
import Mathlib.Data.Fintype.Card
import ShivaProtocol.Ebpf.Kernel

/-!
# Histories of the kernel

The frames committed to the ring, the frames lost because the ring had no room, and the packets
selected, as the history of a run tells them.  The ring holds the bytes of the frames committed
(`ring_eq`), and every packet selected is in exactly one of three places: its invocation is still
running, its frame is committed, or its frame is lost (`selected_accounting`).
-/

open SgCommon

namespace SgEbpf

/-- The frame an event commits to the ring. -/
def KernelEvent.committed : KernelEvent → Option SignalFrame
  | .output _ frame true => some frame
  | _ => none

/-- Whether an event is an output for which the ring had no room. -/
def KernelEvent.lost : KernelEvent → Bool
  | .output _ _ false => true
  | _ => false

/-- Whether an event is the selection of a packet. -/
def KernelEvent.isSelected : KernelEvent → Bool
  | .selected _ _ => true
  | _ => false

namespace Kernel

/-- The frames committed to the ring, in commit order. -/
def committed (k : Kernel) : List SignalFrame :=
  k.history.filterMap KernelEvent.committed

/-- The number of frames lost because the ring had no room. -/
def lost (k : Kernel) : ℕ :=
  k.history.countP KernelEvent.lost

/-- The number of packets selected. -/
def selected (k : Kernel) : ℕ :=
  k.history.countP KernelEvent.isSelected

/-- The CPUs whose invocation is between its selection and its output. -/
def inFlight (k : Kernel) : Finset UInt32 :=
  {cpu | (k.running cpu).busy = true}

theorem committed_accept (k : Kernel) (cpu : UInt32) (counters : PpsCounters) (view : ProtoView)
    (result : FilterResult) :
  (k.accept cpu counters view result).committed = k.committed
  := by simp [committed, accept, KernelEvent.committed]

theorem committed_emit (k : Kernel) (cpu : UInt32) (frame : SignalFrame) (room : Bool) :
  (k.emit cpu frame room).committed = k.committed ++ (if room then [frame] else [])
  := by cases room <;> simp [committed, emit, ringOutput, KernelEvent.committed]

theorem lost_accept (k : Kernel) (cpu : UInt32) (counters : PpsCounters) (view : ProtoView)
    (result : FilterResult) :
  (k.accept cpu counters view result).lost = k.lost
  := by simp [lost, accept, KernelEvent.lost]

theorem lost_emit (k : Kernel) (cpu : UInt32) (frame : SignalFrame) (room : Bool) :
  (k.emit cpu frame room).lost = k.lost + (if room then 0 else 1)
  := by cases room <;> simp [lost, emit, ringOutput, KernelEvent.lost]

theorem selected_accept (k : Kernel) (cpu : UInt32) (counters : PpsCounters) (view : ProtoView)
    (result : FilterResult) :
  (k.accept cpu counters view result).selected = k.selected + 1
  := by simp [selected, accept, KernelEvent.isSelected]

theorem selected_emit (k : Kernel) (cpu : UInt32) (frame : SignalFrame) (room : Bool) :
  (k.emit cpu frame room).selected = k.selected
  := by simp [selected, emit, KernelEvent.isSelected]

end Kernel

/-- The ring holds the bytes of the frames committed, in commit order. -/
theorem ring_eq {k : Kernel} (hk : kernel.Reachable k) :
  k.ring = k.committed.map SignalFrame.bytes
  := by
  apply hk.invariant (P := fun k => k.ring = k.committed.map SignalFrame.bytes)
  · rfl
  · intro k a k' _ ih h
    cases kernelStep_of_step h with
    | foreign _ _ => apply ih
    | denied _ _ _ => apply ih
    | limited _ _ _ _ => apply ih
    | accepted _ _ _ _ _ =>
        rw [Kernel.committed_accept]
        apply ih
    | stamp _ => apply ih
    | output room _ =>
        rw [Kernel.committed_emit, List.map_append, ← ih]
        cases room <;> simp [Kernel.emit, ringOutput]
    | tick _ => apply ih

/-! ### Accounting -/

/-- Whether an action is an output for which the ring has no room. -/
def KernelAction.isRefusal : KernelAction → Bool
  | .output _ false => true
  | _ => false

/-- Whether an action commits a frame. -/
def KernelAction.isCommit : KernelAction → Bool
  | .output _ true => true
  | _ => false

theorem length_committed_step {k k' : Kernel} {a : KernelAction}
    (h : kernel.step k a = some k') :
  k'.committed.length = k.committed.length + a.isCommit.toNat
  := by
  cases kernelStep_of_step h with
  | accepted _ _ _ _ _ => rw [Kernel.committed_accept]; rfl
  | output room _ =>
      rw [Kernel.committed_emit, List.length_append]
      cases room <;> rfl
  | _ => rfl

theorem lost_step {k k' : Kernel} {a : KernelAction} (h : kernel.step k a = some k') :
  k'.lost = k.lost + a.isRefusal.toNat
  := by
  cases kernelStep_of_step h with
  | accepted _ _ _ _ _ => apply Kernel.lost_accept
  | output room _ =>
      rw [Kernel.lost_emit]
      cases room <;> rfl
  | _ => rfl

/-- The frames lost in a run are the outputs for which the ring had no room. -/
theorem lost_run {as : List KernelAction} {k k' : Kernel} (h : kernel.run k as = some k') :
  k'.lost = k.lost + as.countP KernelAction.isRefusal
  := LTS.run_countP (fun _ _ _ => lost_step) h

/-- Marking a CPU as busy adds it to the CPUs in flight. -/
theorem inFlight_of_busy {k k' : Kernel} {cpu : UInt32} {i : Invocation} (hi : i.busy = true)
    (h : k'.running = Function.update k.running cpu i) :
  k'.inFlight = insert cpu k.inFlight
  := by
  ext c
  by_cases hc : c = cpu
  · subst hc
    simp [Kernel.inFlight, h, hi]
  · simp [Kernel.inFlight, h, hc]

/-- Marking a CPU as idle removes it from the CPUs in flight. -/
theorem inFlight_of_idle {k k' : Kernel} {cpu : UInt32}
    (h : k'.running = Function.update k.running cpu .idle) :
  k'.inFlight = k.inFlight.erase cpu
  := by
  ext c
  by_cases hc : c = cpu
  · subst hc
    simp [Kernel.inFlight, h, Invocation.busy]
  · simp [Kernel.inFlight, h, hc]

theorem mem_inFlight_iff (k : Kernel) (cpu : UInt32) :
  cpu ∈ k.inFlight ↔ (k.running cpu).busy = true
  := by simp [Kernel.inFlight]

theorem inFlight_init :
  Kernel.init.inFlight = ∅
  := by
  ext c
  simp [Kernel.inFlight, Kernel.init, Invocation.busy]

/-- Every packet selected is in flight, committed or lost. -/
theorem selected_accounting {k : Kernel} (hk : kernel.Reachable k) :
  k.selected = k.inFlight.card + k.committed.length + k.lost
  := by
  apply hk.invariant (P := fun k => k.selected = k.inFlight.card + k.committed.length + k.lost)
  · simp only [kernel]
    rw [inFlight_init, Finset.card_empty]
    rfl
  · intro k a k' _ ih h
    cases kernelStep_of_step h with
    | foreign _ _ => apply ih
    | denied _ _ _ => apply ih
    | limited _ _ _ _ => apply ih
    | @accepted cpu _ _ _ _ hidle _ _ _ =>
        have hnot : cpu ∉ k.inFlight := by simp [mem_inFlight_iff, hidle, Invocation.busy]
        rw [inFlight_of_busy rfl rfl, Finset.card_insert_of_notMem hnot, Kernel.committed_accept,
          Kernel.selected_accept, Kernel.lost_accept, ih]
        omega
    | @stamp cpu _ _ hsel =>
        have hmem : cpu ∈ k.inFlight := by simp [mem_inFlight_iff, hsel, Invocation.busy]
        rw [inFlight_of_busy rfl rfl, Finset.insert_eq_of_mem hmem]
        apply ih
    | @output cpu _ room hst =>
        have hmem : cpu ∈ k.inFlight := by simp [mem_inFlight_iff, hst, Invocation.busy]
        have hcard := Finset.card_erase_add_one hmem
        rw [inFlight_of_idle rfl, Kernel.committed_emit, Kernel.selected_emit, Kernel.lost_emit, ih]
        cases room <;> simp <;> omega
    | tick _ => apply ih

end SgEbpf
