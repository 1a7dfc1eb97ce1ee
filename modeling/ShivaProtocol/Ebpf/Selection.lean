import ShivaProtocol.Ebpf.Sequence

/-!
# The packets behind the frames

The frames a CPU outputs are those of the packets that the filter has selected on the CPU, in order
and without gaps: the frame with the number `n` describes the packet number `n` (`exists_packet`).
Apart from a packet whose invocation is under way, there are as many packets as frames (`traced`).
-/

open SgCommon

namespace SgEbpf

/-- The parser accepts a packet, and the deny check passes it. -/
def Passes (denyMap : DenyMap) (pkt : List UInt8) : Prop :=
  ∃ h : Accepted pkt, denyCheck denyMap (viewOf pkt h.1).flowHash = false

instance Passes.decidable (denyMap : DenyMap) (pkt : List UInt8) : Decidable (Passes denyMap pkt) :=
  inferInstanceAs (Decidable (∃ _ : Accepted pkt, _))

/-- The packet that a step selects on a CPU: it passes, and the counter of the CPU is below the
threshold. -/
def selectedBy (c : UInt32) : Kernel × KernelAction → Option (List UInt8)
  | (k, .ingress cpu pkt denyMap) =>
      if cpu = c ∧ Passes denyMap pkt ∧ (k.counters c).count < maxpps then some pkt else none
  | _ => none

/-- The packets that the steps of a run select on a CPU, in order. -/
def selectedOn (c : UInt32) (xs : List (Kernel × KernelAction)) : List (List UInt8) :=
  xs.filterMap (selectedBy c)

/-- A frame is that of a packet on a CPU. -/
def FrameOf (c : UInt32) (pkt : List UInt8) (frame : SignalFrame) : Prop :=
  ∃ (h : Accepted pkt) (ppsDelta : UInt32) (now : UInt64),
    frame = buildFrame c (viewOf pkt h.1) ⟨(viewOf pkt h.1).flowHash, ppsDelta⟩ now

/-- The packet an invocation is about. -/
inductive InHand (c : UInt32) : Invocation → List (List UInt8) → Prop where
  | idle : InHand c .idle []
  | selected {pkt} (h : Accepted pkt) (ppsDelta : UInt32) :
      InHand c (.selected (viewOf pkt h.1) ⟨(viewOf pkt h.1).flowHash, ppsDelta⟩) [pkt]
  | stamped {pkt frame} : FrameOf c pkt frame → InHand c (.stamped frame) [pkt]

/-- Up to the packet of the running invocation, the packets selected on a CPU are those of its
outputs. -/
def Traced (c : UInt32) (xs : List (Kernel × KernelAction)) (k : Kernel) : Prop :=
  ∃ done rest, selectedOn c xs = done ++ rest
    ∧ List.Forall₂ (fun o pkt => FrameOf c pkt o.1) (outputsOn c k.history) done
    ∧ InHand c (k.running c) rest

section Step

variable {c : UInt32} {xs : List (Kernel × KernelAction)} {k k' : Kernel} {a : KernelAction}

theorem selectedOn_concat (c : UInt32) (xs : List (Kernel × KernelAction))
    (x : Kernel × KernelAction) :
  selectedOn c (xs ++ [x]) = selectedOn c xs ++ (selectedBy c x).toList
  := by
  rw [selectedOn, List.filterMap_append, selectedOn]
  cases hx : selectedBy c x <;> simp [hx]

/-- A step that selects nothing on a CPU, and leaves its invocation and its outputs alone. -/
theorem Traced.frame (h : Traced c xs k) (hselected : selectedBy c (k, a) = none)
    (hrunning : k'.running c = k.running c)
    (houtputs : outputsOn c k'.history = outputsOn c k.history) :
  Traced c (xs ++ [(k, a)]) k'
  := by
  obtain ⟨done, rest, hsplit, hdone, hrest⟩ := h
  use done, rest
  rw [selectedOn_concat, hselected, Option.toList_none, List.append_nil, hrunning, houtputs]
  exact ⟨hsplit, hdone, hrest⟩

/-- A CPU without a packet in hand has one output for every packet selected. -/
theorem Traced.of_idle (h : Traced c xs k) (hidle : k.running c = .idle) :
  List.Forall₂ (fun o pkt => FrameOf c pkt o.1) (outputsOn c k.history) (selectedOn c xs)
  := by
  obtain ⟨done, rest, hsplit, hdone, hrest⟩ := h
  rw [hidle] at hrest
  cases hrest
  rw [hsplit, List.append_nil]
  apply hdone

/-- Selecting a packet. -/
theorem Traced.accept {cpu : UInt32} {pkt : List UInt8} {denyMap : DenyMap}
    {counters : PpsCounters} (h : Traced c xs k) (hacc : Accepted pkt)
    (hidle : k.running cpu = .idle) (hpass : denyCheck denyMap (viewOf pkt hacc.1).flowHash = false)
    (hlt : (k.counters cpu).count < maxpps) (ppsDelta : UInt32) :
  Traced c (xs ++ [(k, .ingress cpu pkt denyMap)])
    (k.accept cpu counters (viewOf pkt hacc.1) ⟨(viewOf pkt hacc.1).flowHash, ppsDelta⟩)
  := by
  by_cases hc : cpu = c
  · subst hc
    have hselected : selectedBy cpu (k, .ingress cpu pkt denyMap) = some pkt :=
      if_pos ⟨rfl, ⟨hacc, hpass⟩, hlt⟩
    use selectedOn cpu xs, [pkt]
    rw [selectedOn_concat, hselected, outputsOn_accept, Kernel.accept_running, Function.update_self]
    exact ⟨rfl, h.of_idle hidle, .selected hacc ppsDelta⟩
  · apply h.frame
    · apply if_neg
      rintro ⟨heq, -⟩
      apply hc heq
    · apply Function.update_of_ne (Ne.symm hc)
    · apply outputsOn_accept

/-- Reading the clock. -/
theorem Traced.stamp {cpu : UInt32} {view : ProtoView} {result : FilterResult} (h : Traced c xs k)
    (hsel : k.running cpu = .selected view result) :
  Traced c (xs ++ [(k, .stamp cpu)]) (k.prepare cpu (buildFrame cpu view result k.clock))
  := by
  by_cases hc : cpu = c
  · subst hc
    obtain ⟨done, rest, hsplit, hdone, hrest⟩ := h
    rw [hsel] at hrest
    cases hrest with
    | @selected pkt hacc ppsDelta =>
        use done, [pkt]
        rw [selectedOn_concat, hsplit, Kernel.prepare_running, Function.update_self]
        exact ⟨List.append_nil _, hdone, .stamped ⟨hacc, ppsDelta, k.clock, rfl⟩⟩
  · apply h.frame rfl
    · apply Function.update_of_ne (Ne.symm hc)
    · rfl

/-- Outputting the frame. -/
theorem Traced.emit {cpu : UInt32} {frame : SignalFrame} (h : Traced c xs k)
    (hst : k.running cpu = .stamped frame) (room : Bool) :
  Traced c (xs ++ [(k, .output cpu room)]) (k.emit cpu frame room)
  := by
  by_cases hc : cpu = c
  · subst hc
    obtain ⟨done, rest, hsplit, hdone, hrest⟩ := h
    rw [hst] at hrest
    cases hrest with
    | @stamped pkt _ hframe =>
        use done ++ [pkt], []
        rw [selectedOn_concat, hsplit, outputsOn_emit_self, Kernel.emit_running,
          Function.update_self, List.append_nil]
        refine ⟨List.append_nil _, ?_, .idle⟩
        apply List.rel_append hdone
        exact .cons hframe .nil
  · apply h.frame rfl
    · apply Function.update_of_ne (Ne.symm hc)
    · apply outputsOn_emit_of_ne hc

end Step

theorem traced {as : List KernelAction} {k : Kernel} (h : kernel.run kernel.init as = some k)
    (c : UInt32) :
  Traced c (kernel.trace kernel.init as) k
  := by
  apply LTS.run_trace_invariant (P := Traced c) _ _ h
  · exact ⟨[], [], rfl, .nil, .idle⟩
  · intro as k a k' _ ih hst
    cases kernelStep_of_step hst with
    | foreign _ hnot =>
        apply ih.frame _ rfl rfl
        apply if_neg
        rintro ⟨-, ⟨hacc, -⟩, -⟩
        apply hnot hacc
    | denied hacc _ hdeny =>
        apply ih.frame _ rfl rfl
        apply if_neg
        rintro ⟨-, ⟨_, hpass⟩, -⟩
        cases hdeny.symm.trans hpass
    | limited hacc _ _ hfull =>
        apply ih.frame _ rfl rfl
        apply if_neg
        rintro ⟨rfl, -, hlt⟩
        apply Nat.not_lt.mpr hfull hlt
    | accepted hacc hidle hpass hlt _ => apply ih.accept hacc hidle hpass hlt
    | stamp hsel => apply ih.stamp hsel
    | output room hstamped => apply ih.emit hstamped
    | tick _ => apply ih.frame <;> rfl

/-- The frame of an output is that of the packet with its number. -/
theorem exists_packet {as : List KernelAction} {k : Kernel}
    (h : kernel.run kernel.init as = some k) {c : UInt32} {o : SignalFrame × Bool}
    (ho : o ∈ outputsOn c k.history) :
  ∃ pkt, (selectedOn c (kernel.trace kernel.init as))[sequenceNumber o]? = some pkt
    ∧ FrameOf c pkt o.1
  := by
  obtain ⟨done, rest, hsplit, hdone, -⟩ := traced h c
  obtain ⟨i, hi⟩ := List.getElem?_of_mem ho
  have hlt : i < done.length := by
    rw [← hdone.length_eq]
    apply (List.getElem?_eq_some_iff.mp hi).1
  have hnumber := (sequenced ⟨as, h⟩ c).numbered.number_getElem? hi
  use done[i]
  rw [hnumber, hsplit, List.getElem?_append_left hlt]
  constructor
  · apply List.getElem?_eq_getElem
  · obtain ⟨hi', hget⟩ := List.getElem?_eq_some_iff.mp hi
    rw [← hget]
    apply List.Forall₂.get hdone

end SgEbpf
