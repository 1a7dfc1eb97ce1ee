import ShivaProtocol.Ebpf.History
import ShivaProtocol.Ebpf.Ipv4
import ShivaProtocol.Ebpf.RateGate

/-!
# What the frames report

A frame is documented to hold the protocol and the TCP flags of its packet in `l4Flags`, and the
packets of its flow in `ppsDelta`.  The program takes the first from the upper half of a hash of
32 bits, so `l4Flags` is zero in every frame (`l4Flags_committed`), and never the documented value
(`not_encodesL4`).  It takes the second from a counter that all flows of a CPU share, so `ppsDelta`
depends on the other flows as soon as one of their packets precedes one of the flow
(`perFlow_iff`).
-/

open Bytes SgCommon

namespace SgEbpf

/-! ### The flags -/

/-- The frame has the protocol of the packet in bits 16 to 23 of `l4Flags`, and for a TCP packet
without IPv4 options the nine TCP flags in bits 0 to 8. -/
structure EncodesL4 (pkt : List UInt8) (frame : SignalFrame) : Prop where
  proto : pkt[23]? = some (frame.l4Flags >>> 16).toUInt8
  tcpFlags : pkt[23]? = some 6 → pkt[14]?.map (fun b : UInt8 => b &&& 0x0F) = some 5 →
    frame.l4Flags &&& 0x1FF = (ofBE UInt16 (slice pkt 46 2)).toUInt32 &&& 0x1FF

/-- The hash of a flow fits in 32 bits. -/
theorem flowHash_shiftRight (view : ProtoView) :
  (view.flowHash >>> 32).toUInt32 = 0
  := by
  have hlt : view.flowHash.toNat < 2 ^ 32 := UInt32.toNat_lt _
  have hzero : (view.flowHash >>> 32).toNat = 0 := by
    rw [UInt64.toNat_shiftRight]
    apply Nat.shiftRight_eq_zero
    apply hlt
  apply UInt32.toNat_inj.mp
  rw [UInt64.toNat_toUInt32, hzero]
  rfl

theorem flowHash_of_select {denyMap : DenyMap} {counters : PpsCounters} {view : ProtoView}
    {result : FilterResult} (h : (select denyMap counters view).1 = some result) :
  result.flowHash = view.flowHash
  := by
  rcases hs : select denyMap counters view with ⟨o, counters'⟩
  rw [hs] at h
  rcases select_cases hs with ⟨-, rfl, -⟩ | ⟨-, -, rfl, -⟩ | ⟨-, -, rfl, -⟩
  · cases h
  · cases h
  · obtain rfl := Option.some.inj h
    rfl

theorem l4Flags_buildFrame {view : ProtoView} {result : FilterResult}
    (h : result.flowHash = view.flowHash) (cpu : UInt32) (now : UInt64) :
  (buildFrame cpu view result now).l4Flags = 0
  := by
  rw [buildFrame, h]
  apply flowHash_shiftRight

/-- The frame of no packet has the protocol of the packet in its flags. -/
theorem not_encodesL4 {pkt : List UInt8} {view : ProtoView} {denyMap : DenyMap}
    {counters : PpsCounters} {result : FilterResult} (hview : inspect pkt = .ok (some view))
    (hresult : (select denyMap counters view).1 = some result) (cpu : UInt32) (now : UInt64) :
  ¬ EncodesL4 pkt (buildFrame cpu view result now)
  := by
  intro hencodes
  have hproto := hencodes.proto
  rw [l4Flags_buildFrame (flowHash_of_select hresult)] at hproto
  obtain ⟨⟨-, -, htcp | hudp⟩, -⟩ := accepted_of_inspect hview
  · rw [htcp] at hproto
    cases hproto
  · rw [hudp] at hproto
    cases hproto

theorem select_samplePacket :
  (select DenyMap.allowAll PpsCounters.zero (viewOf samplePacket le_length_samplePacket)).1
    = some ⟨(viewOf samplePacket le_length_samplePacket).flowHash, 0⟩
  := by
  rw [select_of_passed (denyCheck_allowAll _)]
  rfl

theorem not_encodesL4_samplePacket :
  ¬ EncodesL4 samplePacket
    (buildFrame 0 (viewOf samplePacket le_length_samplePacket)
      ⟨(viewOf samplePacket le_length_samplePacket).flowHash, 0⟩ 0)
  := not_encodesL4 (inspect_of_accepted accepted_samplePacket) select_samplePacket 0 0

/-- A packet that is accepted and selected, and whose frame has no protocol in its flags. -/
theorem exists_not_encodesL4 :
  ∃ pkt view denyMap counters result, inspect pkt = .ok (some view)
    ∧ (select denyMap counters view).1 = some result
    ∧ ¬ EncodesL4 pkt (buildFrame 0 view result 0)
  := by
  refine ⟨samplePacket, _, _, _, _, inspect_of_accepted accepted_samplePacket,
    select_samplePacket, ?_⟩
  intro hencodes
  have hproto := hencodes.proto
  rw [l4Flags_buildFrame rfl] at hproto
  revert hproto
  decide

/-- The flags of a running invocation are zero, or will be. -/
def Invocation.Flagless : Invocation → Prop
  | .idle => True
  | .selected view result => result.flowHash = view.flowHash
  | .stamped frame => frame.l4Flags = 0

/-- Every running invocation stays flagless, and so does every frame on the ring. -/
structure Flagless (k : Kernel) : Prop where
  running : ∀ cpu, (k.running cpu).Flagless
  committed : ∀ frame ∈ k.committed, frame.l4Flags = 0

theorem flagless_update {k : Kernel} (h : ∀ c, (k.running c).Flagless) (cpu : UInt32)
    {i : Invocation} (hi : i.Flagless) (c : UInt32) :
  (Function.update k.running cpu i c).Flagless
  := by
  by_cases hc : c = cpu
  · subst hc
    rw [Function.update_self]
    apply hi
  · rw [Function.update_of_ne hc]
    apply h

theorem flagless {k : Kernel} (hk : kernel.Reachable k) :
  Flagless k
  := by
  apply hk.invariant (P := Flagless)
  · constructor
    · intro cpu
      trivial
    · intro frame hframe
      cases hframe
  · intro k a k' _ ih h
    cases kernelStep_of_step h with
    | foreign _ _ => apply ih
    | denied _ _ _ => apply ih
    | limited _ _ _ _ => apply ih
    | accepted hacc _ _ _ _ =>
        constructor
        · apply flagless_update ih.running
          rfl
        · rw [Kernel.committed_accept]
          apply ih.committed
    | @stamp cpu view result hsel =>
        constructor
        · apply flagless_update ih.running
          have hhash := ih.running cpu
          rw [hsel] at hhash
          apply l4Flags_buildFrame hhash
        · apply ih.committed
    | @output cpu frame room hst =>
        constructor
        · apply flagless_update ih.running
          trivial
        · have hzero := ih.running cpu
          rw [hst] at hzero
          rw [Kernel.committed_emit]
          intro frame' hframe'
          rcases List.mem_append.mp hframe' with hold | hnew
          · apply ih.committed frame' hold
          · cases room with
            | true =>
                obtain rfl := List.mem_singleton.mp hnew
                apply hzero
            | false => cases hnew
    | tick _ => exact ⟨ih.running, ih.committed⟩

/-- In every run, the flags of every frame committed to the ring are zero. -/
theorem l4Flags_committed {k : Kernel} (hk : kernel.Reachable k) {frame : SignalFrame}
    (h : frame ∈ k.committed) :
  frame.l4Flags = 0
  := (flagless hk).committed frame h

/-! ### The packets of a flow -/

/-- The 5-tuple of a packet. -/
structure FiveTuple where
  srcIp : UInt32
  dstIp : UInt32
  srcPort : UInt16
  dstPort : UInt16
  proto : UInt8
  deriving DecidableEq

/-- The 5-tuple a view names. -/
def ProtoView.fiveTuple (view : ProtoView) : FiveTuple where
  srcIp := view.srcIp
  dstIp := view.dstIp
  srcPort := view.srcPort
  dstPort := view.dstPort
  proto := view.proto

/-- Whether a packet belongs to a flow. -/
def Arrival.ofFlow (f : FiveTuple) (a : Arrival) : Bool :=
  a.view.fiveTuple = f

/-- The frames a CPU builds for the packets of a run, with their packets. -/
def framesOf (cpu : UInt32) (counters : PpsCounters) (as : List Arrival) :
    List (Arrival × SignalFrame) :=
  (as.zip (selectAll counters as)).filterMap fun (a, verdict) =>
    verdict.map fun result => (a, buildFrame cpu a.view result (.ofNat a.timeNs))

/-- The values of `ppsDelta` in the frames of a flow. -/
def deltas (f : FiveTuple) (cpu : UInt32) (counters : PpsCounters) (as : List Arrival) :
    List UInt32 :=
  ((framesOf cpu counters as).filter fun af => af.1.ofFlow f).map fun af => af.2.ppsDelta

/-- No packet of the run is denied or rate-limited. -/
def NoneRefused (counters : PpsCounters) (as : List Arrival) : Prop :=
  ∀ verdict ∈ selectAll counters as, verdict.isSome = true

instance (counters : PpsCounters) (as : List Arrival) : Decidable (NoneRefused counters as) :=
  inferInstanceAs (Decidable (∀ verdict ∈ selectAll counters as, verdict.isSome = true))

/-- Deleting the packets of all other flows leaves the deltas of a flow unchanged. -/
def PerFlow (f : FiveTuple) (cpu : UInt32) (counters : PpsCounters) (as : List Arrival) : Prop :=
  deltas f cpu counters (as.filter (Arrival.ofFlow f)) = deltas f cpu counters as

instance (f : FiveTuple) (cpu : UInt32) (counters : PpsCounters) (as : List Arrival) :
    Decidable (PerFlow f cpu counters as) :=
  inferInstanceAs (Decidable (_ = _))

/-- No packet of another flow precedes a packet of the flow. -/
def Leads (f : FiveTuple) (as : List Arrival) : Prop :=
  as.Pairwise fun a b => b.ofFlow f = true → a.ofFlow f = true

theorem noneRefused_cons {counters : PpsCounters} {a : Arrival} {as : List Arrival} :
  NoneRefused counters (a :: as)
    ↔ denyCheck a.denyMap a.view.flowHash = false ∧ counters.count < maxpps
      ∧ NoneRefused counters.advance as
  := by
  rw [NoneRefused, selectAll, List.forall_mem_cons]
  cases hdeny : denyCheck a.denyMap a.view.flowHash with
  | true =>
      rw [select_of_denied hdeny]
      simp
  | false =>
      rw [select_of_passed hdeny]
      split
      · simp_all
      · simp_all [NoneRefused]

/-- The frame of a packet that is not refused tells the value of the counter. -/
theorem framesOf_cons {counters : PpsCounters} {a : Arrival}
    (hpass : denyCheck a.denyMap a.view.flowHash = false) (hlt : counters.count < maxpps)
    (cpu : UInt32) (as : List Arrival) :
  framesOf cpu counters (a :: as)
    = (a, buildFrame cpu a.view ⟨a.view.flowHash, UInt32.ofNat counters.count⟩ (.ofNat a.timeNs))
      :: framesOf cpu counters.advance as
  := by
  rw [framesOf, selectAll, select_of_passed hpass, if_neg (not_le.mpr hlt)]
  rfl

theorem deltas_cons_ofFlow {f : FiveTuple} {counters : PpsCounters} {a : Arrival}
    (hpass : denyCheck a.denyMap a.view.flowHash = false) (hlt : counters.count < maxpps)
    (hf : a.ofFlow f = true) (cpu : UInt32) (as : List Arrival) :
  deltas f cpu counters (a :: as)
    = UInt32.ofNat counters.count :: deltas f cpu counters.advance as
  := by
  rw [deltas, framesOf_cons hpass hlt, List.filter_cons_of_pos (by exact hf)]
  rfl

theorem deltas_cons_other {f : FiveTuple} {counters : PpsCounters} {a : Arrival}
    (hpass : denyCheck a.denyMap a.view.flowHash = false) (hlt : counters.count < maxpps)
    (hf : ¬ a.ofFlow f = true) (cpu : UInt32) (as : List Arrival) :
  deltas f cpu counters (a :: as) = deltas f cpu counters.advance as
  := by
  rw [deltas, framesOf_cons hpass hlt, List.filter_cons_of_neg (by exact hf)]
  rfl

/-- Counters below the threshold are told apart by the deltas they give. -/
theorem ofNat_count_inj {counters counters' : PpsCounters} (h : counters.count < maxpps)
    (h' : counters'.count < maxpps) :
  UInt32.ofNat counters'.count = UInt32.ofNat counters.count ↔ counters'.count = counters.count
  := by
  rw [maxpps] at h h'
  rw [← UInt32.toNat_inj, UInt32.toNat_ofNat', UInt32.toNat_ofNat']
  omega

/-- A flow without packets comes first. -/
theorem leads_of_none {f : FiveTuple} {as : List Arrival} (h : ∀ a ∈ as, ¬ a.ofFlow f = true) :
  Leads f as
  := by
  apply List.pairwise_of_forall_mem_list
  intro a _ b hb hf
  apply absurd hf (h b hb)

/-- A flow gets the same deltas without the others exactly if it has no packets, or the counter
starts from the same value and no other flow comes first.  By induction on the run: the counter
without the other flows never exceeds the counter with them, and falls behind at the first packet
of another flow. -/
theorem deltas_filter_iff {f : FiveTuple} {cpu : UInt32} {counters counters' : PpsCounters}
    {as : List Arrival} (h : NoneRefused counters as) (hle : counters'.count ≤ counters.count) :
  deltas f cpu counters' (as.filter (Arrival.ofFlow f)) = deltas f cpu counters as
    ↔ (∀ a ∈ as, ¬ a.ofFlow f = true) ∨ (counters'.count = counters.count ∧ Leads f as)
  := by
  induction as generalizing counters counters' with
  | nil => simp [deltas, framesOf, selectAll]
  | cons a as ih =>
      obtain ⟨hpass, hlt, hrest⟩ := noneRefused_cons.mp h
      have hlt' : counters'.count < maxpps := by omega
      have hnext := count_advance hlt
      have hnext' := count_advance hlt'
      rw [Leads, List.pairwise_cons, ← Leads]
      by_cases hf : a.ofFlow f = true
      · have hle' : counters'.advance.count ≤ counters.advance.count := by omega
        rw [List.filter_cons_of_pos hf, deltas_cons_ofFlow hpass hlt' hf,
          deltas_cons_ofFlow hpass hlt hf, List.cons.injEq, ofNat_count_inj hlt hlt', ih hrest hle']
        constructor
        · rintro ⟨hcount, hnone | ⟨-, hleads⟩⟩
          · exact .inr ⟨hcount, fun _ _ _ => hf, leads_of_none hnone⟩
          · exact .inr ⟨hcount, fun _ _ _ => hf, hleads⟩
        · rintro (hnone | ⟨hcount, -, hleads⟩)
          · apply absurd hf (hnone a List.mem_cons_self)
          · exact ⟨hcount, .inr ⟨by omega, hleads⟩⟩
      · have hle' : counters'.count ≤ counters.advance.count := by omega
        rw [List.filter_cons_of_neg hf, deltas_cons_other hpass hlt hf, ih hrest hle']
        constructor
        · rintro (hnone | ⟨hcount, -⟩)
          · exact .inl (List.forall_mem_cons.mpr ⟨hf, hnone⟩)
          · omega
        · rintro (hnone | ⟨-, hfirst, -⟩)
          · exact .inl (List.forall_mem_cons.mp hnone).2
          · exact .inl fun b hb hb' => hf (hfirst b hb hb')

/-- Without refusals, the deltas of a flow do not depend on the other flows exactly if no packet
of another flow precedes a packet of the flow. -/
theorem perFlow_iff {counters : PpsCounters} {as : List Arrival} (h : NoneRefused counters as)
    (f : FiveTuple) (cpu : UInt32) :
  PerFlow f cpu counters as ↔ Leads f as
  := by
  rw [PerFlow, deltas_filter_iff h (le_refl _)]
  constructor
  · rintro (hnone | ⟨-, hleads⟩)
    · apply leads_of_none hnone
    · apply hleads
  · intro hleads
    exact .inr ⟨rfl, hleads⟩

/-- A packet of the flow of the sample packet, at a time. -/
def sampleArrival (timeNs : ℕ) : Arrival :=
  ⟨timeNs, DenyMap.allowAll, viewOf samplePacket le_length_samplePacket⟩

/-- A packet of the flow in the opposite direction. -/
def replyPacket : List UInt8 :=
  slice samplePacket 6 6 ++ slice samplePacket 0 6 ++ slice samplePacket 12 14
    ++ slice samplePacket 30 4 ++ slice samplePacket 26 4 ++ slice samplePacket 36 2
    ++ slice samplePacket 34 2 ++ slice samplePacket 38 16

theorem accepted_replyPacket :
  Accepted replyPacket
  := by decide

theorem le_length_replyPacket :
  54 ≤ replyPacket.length
  := accepted_replyPacket.1

/-- A packet, a reply to it, and a second packet. -/
def conversation : List Arrival :=
  [sampleArrival 0, ⟨1, DenyMap.allowAll, viewOf replyPacket le_length_replyPacket⟩,
    sampleArrival 2]

theorem perFlow_sampleArrival :
  NoneRefused PpsCounters.zero [sampleArrival 0]
    ∧ PerFlow (sampleArrival 0).view.fiveTuple 0 PpsCounters.zero [sampleArrival 0]
  := by
  have hrefused : NoneRefused PpsCounters.zero [sampleArrival 0] := by
    apply noneRefused_cons.mpr
    exact ⟨denyCheck_allowAll _, by decide, fun _ h => by cases h⟩
  exact ⟨hrefused, (perFlow_iff hrefused _ 0).mpr (List.pairwise_singleton _ _)⟩

/-- In a conversation of two flows, the reply changes the delta of the packet after it. -/
theorem perFlow_conversation :
  ∃ as f, NoneRefused PpsCounters.zero as ∧ ¬ PerFlow f 0 PpsCounters.zero as
  := by
  use conversation, (sampleArrival 0).view.fiveTuple
  constructor
  · decide +kernel
  · decide +kernel

end SgEbpf
