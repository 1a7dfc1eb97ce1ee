import ShivaProtocol.Ebpf.Selection

/-!
# The quota of a CPU

Which packets a CPU selects is decided by the packets that arrive on it and by the deny map alone,
neither by the other CPUs nor by the clock or the ring: they are the first `maxpps` packets that
pass (`selectedOn_eq`).  So the frame number `n` of a CPU is that of its passing packet number `n`,
and the packets that pass after the first `maxpps` have no frame (`quota`).
-/

open SgCommon

namespace SgEbpf

/-- The packet that an action brings to a CPU, if it passes. -/
def passing (c : UInt32) : KernelAction → Option (List UInt8)
  | .ingress cpu pkt denyMap => if cpu = c ∧ Passes denyMap pkt then some pkt else none
  | _ => none

/-- The packets that arrive on a CPU and pass, in order. -/
def passingOn (c : UInt32) (as : List KernelAction) : List (List UInt8) :=
  as.filterMap (passing c)

theorem passingOn_concat (c : UInt32) (as : List KernelAction) (a : KernelAction) :
  passingOn c (as ++ [a]) = passingOn c as ++ (passing c a).toList
  := by
  rw [passingOn, List.filterMap_append, passingOn]
  cases ha : passing c a <;> simp [ha]

/-- A CPU selects a packet that passes as long as its counter is below the threshold. -/
theorem selectedBy_eq (c : UInt32) (k : Kernel) (a : KernelAction) :
  selectedBy c (k, a) = if (k.counters c).count < maxpps then passing c a else none
  := by
  cases a with
  | ingress cpu pkt denyMap =>
      rw [selectedBy, passing]
      split <;> split <;> simp_all
  | _ => apply (ite_self none).symm

/-- There is a packet in hand exactly if an invocation is under way. -/
theorem InHand.length_eq {c : UInt32} {invocation : Invocation} {rest : List (List UInt8)}
    (h : InHand c invocation rest) :
  rest.length = if invocation.busy then 1 else 0
  := by
  cases h with
  | idle => rfl
  | selected _ _ => rfl
  | stamped _ => rfl

/-- The counter of a CPU is the number of the packets selected on it. -/
theorem length_selectedOn {as : List KernelAction} {k : Kernel}
    (h : kernel.run kernel.init as = some k) (c : UInt32) :
  (selectedOn c (kernel.trace kernel.init as)).length = (k.counters c).count
  := by
  obtain ⟨done, rest, hsplit, hdone, hrest⟩ := traced h c
  rw [hsplit, List.length_append, ← hdone.length_eq, hrest.length_eq]
  apply (sequenced ⟨as, h⟩ c).count.symm

/-- The packets selected on a CPU are the first that pass. -/
theorem selectedOn_eq {as : List KernelAction} {k : Kernel}
    (h : kernel.run kernel.init as = some k) (c : UInt32) :
  selectedOn c (kernel.trace kernel.init as) = (passingOn c as).take maxpps
  := by
  induction as using List.reverseRecOn generalizing k with
  | nil => rfl
  | append_singleton as a ih =>
      rw [LTS.run_append] at h
      obtain ⟨k', hk', -⟩ := Option.bind_eq_some_iff.mp h
      have hcount := length_selectedOn hk' c
      rw [ih hk', List.length_take] at hcount
      rw [LTS.trace_concat a hk', selectedOn_concat, ih hk', selectedBy_eq, passingOn_concat,
        List.take_append]
      congr 1
      by_cases hlt : (k'.counters c).count < maxpps
      · -- a list of at most one packet is not cut off
        rw [if_pos hlt, List.take_of_length_le]
        apply le_trans Option.length_toList_le
        omega
      · have hzero : maxpps - (passingOn c as).length = 0 := by omega
        rw [if_neg hlt, hzero, List.take_zero]
        rfl

/-- In every run, and on every CPU, the outputs are those of the first `maxpps` packets that pass
on the CPU, in their order and with their numbers; one of them is missing as long as an invocation
is under way on the CPU. -/
theorem quota {as : List KernelAction} {k : Kernel} (h : kernel.run kernel.init as = some k)
    (c : UInt32) :
  (outputsOn c k.history).length + (if (k.running c).busy then 1 else 0)
      = min maxpps (passingOn c as).length
    ∧ ∀ n o, (outputsOn c k.history)[n]? = some o → sequenceNumber o = n
      ∧ ∃ pkt, (passingOn c as)[n]? = some pkt ∧ FrameOf c pkt o.1
  := by
  have hsequenced := sequenced ⟨as, h⟩ c
  constructor
  · rw [← hsequenced.count, ← length_selectedOn h c, selectedOn_eq h c, List.length_take]
  · intro n o ho
    have hnumber : sequenceNumber o = n := hsequenced.numbered.number_getElem? ho
    obtain ⟨pkt, hpkt, hframe⟩ := exists_packet h (List.mem_of_getElem? ho)
    rw [selectedOn_eq h c, hnumber, List.getElem?_take] at hpkt
    refine ⟨hnumber, pkt, ?_, hframe⟩
    split at hpkt
    · apply hpkt
    · cases hpkt

/-- A packet, an empty one, and another packet whose invocation is under way. -/
def halfwayRun : List KernelAction :=
  invocation 0 DenyMap.allowAll true samplePacket
    ++ [.ingress 0 [] DenyMap.allowAll, .ingress 0 samplePacket DenyMap.allowAll]

/-- Two packets pass; the first has its frame. -/
theorem quota_halfwayRun :
  ∃ k o pkt, kernel.run kernel.init halfwayRun = some k ∧ (passingOn 0 halfwayRun).length = 2
    ∧ outputsOn 0 k.history = [o] ∧ sequenceNumber o = 0
    ∧ (passingOn 0 halfwayRun)[0]? = some pkt ∧ FrameOf 0 pkt o.1
  := by
  have hrun : (kernel.run kernel.init halfwayRun).map (fun k => (k.running 0).busy)
      = some true := by decide +kernel
  have hpassing : (passingOn 0 halfwayRun).length = 2 := by decide +kernel
  obtain ⟨k, hk, hbusy⟩ := Option.map_eq_some_iff.mp hrun
  obtain ⟨hlength, hframes⟩ := quota hk 0
  rw [hpassing, hbusy] at hlength
  obtain ⟨o, ho⟩ := List.length_eq_one_iff.mp (Nat.succ.inj hlength)
  obtain ⟨hnumber, pkt, hpkt, hframe⟩ := hframes 0 o (by rw [ho]; rfl)
  exact ⟨k, o, pkt, hk, hpassing, ho, hnumber, hpkt, hframe⟩

end SgEbpf
