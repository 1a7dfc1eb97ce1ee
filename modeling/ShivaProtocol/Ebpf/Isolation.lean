import ShivaProtocol.Library.Observer
import ShivaProtocol.Ebpf.Kernel

/-!
# Isolation of the filter

What the filter decides on a CPU is not influenced by packets on other CPUs, nor by packets on the
CPU that the parser or the deny check refuses.  In a run, some of the packets on the CPU are marked
as kept; the others must be refused ones.  Two runs that keep the same packets, each with the
same content of the deny map, give the same verdicts on them (`verdicts_eq`), whatever happens in
between.
-/

namespace SgEbpf

/-- A packet on a CPU, with the content of the deny map it meets. -/
abbrev Delivery := List UInt8 × DenyMap

/-- Whether the parser rejects a packet or the deny check refuses its flow. -/
def refused (p : Delivery) : Bool :=
  match inspect p.1 with
  | .ok (some view) => denyCheck p.2 view.flowHash
  | _ => true

/-- The outcome for a packet the filter has been called for. -/
def called (p : Option FilterResult × PpsCounters) : Option (Option FilterResult) × PpsCounters :=
  (some p.1, p.2)

theorem called_fst (p : Option FilterResult × PpsCounters) :
  (called p).1 = some p.1
  := rfl

theorem called_snd (p : Option FilterResult × PpsCounters) :
  (called p).2 = p.2
  := rfl

/-- What the program decides about a packet, and the counter of the CPU after it: no call of the
filter for a packet the parser rejects, and the verdict of the filter otherwise. -/
def verdict (counters : PpsCounters) (p : Delivery) : Option (Option FilterResult) × PpsCounters :=
  match inspect p.1 with
  | .ok (some view) => called (select p.2 counters view)
  | _ => (none, counters)

/-- A CPU on its own: its state is its counter. -/
def filterMachine : Machine PpsCounters Delivery (Option (Option FilterResult)) where
  next counters p := (verdict counters p).2
  output counters p := (verdict counters p).1

/-- An action of the kernel, with a mark that tells whether it is kept. -/
abbrev MarkedAction := KernelAction × Bool

/-- The kernel, with marks on its actions. -/
def markedKernel : LTS Kernel MarkedAction where
  init := kernel.init
  step k a := kernel.step k a.1

/-- The packet an action delivers to a CPU. -/
def KernelAction.delivery (c : UInt32) : KernelAction → Option Delivery
  | .ingress cpu pkt denyMap => if cpu = c then some (pkt, denyMap) else none
  | _ => none

/-- The packet a kept action delivers to a CPU. -/
def keptDelivery (c : UInt32) (a : MarkedAction) : Option Delivery :=
  if a.2 then a.1.delivery c else none

/-- Whether an action delivers no packet to a CPU, or a refused one. -/
def Inert (c : UInt32) (a : KernelAction) : Prop :=
  ∀ p, a.delivery c = some p → refused p = true

theorem verdict_of_parsed {p : Delivery} {view : ProtoView} (h : inspect p.1 = .ok (some view))
    (counters : PpsCounters) :
  verdict counters p = called (select p.2 counters view)
  := by rw [verdict, h]

/-- A refused packet leaves the counter as it is. -/
theorem verdict_of_refused {p : Delivery} (h : refused p = true) (counters : PpsCounters) :
  (verdict counters p).2 = counters
  := by
  rw [refused] at h
  rw [verdict]
  split
  · rename_i view hview
    rw [hview] at h
    rw [select_of_denied h, called_snd]
  · rfl

theorem settle_counters (k : Kernel) (cpu : UInt32) (view : ProtoView)
    (p : Option FilterResult × PpsCounters) :
  (k.settle cpu view p).counters = Function.update k.counters cpu p.2
  := by obtain ⟨_ | _, _⟩ := p <;> rfl

theorem settle_history (k : Kernel) (cpu : UInt32) (view : ProtoView)
    (p : Option FilterResult × PpsCounters) :
  (k.settle cpu view p).history = k.history ++ (p.1.map (KernelEvent.selected cpu)).toList
  := by
  obtain ⟨_ | _, _⟩ := p
  · symm
    apply List.append_nil
  · rfl

/-- A packet is selected exactly if its verdict says so. -/
theorem step_history {k k' : Kernel} {cpu : UInt32} {pkt : List UInt8} {denyMap : DenyMap}
    (h : kernel.step k (.ingress cpu pkt denyMap) = some k') :
  k'.history = k.history
    ++ ((verdict (k.counters cpu) (pkt, denyMap)).1.join.map (KernelEvent.selected cpu)).toList
  := by
  simp only [kernel, Kernel.step] at h
  split at h
  · rename_i hview
    obtain rfl := Option.some.inj h
    simp [verdict, hview]
  · rename_i view _ hview
    obtain rfl := Option.some.inj h
    rw [settle_history, verdict_of_parsed hview, called_fst, Option.join_some]
  · cases h

/-- A step changes the counter of a CPU as the packet it delivers to the CPU does. -/
theorem step_counters {k k' : Kernel} {a : KernelAction} (h : kernel.step k a = some k')
    (c : UInt32) :
  k'.counters c = ((a.delivery c).map fun p => (verdict (k.counters c) p).2).getD (k.counters c)
  := by
  cases a with
  | ingress cpu pkt denyMap =>
      simp only [kernel, Kernel.step] at h
      split at h
      · rename_i hview
        obtain rfl := Option.some.inj h
        by_cases hc : cpu = c <;> simp [KernelAction.delivery, verdict, hview, hc]
      · rename_i view _ hview
        obtain rfl := Option.some.inj h
        rw [settle_counters]
        by_cases hc : cpu = c
        · subst hc
          rw [Function.update_self, KernelAction.delivery, if_pos rfl, Option.map_some,
            Option.getD_some, verdict_of_parsed hview, called_snd]
        · simp [KernelAction.delivery, hc, Ne.symm hc]
      · cases h
  | stamp cpu =>
      cases kernelStep_of_step h with
      | stamp _ => rfl
  | output cpu room =>
      cases kernelStep_of_step h with
      | output _ _ => rfl
  | tick now =>
      cases kernelStep_of_step h with
      | tick _ => rfl

/-- A CPU sees the packets kept on it, and its counter. -/
def filterObserver (c : UInt32) :
    Observer markedKernel PpsCounters Delivery (Option (Option FilterResult)) where
  machine := filterMachine
  view k := k.counters c
  input := keptDelivery c
  silent a := Inert c a.1
  seen := by
    intro k a p k' ha h
    rw [keptDelivery, Option.ite_none_right_eq_some] at ha
    rw [step_counters h, ha.2, Option.map_some, Option.getD_some]
    rfl
  unseen := by
    intro k a k' _ hinert h
    rw [step_counters h]
    cases hd : a.1.delivery c with
    | none => rfl
    | some p => apply verdict_of_refused (hinert p hd)

/-- The verdicts on the kept packets of a CPU along a run. -/
def verdicts (c : UInt32) (as : List MarkedAction) : List (Option (Option FilterResult)) :=
  (filterObserver c).observe kernel.init as

/-- All packets of a CPU that are not kept are refused ones. -/
def KeepsAccepted (c : UInt32) (as : List MarkedAction) : Prop :=
  ∀ a ∈ as, a.2 = false → Inert c a.1

theorem quiet_of_keepsAccepted {c : UInt32} {as : List MarkedAction} (h : KeepsAccepted c as) :
  (filterObserver c).Quiet as
  := by
  intro a ha hnone p hp
  cases hkept : a.2 with
  | false => apply h a ha hkept p hp
  | true =>
      have hsome : keptDelivery c a = some p := by rw [keptDelivery, if_pos hkept, hp]
      cases hnone.symm.trans hsome

/-- Two runs that keep the same packets on a CPU give the same verdicts on them. -/
theorem verdicts_eq {c : UInt32} {as bs : List MarkedAction} {k k' : Kernel}
    (has : markedKernel.run markedKernel.init as = some k)
    (hbs : markedKernel.run markedKernel.init bs = some k')
    (hrefused : KeepsAccepted c as) (hrefused' : KeepsAccepted c bs)
    (hkept : as.filterMap (keptDelivery c) = bs.filterMap (keptDelivery c)) :
  verdicts c as = verdicts c bs
  := by
  apply Observer.noninterference rfl _ _ has hbs hkept
  · apply quiet_of_keepsAccepted hrefused
  · apply quiet_of_keepsAccepted hrefused'

/-- A refused packet leaves the kernel as it is. -/
theorem step_of_refused {k : Kernel} {cpu : UInt32} {pkt : List UInt8} {denyMap : DenyMap}
    (hidle : k.running cpu = .idle) (h : refused (pkt, denyMap) = true) :
  kernel.step k (.ingress cpu pkt denyMap) = some k
  := by
  by_cases hacc : Accepted pkt
  · have hview : inspect pkt = .ok (some (viewOf pkt hacc.1)) := by
      rw [inspect_eq, dif_pos hacc]
    simp only [refused, hview] at h
    simp only [kernel, Kernel.step, hidle, hview]
    rw [select_of_denied h, Kernel.settle, Function.update_eq_self]
  · have hview : inspect pkt = .ok none := by rw [inspect_eq, dif_neg hacc]
    simp only [kernel, Kernel.step, hidle, hview]

/-- The deny map that refuses every flow. -/
def DenyMap.denyAll : DenyMap where
  slot _ := 1

/-- One packet on CPU 0. -/
def soloRun : List MarkedAction :=
  [(.ingress 0 samplePacket DenyMap.allowAll, true)]

/-- The same packet on CPU 0, after a packet on CPU 1, an empty packet, and a denied one. -/
def mixedRun : List MarkedAction :=
  [(.ingress 1 samplePacket DenyMap.allowAll, false), (.ingress 0 [] DenyMap.allowAll, false),
    (.ingress 0 samplePacket DenyMap.denyAll, false),
    (.ingress 0 samplePacket DenyMap.allowAll, true)]

theorem refused_denyAll (pkt : List UInt8) :
  refused (pkt, DenyMap.denyAll) = true
  := by
  rw [refused]
  split
  · apply denyCheck_eq
  · rfl

theorem exists_run_soloRun :
  ∃ k, markedKernel.run markedKernel.init soloRun = some k
  := by
  apply Exists.intro
  simp only [soloRun, markedKernel, LTS.run]
  rw [step_ingress accepted_samplePacket rfl (denyCheck_allowAll _) (by decide)]
  rfl

theorem exists_run_mixedRun :
  ∃ k, markedKernel.run markedKernel.init mixedRun = some k
  := by
  apply Exists.intro
  simp only [mixedRun, markedKernel, LTS.run]
  rw [step_ingress accepted_samplePacket rfl (denyCheck_allowAll _) (by decide), Option.bind_some,
    step_of_refused rfl (by decide), Option.bind_some, step_of_refused rfl (refused_denyAll _),
    Option.bind_some,
    step_ingress accepted_samplePacket rfl (denyCheck_allowAll _) (by decide)]
  rfl

/-- The packet of CPU 0 gets the same verdict in both runs. -/
theorem verdicts_mixedRun :
  verdicts 0 mixedRun = verdicts 0 soloRun
  := by
  obtain ⟨k, hk⟩ := exists_run_mixedRun
  obtain ⟨k', hk'⟩ := exists_run_soloRun
  apply verdicts_eq hk hk'
  · intro a ha hkept p hp
    simp only [mixedRun, List.mem_cons, List.not_mem_nil, or_false] at ha
    rcases ha with rfl | rfl | rfl | rfl
    · cases hp
    · cases hp
      decide
    · cases hp
      apply refused_denyAll
    · cases hkept
  · intro a ha hkept p hp
    simp only [soloRun, List.mem_singleton] at ha
    subst ha
    cases hkept
  · rfl

end SgEbpf
