import ShivaProtocol.Library.Numbered
import ShivaProtocol.Ebpf.History

/-!
# Sequence numbers

The counter a CPU reports in its frames numbers the outputs of that CPU, lost ones included
(`Sequenced`).  The numbers of the frames that reach the ring therefore tell how many frames of
the CPU are lost before the first and between any two of them (`revealsLosses`).
-/

open SgCommon

namespace SgEbpf

/-- The frame a CPU outputs in an event, and whether it is committed. -/
def KernelEvent.outputOn (c : UInt32) : KernelEvent → Option (SignalFrame × Bool)
  | .output cpu frame committed => if cpu = c then some (frame, committed) else none
  | .selected _ _ => none

/-- Whether an event is an output of a CPU for which the ring had no room. -/
def KernelEvent.lostOn (c : UInt32) : KernelEvent → Bool
  | .output cpu _ committed => decide (cpu = c) && !committed
  | .selected _ _ => false

/-- The frame an event commits under a CPU id. -/
def KernelEvent.committedAs (c : UInt32) (e : KernelEvent) : Option SignalFrame :=
  e.committed.filter fun frame => frame.cpuId = c

/-- The number a frame carries. -/
def sequenceNumber (o : SignalFrame × Bool) : ℕ :=
  o.1.ppsDelta.toNat

/-- The frames a CPU outputs in a history, in order, with their results. -/
def outputsOn (c : UInt32) (history : List KernelEvent) : List (SignalFrame × Bool) :=
  history.filterMap (KernelEvent.outputOn c)

/-- The number an invocation has taken for its frame. -/
def Invocation.number : Invocation → Option UInt32
  | .idle => none
  | .selected _ result => some result.ppsDelta
  | .stamped frame => some frame.ppsDelta

/-! ### The counter numbers the outputs -/

/-- The counter of a CPU numbers its outputs: they carry the numbers 0, 1, 2, …, a running
invocation has taken the next one, and the counter is the number of all these. -/
structure Sequenced (c : UInt32) (k : Kernel) : Prop where
  numbered : Numbered sequenceNumber (outputsOn c k.history)
  named : ∀ o ∈ outputsOn c k.history, o.1.cpuId = c
  stampedAs : ∀ frame, k.running c = .stamped frame → frame.cpuId = c
  next : ∀ n, (k.running c).number = some n → n.toNat = (outputsOn c k.history).length
  count : (k.counters c).count
    = (outputsOn c k.history).length + if (k.running c).busy then 1 else 0
  limit : (k.counters c).count ≤ maxpps

/-- The numbering of a CPU depends on its counter, its invocation and its outputs only. -/
theorem Sequenced.frame {c : UInt32} {k k' : Kernel} (hk : Sequenced c k)
    (hcounters : k'.counters c = k.counters c) (hrunning : k'.running c = k.running c)
    (houtputs : outputsOn c k'.history = outputsOn c k.history) :
  Sequenced c k'
  := by
  constructor
  · rw [houtputs]
    apply hk.numbered
  · rw [houtputs]
    apply hk.named
  · rw [hrunning]
    apply hk.stampedAs
  · rw [hrunning, houtputs]
    apply hk.next
  · rw [hcounters, hrunning, houtputs]
    apply hk.count
  · rw [hcounters]
    apply hk.limit

theorem outputsOn_accept (c : UInt32) (k : Kernel) (cpu : UInt32) (counters : PpsCounters)
    (view : ProtoView) (result : FilterResult) :
  outputsOn c (k.accept cpu counters view result).history = outputsOn c k.history
  := by simp [outputsOn, KernelEvent.outputOn]

theorem outputsOn_emit_self (c : UInt32) (k : Kernel) (frame : SignalFrame) (room : Bool) :
  outputsOn c (k.emit c frame room).history = outputsOn c k.history ++ [(frame, room)]
  := by simp [outputsOn, KernelEvent.outputOn]

theorem outputsOn_emit_of_ne {c cpu : UInt32} (h : cpu ≠ c) (k : Kernel) (frame : SignalFrame)
    (room : Bool) :
  outputsOn c (k.emit cpu frame room).history = outputsOn c k.history
  := by simp [outputsOn, KernelEvent.outputOn, h]

/-- Accepting a packet gives its invocation the next number. -/
theorem Sequenced.accept {c : UInt32} {k : Kernel} {counters : PpsCounters} {view : ProtoView}
    {flowHash : UInt64} (hk : Sequenced c k) (hidle : k.running c = .idle)
    (hlt : (k.counters c).count < maxpps) (hcount : counters.count = (k.counters c).count + 1) :
  Sequenced c (k.accept c counters view ⟨flowHash, UInt32.ofNat (k.counters c).count⟩)
  := by
  have hlen : (k.counters c).count = (outputsOn c k.history).length := by
    rw [hk.count, hidle]
    rfl
  constructor
  · rw [outputsOn_accept]
    apply hk.numbered
  · rw [outputsOn_accept]
    apply hk.named
  · intro frame h
    rw [Kernel.accept_running, Function.update_self] at h
    cases h
  · intro n h
    rw [Kernel.accept_running, Function.update_self] at h
    obtain rfl := Option.some.inj h
    rw [outputsOn_accept, ← hlen]
    rw [maxpps] at hlt
    apply UInt32.toNat_ofNat_of_lt
    apply lt_trans hlt
    decide
  · rw [outputsOn_accept, Kernel.accept_counters, Kernel.accept_running, Function.update_self,
      Function.update_self, hcount, hlen]
    rfl
  · rw [Kernel.accept_counters, Function.update_self, hcount]
    apply hlt

/-- Reading the clock keeps the number of the invocation and names its CPU. -/
theorem Sequenced.stamp {c : UInt32} {k : Kernel} {view : ProtoView} {result : FilterResult}
    (hk : Sequenced c k) (hsel : k.running c = .selected view result) :
  Sequenced c (k.prepare c (buildFrame c view result k.clock))
  := by
  constructor
  · apply hk.numbered
  · apply hk.named
  · intro frame h
    rw [Kernel.prepare_running, Function.update_self] at h
    cases h
    rfl
  · intro n h
    rw [Kernel.prepare_running, Function.update_self] at h
    apply hk.next n
    rw [hsel]
    apply h
  · rw [Kernel.prepare_counters, Kernel.prepare_history, Kernel.prepare_running,
      Function.update_self, hk.count, hsel]
    rfl
  · apply hk.limit

/-- The frame a CPU outputs carries the number of outputs before it. -/
theorem Sequenced.emit {c : UInt32} {k : Kernel} {frame : SignalFrame} (hk : Sequenced c k)
    (hst : k.running c = .stamped frame) (room : Bool) :
  Sequenced c (k.emit c frame room)
  := by
  have hnext : sequenceNumber (frame, room) = (outputsOn c k.history).length := by
    apply hk.next
    rw [hst]
    rfl
  constructor
  · rw [outputsOn_emit_self]
    apply hk.numbered.concat hnext
  · intro o ho
    rw [outputsOn_emit_self, List.mem_append, List.mem_singleton] at ho
    rcases ho with ho | rfl
    · apply hk.named o ho
    · apply hk.stampedAs frame hst
  · intro frame h
    rw [Kernel.emit_running, Function.update_self] at h
    cases h
  · intro n h
    rw [Kernel.emit_running, Function.update_self] at h
    cases h
  · rw [outputsOn_emit_self, Kernel.emit_counters, Kernel.emit_running, Function.update_self,
      hk.count, hst, List.length_append]
    rfl
  · apply hk.limit

/-- In every reachable state the counter of every CPU numbers its outputs. -/
theorem sequenced {k : Kernel} (hk : kernel.Reachable k) (c : UInt32) :
  Sequenced c k
  := by
  apply hk.invariant
  · constructor
    · apply Numbered.nil
    · intro o ho
      cases ho
    · intro frame h
      cases h
    · intro n h
      cases h
    · rfl
    · apply Nat.zero_le
  · intro k a k' _ ih h
    cases kernelStep_of_step h with
    | foreign _ _ => apply ih
    | denied _ _ _ => apply ih
    | limited _ _ _ _ => apply ih
    | @accepted cpu _ _ _ _ hidle _ hlt hcount =>
        by_cases hc : c = cpu
        · subst hc
          apply ih.accept hidle hlt hcount
        · apply ih.frame
          · apply Function.update_of_ne hc
          · apply Function.update_of_ne hc
          · apply outputsOn_accept
    | @stamp cpu _ _ hsel =>
        by_cases hc : c = cpu
        · subst hc
          apply ih.stamp hsel
        · apply ih.frame
          · rfl
          · apply Function.update_of_ne hc
          · rfl
    | @output cpu frame room hst =>
        by_cases hc : c = cpu
        · subst hc
          apply ih.emit hst
        · apply ih.frame
          · rfl
          · apply Function.update_of_ne hc
          · apply outputsOn_emit_of_ne (Ne.symm hc)
    | tick _ => apply ih.frame <;> rfl

/-! ### What the numbers reveal -/

/-- The frames committed under a CPU id in a history, in commit order. -/
def committedAs (c : UInt32) (history : List KernelEvent) : List SignalFrame :=
  history.filterMap (KernelEvent.committedAs c)

/-- The number of outputs of a CPU in a history for which the ring had no room. -/
def lostOn (c : UInt32) (history : List KernelEvent) : ℕ :=
  history.countP (KernelEvent.lostOn c)

/-- The numbers of the frames committed under a CPU id increase and stay below the threshold, and
they tell how many outputs of the CPU are lost before the first of the frames and between two
consecutive ones. -/
structure RevealsLosses (c : UInt32) (history : List KernelEvent) : Prop where
  increasing : ((committedAs c history).map SignalFrame.ppsDelta).Pairwise (· < ·)
  bounded : ∀ frame ∈ committedAs c history, frame.ppsDelta < 1000000
  first : ∀ {pre e post b}, history = pre ++ e :: post → e.committedAs c = some b →
    committedAs c pre = [] → b.ppsDelta.toNat = lostOn c pre
  consecutive : ∀ {pre d mid e post a b}, history = pre ++ d :: (mid ++ e :: post) →
    d.committedAs c = some a → e.committedAs c = some b → committedAs c mid = [] →
    b.ppsDelta.toNat = a.ppsDelta.toNat + 1 + lostOn c mid

/-- Whether the frame of an event carries the id of the CPU that outputs it. -/
def KernelEvent.Named : KernelEvent → Prop
  | .output cpu frame _ => frame.cpuId = cpu
  | .selected _ _ => True

theorem named {k : Kernel} (hk : kernel.Reachable k) {e : KernelEvent} (he : e ∈ k.history) :
  e.Named
  := by
  cases e with
  | selected cpu result => trivial
  | output cpu frame committed =>
      apply (sequenced hk cpu).named (frame, committed)
      apply List.mem_filterMap.mpr
      use .output cpu frame committed, he
      apply if_pos rfl

/-- The CPU whose frame an action commits. -/
def KernelAction.committer : KernelAction → Option UInt32
  | .output cpu true => some cpu
  | _ => none

/-- A step commits a frame of the CPU that takes it, or none. -/
theorem committers_step {k k' : Kernel} {a : KernelAction} (hk : kernel.Reachable k)
    (h : kernel.step k a = some k') :
  k'.committed.map SignalFrame.cpuId
    = k.committed.map SignalFrame.cpuId ++ a.committer.toList
  := by
  have hk' : kernel.Reachable k' := hk.step h
  cases kernelStep_of_step h with
  | accepted _ _ _ _ _ =>
      rw [Kernel.committed_accept]
      apply (List.append_nil _).symm
  | @output cpu frame room _ =>
      have hname : frame.cpuId = cpu := by
        apply named hk' (e := .output cpu frame room)
        rw [Kernel.emit_history]
        apply List.mem_append_right _ (List.mem_singleton_self _)
      rw [Kernel.committed_emit, List.map_append]
      cases room with
      | true => simp [KernelAction.committer, hname]
      | false => simp [KernelAction.committer]
  | _ => apply (List.append_nil _).symm

/-- The frame of an output, if it is committed. -/
def delivered (o : SignalFrame × Bool) : Option SignalFrame :=
  if o.2 then some o.1 else none

/-- What is committed under a CPU id is what that CPU outputs and commits. -/
theorem KernelEvent.committedAs_eq {e : KernelEvent} (hn : e.Named) (c : UInt32) :
  e.committedAs c = (e.outputOn c).bind delivered
  := by
  cases e with
  | selected cpu result => rfl
  | output cpu frame committed =>
      obtain rfl := hn
      by_cases hc : frame.cpuId = c <;> cases committed <;>
        simp [committedAs, KernelEvent.committed, outputOn, delivered, hc]

/-- An output is lost if it is not committed. -/
theorem KernelEvent.lostOn_eq (e : KernelEvent) (c : UInt32) :
  e.lostOn c = ((e.outputOn c).map fun o => !o.2).getD false
  := by
  cases e with
  | selected cpu result => rfl
  | output cpu frame committed =>
      by_cases hc : cpu = c <;> simp [lostOn, outputOn, hc]

theorem committedAs_eq {history : List KernelEvent} (hn : ∀ e ∈ history, e.Named) (c : UInt32) :
  committedAs c history = (outputsOn c history).filterMap delivered
  := by
  rw [outputsOn, List.filterMap_filterMap]
  apply List.filterMap_congr
  intro e he
  apply KernelEvent.committedAs_eq (hn e he)

/-- Where nothing is committed under the id of a CPU, all outputs of the CPU are lost. -/
theorem length_outputsOn {history : List KernelEvent} {c : UInt32}
    (hn : ∀ e ∈ history, e.Named) (h : committedAs c history = []) :
  (outputsOn c history).length = lostOn c history
  := by
  rw [committedAs_eq hn, List.filterMap_eq_nil_iff] at h
  have hlost : ∀ o ∈ outputsOn c history, (!o.2) = true := by
    intro o ho
    have hnone := h o ho
    rw [delivered] at hnone
    simp_all
  rw [← List.countP_eq_length.mpr hlost, outputsOn, List.countP_filterMap, lostOn]
  congr 1
  funext e
  rw [e.lostOn_eq]

/-- The numbers of the frames that reach the ring under the id of a CPU reveal every loss of a
frame of that CPU. -/
theorem revealsLosses {k : Kernel} (hk : kernel.Reachable k) (c : UInt32) :
  RevealsLosses c k.history
  := by
  have hseq := sequenced hk c
  have hnum := hseq.numbered
  have heq := committedAs_eq (fun e he => named hk he) c
  have hlost {part : List KernelEvent} (h : part ⊆ k.history) (hnone : committedAs c part = []) :
      (outputsOn c part).length = lostOn c part :=
    length_outputsOn (fun e he => named hk (h he)) hnone
  have hout {e : KernelEvent} {frame : SignalFrame} (he : e ∈ k.history)
      (h : e.committedAs c = some frame) : ∃ o, e.outputOn c = some o ∧ o.1 = frame := by
    rw [e.committedAs_eq (named hk he), Option.bind_eq_some_iff] at h
    obtain ⟨o, ho, hdelivered⟩ := h
    use o, ho
    rw [delivered] at hdelivered
    simp_all
  constructor
  · rw [heq, List.pairwise_map, List.pairwise_filterMap]
    apply hnum.pairwise.imp
    intro x y h
    simp only [delivered, Option.ite_none_right_eq_some]
    rintro a ⟨-, hx⟩ b ⟨-, hy⟩
    cases hx
    cases hy
    apply UInt32.lt_iff_toNat_lt.mpr h
  · intro frame h
    rw [heq] at h
    obtain ⟨o, ho, hframe⟩ := List.mem_filterMap.mp h
    have hlt := hnum.number_lt ho
    have hcount := hseq.count
    have hlimit := hseq.limit
    simp only [delivered, Option.ite_none_right_eq_some, Option.some_inj] at hframe
    rw [sequenceNumber, hframe.2] at hlt
    rw [maxpps] at hlimit
    apply UInt32.lt_iff_toNat_lt.mpr
    apply lt_of_lt_of_le hlt
    apply le_trans _ hlimit
    omega
  · intro pre e post b hsplit he hnone
    obtain ⟨o, ho, rfl⟩ := hout (by simp [hsplit]) he
    rw [hsplit, outputsOn, List.filterMap_append, List.filterMap_cons_some ho] at hnum
    rw [← hlost (by simp [hsplit]) hnone]
    apply hnum.number_eq
  · intro pre d mid e post a b hsplit hd he hnone
    have hmid : mid ⊆ k.history := by
      intro x hx
      simp [hsplit, hx]
    obtain ⟨o, ho, rfl⟩ := hout (by simp [hsplit]) hd
    obtain ⟨p, hp, rfl⟩ := hout (by simp [hsplit]) he
    rw [hsplit, outputsOn, List.filterMap_append, List.filterMap_cons_some ho,
      List.filterMap_append, List.filterMap_cons_some hp] at hnum
    rw [← hlost hmid hnone]
    apply hnum.number_gap

/-- Three packets on one CPU; the ring has no room for the frame of the second. -/
def sampleRun : List KernelAction :=
  [true, false, true].flatMap fun room => invocation 0 DenyMap.allowAll room samplePacket

/-- The frames of the first and the third packet carry the numbers 0 and 2. -/
theorem revealsLosses_sampleRun :
  ∃ k, kernel.run kernel.init sampleRun = some k
    ∧ (committedAs 0 k.history).map SignalFrame.ppsDelta = [0, 2] ∧ RevealsLosses 0 k.history
  := by
  have hrun : kernel.run kernel.init sampleRun
      = some (Kernel.init.invokeAll 0 (viewOf samplePacket accepted_samplePacket.1)
        [true, false, true]) := by
    apply run_invocations accepted_samplePacket (denyCheck_allowAll _)
    · rfl
    · decide
  use Kernel.init.invokeAll 0 (viewOf samplePacket accepted_samplePacket.1) [true, false, true]
  and_intros
  · apply hrun
  · rfl
  · apply revealsLosses ⟨sampleRun, hrun⟩

end SgEbpf
