import ShivaProtocol.Ebpf.Sequence
import ShivaProtocol.Pipeline.Refinement

/-!
# The stream of the consumer

What the consumer receives is sorted by time, and the numbers of the frames of every CPU increase.
A number of a CPU that is missing before a frame of the CPU has been lost for good, since a frame on
the ring, in the batch or in the channel comes after all frames received.  So the numbers of
consecutive frames tell exactly how many frames are lost between them, in whatever place: the ring
had no room, the worker dropped the frame for its timestamp, or the channel was full (`stream`).
-/

open SgCommon SgEbpf SgCapture

namespace Pipeline

/-! ### The numbers of the frames of a CPU -/

/-- The numbers of the frames of a CPU increase. -/
def Rising (c : UInt32) (frames : List SignalFrame) : Prop :=
  frames.Pairwise fun a b => a.cpuId = c → b.cpuId = c → a.ppsDelta < b.ppsDelta

theorem Rising.sublist {c : UInt32} {frames part : List SignalFrame} (h : Rising c frames)
    (hsub : part.Sublist frames) :
  Rising c part
  := List.Pairwise.sublist hsub h

/-- Whether a frame is one of a CPU, with a number from `lo` on and below `hi`. -/
def numberedIn (c : UInt32) (lo hi : ℕ) (frame : SignalFrame) : Bool :=
  decide (frame.cpuId = c ∧ lo ≤ frame.ppsDelta.toNat ∧ frame.ppsDelta.toNat < hi)

theorem committedAs_eq_filter (c : UInt32) (k : Kernel) :
  committedAs c k.history = k.committed.filter fun frame => frame.cpuId = c
  := by
  rw [Kernel.committed, List.filter_filterMap]
  rfl

/-- A frame committed under a CPU id is the frame of an output of the CPU. -/
theorem exists_output_of_committed {k : Kernel} (hk : kernel.Reachable k) {frame : SignalFrame}
    (h : frame ∈ k.committed) :
  ∃ o ∈ outputsOn frame.cpuId k.history, o.1 = frame
  := by
  have hmem : frame ∈ committedAs frame.cpuId k.history := by
    rw [committedAs_eq_filter]
    apply List.mem_filter.mpr
    simp [h]
  rw [committedAs_eq fun e he => named hk he] at hmem
  obtain ⟨o, ho, hdelivered⟩ := List.mem_filterMap.mp hmem
  use o, ho
  simp only [delivered, Option.ite_none_right_eq_some, Option.some_inj] at hdelivered
  apply hdelivered.2

theorem rising_committed {k : Kernel} (hk : kernel.Reachable k) (c : UInt32) :
  Rising c k.committed
  := by
  have hfilter : (k.committed.filter fun frame => frame.cpuId = c).Pairwise
      fun a b => a.ppsDelta < b.ppsDelta := by
    rw [← committedAs_eq_filter, committedAs_eq fun e he => named hk he, List.pairwise_filterMap]
    apply (sequenced hk c).numbered.pairwise.imp
    intro x y h
    simp only [delivered, Option.ite_none_right_eq_some]
    rintro a ⟨-, hx⟩ b ⟨-, hy⟩
    cases hx
    cases hy
    apply UInt32.lt_iff_toNat_lt.mpr h
  apply (List.pairwise_filter.mp hfilter).imp
  intro a b h ha hb
  apply h (decide_eq_true ha) (decide_eq_true hb)

/-- What comes after a frame of a CPU has greater numbers. -/
theorem countP_after {c : UInt32} {before after : List SignalFrame} {b : SignalFrame} {n : ℕ}
    (h : Rising c (before ++ after)) (hb : b ∈ before) (hc : b.cpuId = c)
    (hn : n ≤ b.ppsDelta.toNat + 1) :
  after.countP (numberedIn c 0 n) = 0
  := by
  rw [List.countP_eq_zero]
  intro x hx hnumbered
  obtain ⟨hcpu, -, hlt⟩ := of_decide_eq_true hnumbered
  have hrise := UInt32.lt_iff_toNat_lt.mp ((List.pairwise_append.mp h).2.2 b hb x hx hc hcpu)
  omega

/-- Of the outputs of a CPU, those lost and those committed carry every number below that of the
next output once. -/
theorem countP_committed {k : Kernel} (hk : kernel.Reachable k) {c : UInt32} {n : ℕ}
    (hn : n ≤ (outputsOn c k.history).length) :
  n = (outputsOn c k.history).countP (fun o => !o.2 && numberedIn c 0 n o.1)
    + k.committed.countP (numberedIn c 0 n)
  := by
  have hseq := sequenced hk c
  have hall := hseq.numbered.countP_lt hn
  have hcommitted : k.committed.countP (numberedIn c 0 n)
      = (outputsOn c k.history).countP (fun o => o.2 && numberedIn c 0 n o.1) := by
    have hfilter : k.committed.countP (numberedIn c 0 n)
        = (committedAs c k.history).countP (numberedIn c 0 n) := by
      rw [committedAs_eq_filter, List.countP_filter]
      apply List.countP_congr
      intro x _
      simp only [numberedIn, decide_eq_true_eq, Bool.and_eq_true]
      tauto
    rw [hfilter, committedAs_eq fun e he => named hk he, List.countP_filterMap]
    apply List.countP_congr
    rintro ⟨frame, committed⟩ _
    cases committed <;> simp [delivered]
  have hnumber {o : SignalFrame × Bool} (ho : o ∈ outputsOn c k.history) :
      numberedIn c 0 n o.1 = true ↔ sequenceNumber o < n := by
    rw [numberedIn, decide_eq_true_eq, hseq.named o ho]
    simp [sequenceNumber]
  -- the numbers below `n`, by whether the ring had room
  rw [List.countP_eq_countP_filter_add _ _ fun o => o.2, List.countP_filter, List.countP_filter]
    at hall
  rw [hcommitted, Nat.add_comm]
  apply hall.symm.trans
  congr 1
  · apply List.countP_congr
    intro o ho
    rw [Bool.and_eq_true, Bool.and_eq_true, decide_eq_true_eq, hnumber ho, and_comm]
  · apply List.countP_congr
    intro o ho
    rw [Bool.and_eq_true, Bool.and_eq_true, decide_eq_true_eq, hnumber ho, and_comm]

/-! ### Losses -/

/-- The number of frames of a CPU, with a number from `lo` on and below `hi`, that have been lost:
the ring had no room for them, the worker has dropped them for their timestamp, or the channel was
full. -/
def Process.lostIn (p : Process) (c : UInt32) (lo hi : ℕ) : ℕ :=
  (outputsOn c p.system.kernel.history).countP (fun o => !o.2 && numberedIn c lo hi o.1)
    + p.system.worker.droppedFrames.countP (numberedIn c lo hi)
    + p.system.worker.refused.countP (numberedIn c lo hi)

/-- Cutting a range of numbers in two. -/
theorem countP_numberedIn {α : Type} (p : α → Bool) (f : α → SignalFrame) (xs : List α) {c : UInt32}
    {lo mid hi : ℕ} (hlo : lo ≤ mid) (hhi : mid ≤ hi) :
  xs.countP (fun x => p x && numberedIn c lo hi (f x))
    = xs.countP (fun x => p x && numberedIn c lo mid (f x))
      + xs.countP (fun x => p x && numberedIn c mid hi (f x))
  := by
  rw [List.countP_eq_countP_filter_add _ _ fun x => decide ((f x).ppsDelta.toNat < mid),
    List.countP_filter, List.countP_filter]
  congr 1
  · apply List.countP_congr
    intro x _
    simp only [numberedIn, Bool.and_eq_true, decide_eq_true_eq]
    constructor
    · rintro ⟨⟨hp, hc, hle, -⟩, hlt⟩
      exact ⟨hp, hc, hle, hlt⟩
    · rintro ⟨hp, hc, hle, hlt⟩
      exact ⟨⟨hp, hc, hle, by omega⟩, hlt⟩
  · apply List.countP_congr
    intro x _
    simp only [numberedIn, Bool.and_eq_true, decide_eq_true_eq, Bool.not_eq_true',
      decide_eq_false_iff_not, not_lt]
    constructor
    · rintro ⟨⟨hp, hc, -, hlt⟩, hle⟩
      exact ⟨hp, hc, hle, hlt⟩
    · rintro ⟨hp, hc, hle, hlt⟩
      exact ⟨⟨hp, hc, by omega, hlt⟩, hle⟩

theorem lostIn_append (p : Process) (c : UInt32) {lo mid hi : ℕ} (hlo : lo ≤ mid) (hhi : mid ≤ hi) :
  p.lostIn c lo hi = p.lostIn c lo mid + p.lostIn c mid hi
  := by
  have hframes (frames : List SignalFrame) : frames.countP (numberedIn c lo hi)
      = frames.countP (numberedIn c lo mid) + frames.countP (numberedIn c mid hi) := by
    simpa using countP_numberedIn (fun _ => true) id frames (c := c) hlo hhi
  rw [Process.lostIn, countP_numberedIn (fun o => !o.2) Prod.fst _ hlo hhi, hframes, hframes,
    Process.lostIn, Process.lostIn]
  omega

section Received

variable {p : Process} (hp : process.Reachable p)

include hp

/-- The frames received, followed by those in the channel, keep the order in which they are
committed. -/
theorem received_sublist :
  (p.channel.received ++ p.channel.queue).Sublist p.system.kernel.committed
  := by
  apply List.Sublist.trans _ (received_inFlight_sublist hp)
  rw [Process.inFlight, List.append_assoc, ← List.append_assoc p.channel.received]
  apply List.sublist_append_left

/-- What the consumer receives is sorted by time. -/
theorem received_sorted :
  p.channel.received.Pairwise fun a b => timestamp a ≤ timestamp b
  := by
  have hworker := worker_reachable (system_reachable hp)
  have hsub : p.channel.received.Sublist (p.system.worker.handed ++ p.system.worker.pending) := by
    apply (List.sublist_append_left _ p.channel.queue).trans
    rw [received_append_queue hp]
    apply (accepted_sublist _).trans (List.sublist_append_left _ _)
  apply List.Pairwise.sublist hsub (handed_pending_sorted hworker)

/-- Up to the number of a frame received, every number of its CPU is that of a frame received or of
a frame lost. -/
theorem countP_received {b : SignalFrame} (hb : b ∈ p.channel.received) {n : ℕ}
    (hn : n ≤ b.ppsDelta.toNat + 1) :
  n = p.channel.received.countP (numberedIn b.cpuId 0 n) + p.lostIn b.cpuId 0 n
  := by
  have hsystem := system_reachable hp
  have hkernel := kernel_reachable hsystem
  have hworker := worker_reachable hsystem
  have hsent := received_append_queue hp
  have hconnected : p.system.worker.results .disconnected = 0 :=
    (delivering (delivery_reachable hp)).connected
  have hrising := rising_committed hkernel b.cpuId
  have haccepted : b ∈ p.system.worker.accepted := by
    rw [← hsent]
    apply List.mem_append_left _ hb
  have hhanded := (accepted_sublist p.system.worker).subset haccepted
  have htaken : b ∈ p.system.kernel.committed.take p.system.consumed := by
    rw [← frames_eq hsystem]
    apply handed_subset hworker hhanded
  -- nothing below `n` is still on its way
  have hring : (p.system.kernel.committed.drop p.system.consumed).countP
      (numberedIn b.cpuId 0 n) = 0 := by
    apply countP_after _ htaken rfl hn
    rw [List.take_append_drop]
    apply hrising
  have hpending : p.system.worker.pending.countP (numberedIn b.cpuId 0 n) = 0 := by
    apply countP_after _ hhanded rfl hn
    apply hrising.sublist
    apply (handed_pending_sublist hworker).trans
    rw [frames_eq hsystem]
    apply List.take_sublist
  have hqueue : p.channel.queue.countP (numberedIn b.cpuId 0 n) = 0 := by
    apply countP_after _ hb rfl hn
    apply hrising.sublist (received_sublist hp)
  have houtputs : n ≤ (outputsOn b.cpuId p.system.kernel.history).length := by
    obtain ⟨o, ho, hframe⟩ := exists_output_of_committed hkernel (List.mem_of_mem_take htaken)
    have hlt := (sequenced hkernel b.cpuId).numbered.number_lt ho
    rw [sequenceNumber, hframe] at hlt
    omega
  have hcommitted := countP_committed hkernel houtputs
  rw [← List.take_append_drop p.system.consumed p.system.kernel.committed, List.countP_append,
    hring, ← frames_eq hsystem, (frames_perm hworker).countP_eq, List.countP_append,
    List.countP_append, hpending, (handed_perm hconnected).countP_eq, List.countP_append, ← hsent,
    List.countP_append, hqueue] at hcommitted
  rw [Process.lostIn]
  omega

/-- The number of a frame received is the number of frames of its CPU received before it and of
those lost before it. -/
theorem ppsDelta_eq {pre post : List SignalFrame} {b : SignalFrame}
    (h : p.channel.received = pre ++ b :: post) {n : ℕ} (hle : b.ppsDelta.toNat ≤ n)
    (hn : n ≤ b.ppsDelta.toNat + 1) :
  b.ppsDelta.toNat = pre.countP (fun frame => frame.cpuId = b.cpuId) + p.lostIn b.cpuId 0 n
  := by
  have hmem : b ∈ p.channel.received := by
    rw [h]
    apply List.mem_append_right _ List.mem_cons_self
  have hrising : Rising b.cpuId p.channel.received :=
    (rising_committed (kernel_reachable (system_reachable hp)) b.cpuId).sublist
      ((List.sublist_append_left _ _).trans (received_sublist hp))
  have hreceived := countP_received hp hmem hn
  rw [h] at hrising hreceived
  have hpre : pre.countP (numberedIn b.cpuId 0 n)
      = pre.countP fun frame => frame.cpuId = b.cpuId := by
    apply List.countP_congr
    intro x hx
    rw [numberedIn, decide_eq_true_eq, decide_eq_true_eq]
    constructor
    · rintro ⟨hc, -⟩
      apply hc
    · intro hc
      have hrise := (List.pairwise_append.mp hrising).2.2 x hx b List.mem_cons_self hc rfl
      exact ⟨hc, Nat.zero_le _, (UInt32.lt_iff_toNat_lt.mp hrise).trans_le hle⟩
  have hpost : post.countP (numberedIn b.cpuId 0 n) = 0 := by
    have hsplit : Rising b.cpuId (pre ++ [b] ++ post) := by
      rw [List.append_assoc]
      apply hrising
    apply countP_after hsplit (List.mem_append_right _ (List.mem_singleton_self b)) rfl hn
  have hself : (if numberedIn b.cpuId 0 n b = true then 1 else 0) = n - b.ppsDelta.toNat := by
    simp only [numberedIn, decide_eq_true_eq, Nat.zero_le, true_and]
    split <;> omega
  rw [List.countP_append, List.countP_cons, hpre, hpost, hself] at hreceived
  omega

end Received

/-- What the consumer can tell from the frames it receives: they are sorted by time; the numbers of
the frames of a CPU increase and stay below the threshold; and they tell how many frames of the CPU
are lost before the first of them and between two consecutive ones. -/
structure Stream (p : Process) : Prop where
  sorted : p.channel.received.Pairwise fun a b => timestamp a ≤ timestamp b
  rising : ∀ c, Rising c p.channel.received
  bounded : ∀ frame ∈ p.channel.received, frame.ppsDelta < 1000000
  first : ∀ {pre b post}, p.channel.received = pre ++ b :: post →
    (∀ frame ∈ pre, frame.cpuId ≠ b.cpuId) →
    b.ppsDelta.toNat = p.lostIn b.cpuId 0 b.ppsDelta.toNat
  consecutive : ∀ {pre a mid b post}, p.channel.received = pre ++ a :: (mid ++ b :: post) →
    a.cpuId = b.cpuId → (∀ frame ∈ mid, frame.cpuId ≠ b.cpuId) →
    b.ppsDelta.toNat
      = a.ppsDelta.toNat + 1 + p.lostIn b.cpuId (a.ppsDelta.toNat + 1) b.ppsDelta.toNat

theorem countP_cpuId_eq_zero {frames : List SignalFrame} {c : UInt32}
    (h : ∀ frame ∈ frames, frame.cpuId ≠ c) :
  frames.countP (fun frame => frame.cpuId = c) = 0
  := by
  rw [List.countP_eq_zero]
  intro frame hframe hc
  apply h frame hframe (of_decide_eq_true hc)

/-- In every run of the process, whatever the CPUs, the worker and the consumer do in between, the
frames received reveal every loss on the way from the filter to the consumer. -/
theorem stream {p : Process} (hp : process.Reachable p) :
  Stream p
  := by
  have hkernel := kernel_reachable (system_reachable hp)
  have hsub : p.channel.received.Sublist p.system.kernel.committed :=
    (List.sublist_append_left _ _).trans (received_sublist hp)
  constructor
  · apply received_sorted hp
  · intro c
    apply (rising_committed hkernel c).sublist hsub
  · intro frame hframe
    obtain ⟨o, ho, hname⟩ := exists_output_of_committed hkernel (hsub.subset hframe)
    have hseq := sequenced hkernel frame.cpuId
    have hlt := hseq.numbered.number_lt ho
    have hcount := hseq.count
    have hlimit := hseq.limit
    rw [sequenceNumber, hname] at hlt
    rw [maxpps] at hlimit
    apply UInt32.lt_iff_toNat_lt.mpr
    apply lt_of_lt_of_le hlt
    apply le_trans _ hlimit
    omega
  · intro pre b post hsplit hnone
    have hnumber := ppsDelta_eq hp hsplit le_rfl (Nat.le_succ _)
    rw [countP_cpuId_eq_zero hnone, Nat.zero_add] at hnumber
    apply hnumber
  · intro pre a mid b post hsplit hcpu hnone
    have hfirst := ppsDelta_eq hp hsplit (Nat.le_succ _) le_rfl
    have hrise : a.ppsDelta < b.ppsDelta := by
      have hrising := (rising_committed hkernel b.cpuId).sublist hsub
      rw [hsplit] at hrising
      have htail := (List.pairwise_append.mp hrising).2.1
      apply List.rel_of_pairwise_cons htail _ hcpu rfl
      apply List.mem_append_right _ List.mem_cons_self
    rw [← List.cons_append, ← List.append_assoc] at hsplit
    have hsecond := ppsDelta_eq hp hsplit le_rfl (Nat.le_succ _)
    rw [List.countP_append, List.countP_cons, countP_cpuId_eq_zero hnone, if_pos (by simp [hcpu]),
      lostIn_append p b.cpuId (Nat.zero_le _) (UInt32.lt_iff_toNat_lt.mp hrise)] at hsecond
    rw [hcpu] at hfirst
    simp only [Nat.succ_eq_add_one] at hfirst hsecond
    omega

/-- CPU 0 outputs three frames, and the ring has no room for the second.  The consumer receives the
other two. -/
def gapRun : List ProcessAction :=
  ([true, false, true].flatMap fun room =>
      invocation 0 DenyMap.allowAll room samplePacket).map .kernel
    ++ [.worker (.pin true), .worker (.checkShutdown false),
      .worker (.next (some (sampleFrame 0 0).bytes)),
      .worker (.next (some (buildFrame 0 sampleView ⟨sampleView.flowHash, 2⟩ 0).bytes)),
      .worker (.next none), .worker (.trySend .ok), .worker .recordOk, .worker (.trySend .ok),
      .worker .recordOk, .recv, .recv]

theorem run_gapRun :
  ∃ p, process.run process.init gapRun = some p
    ∧ p.channel.received.map SignalFrame.ppsDelta = [0, 2] ∧ p.lostIn 0 1 2 = 1
  := by
  have hrun : (process.run process.init gapRun).map
      (fun p => (p.channel.received.map SignalFrame.ppsDelta, p.lostIn 0 1 2))
      = some ([0, 2], 1) := by decide +kernel
  obtain ⟨p, h, hp⟩ := Option.map_eq_some_iff.mp hrun
  exact ⟨p, h, Prod.mk.inj hp⟩

theorem stream_gapRun :
  ∃ p, process.run process.init gapRun = some p
    ∧ p.channel.received.map SignalFrame.ppsDelta = [0, 2] ∧ p.lostIn 0 1 2 = 1 ∧ Stream p
  := by
  obtain ⟨p, h, hreceived, hlost⟩ := run_gapRun
  exact ⟨p, h, hreceived, hlost, stream ⟨_, h⟩⟩

end Pipeline
