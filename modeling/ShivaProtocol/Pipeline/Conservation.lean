import ShivaProtocol.Pipeline.System

/-!
# Accounting across the two programs

A selected packet is in flight on its CPU, lost in the kernel, on the ring, with the worker, or
counted (`selected_eq`).  Nothing counts the frames lost in the kernel, so once the ring and the
batch are empty, the counters add up to the packets selected exactly if no call of `ring_output` has
failed and no packet is in flight (`counted_eq_selected_iff`).
-/

open SgCommon SgEbpf SgCapture

namespace Pipeline

namespace System

/-- The number of items on the ring. -/
def waiting (s : System) : ℕ :=
  s.kernel.ring.length - s.consumed

/-- The sum of the counters. -/
def counted (s : System) : ℕ :=
  s.worker.metrics.counted

/-- The ring and the batch of the worker are empty. -/
structure Settled (s : System) : Prop where
  ring : s.waiting = 0
  batch : s.worker.batch.toList = []

end System

/-- With an empty batch, the worker is not between `try_send` and the recording of a frame. -/
theorem inHand_of_settled {s : System} (hs : system.Reachable s) (hsettled : s.Settled) :
  s.worker.inHand = 0
  := by
  apply inHand_of_ne
  intro hphase
  apply (roomy (worker_reachable hs)).hand hphase hsettled.batch

/-- Where the selected packets are. -/
theorem selected_eq {s : System} (hs : system.Reachable s) :
  s.kernel.selected = s.kernel.inFlight.card + s.kernel.lost + s.waiting + s.worker.pending.length
    + s.worker.inHand + s.worker.results .disconnected + s.counted
  := by
  obtain ⟨htaken, hle⟩ := taken_eq hs
  have hcommitted := length_ring hs
  have hlen : s.worker.taken.length = s.consumed := by
    rw [htaken, List.length_take, min_eq_left hle]
  have hselected := selected_accounting (kernel_reachable hs)
  have hcounted := counted_accounting (by decide) (worker_reachable hs)
  rw [System.waiting, System.counted]
  omega

/-- The frames lost are the calls of `ring_output` that have failed. -/
theorem lost_eq_zero_iff {as : List SystemAction} {s : System}
    (h : system.run system.init as = some s) :
  s.kernel.lost = 0 ↔ ∀ cpu, .kernel (.output cpu false) ∉ as
  := by
  have hrun : kernel.run Kernel.init (as.filterMap systemToKernel.action) = some s.kernel :=
    systemToKernel.run h
  have hlost := lost_run hrun
  have hinit : Kernel.init.lost = 0 := rfl
  rw [hlost, hinit, Nat.zero_add, List.countP_eq_zero]
  constructor
  · intro hnone cpu hmem
    have haction : .output cpu false ∈ as.filterMap systemToKernel.action := by
      apply List.mem_filterMap.mpr
      exact ⟨_, hmem, rfl⟩
    apply hnone _ haction rfl
  · intro hnone a ha hrefusal
    obtain ⟨b, hb, hab⟩ := List.mem_filterMap.mp ha
    cases b with
    | worker _ => cases hab
    | kernel b =>
        obtain rfl := Option.some.inj hab
        cases b with
        | output cpu room =>
            cases room with
            | false => apply hnone cpu hb
            | true => cases hrefusal
        | _ => cases hrefusal

/-- If the consumer stays connected, no frame finds the channel disconnected. -/
theorem disconnected_eq_zero {as : List SystemAction} {s : System}
    (h : system.run system.init as = some s)
    (hconnected : .worker (.trySend .disconnected) ∉ as) :
  s.worker.results .disconnected = 0
  := by
  have hrun : (worker 0).run (Worker.init 0) (as.filterMap systemToWorker.action)
      = some s.worker := systemToWorker.run h
  have hresults := results_run .disconnected hrun
  have hinit : (Worker.init 0).results .disconnected = 0 := rfl
  rw [hresults, hinit, Nat.zero_add, List.countP_eq_zero]
  intro a ha hresult
  obtain ⟨b, hb, hab⟩ := List.mem_filterMap.mp ha
  cases b with
  | kernel _ => cases hab
  | worker b =>
      obtain rfl := Option.some.inj hab
      cases b with
      | trySend result =>
          cases result with
          | disconnected => apply hconnected hb
          | _ => cases hresult
      | _ => cases hresult

/-- Once the ring and the batch are empty, a selected packet is in flight, lost or counted. -/
theorem selected_of_settled {as : List SystemAction} {s : System}
    (h : system.run system.init as = some s) (hconnected : .worker (.trySend .disconnected) ∉ as)
    (hsettled : s.Settled) :
  s.kernel.selected = s.kernel.inFlight.card + s.kernel.lost + s.counted
  := by
  have hs : system.Reachable s := ⟨as, h⟩
  have hselected := selected_eq hs
  have hring := hsettled.ring
  have hhand := inHand_of_settled hs hsettled
  have hpending : s.worker.pending.length = 0 := by
    rw [Worker.pending, hsettled.batch, List.tail_nil, ite_self, List.length_nil]
  have hdisconnected := disconnected_eq_zero h hconnected
  omega

/-- Whatever the kernel program has done before the worker starts, some run of the worker empties
the ring and the batch, with the consumer connected. -/
theorem exists_run_settled {as : List KernelAction} {k : Kernel}
    (h : kernel.run kernel.init as = some k) (result : SendResult)
    (hresult : result ≠ .disconnected) :
  ∃ (bs : List WorkerAction) (s : System),
    system.run system.init (as.map .kernel ++ bs.map .worker) = some s ∧ s.kernel = k
      ∧ .worker (.trySend .disconnected) ∉ as.map SystemAction.kernel ++ bs.map .worker ∧ s.Settled
  := by
  obtain ⟨bs, s, hrun, hkernel, hall, htop, hsends⟩ := exists_run_drain h fun _ => result
  have hworker := worker_reachable ⟨_, hrun⟩
  refine ⟨bs, s, hrun, hkernel, ?_, ?_, ?_⟩
  · intro hmem
    rcases List.mem_append.mp hmem with hmem | hmem
    · obtain ⟨_, -, ha⟩ := List.mem_map.mp hmem
      cases ha
    · obtain ⟨a, ha, heq⟩ := List.mem_map.mp hmem
      obtain rfl := SystemAction.worker.inj heq
      obtain ⟨_, houtcome⟩ := hsends _ ha
      apply hresult houtcome
  · rw [System.waiting, hall, hkernel, Nat.sub_self]
  · apply (roomy hworker).empty
    rw [htop]
    rfl

/-- In every run in which the consumer stays connected, whatever the packets, the interleaving and
the failures of `ring_output` and `try_send`: when the ring and the batch are empty, the counters
add up to the packets selected exactly if no call of `ring_output` has failed and no packet is
between its selection and its output. -/
theorem counted_eq_selected_iff {as : List SystemAction} {s : System}
    (h : system.run system.init as = some s) (hconnected : .worker (.trySend .disconnected) ∉ as)
    (hsettled : s.Settled) :
  s.counted = s.kernel.selected
    ↔ (∀ cpu, .kernel (.output cpu false) ∉ as) ∧ s.kernel.inFlight = ∅
  := by
  rw [← lost_eq_zero_iff h, ← Finset.card_eq_zero, selected_of_settled h hconnected hsettled]
  omega

/-- One packet is selected; its frame is taken off the ring and finds the channel full. -/
theorem counted_eq_selected_sampleRun :
  ∃ (as : List SystemAction) (s : System), system.run system.init as = some s
    ∧ .worker (.trySend .disconnected) ∉ as ∧ s.Settled
    ∧ s.kernel.selected = 1 ∧ s.counted = s.kernel.selected
  := by
  have hkernel : kernel.run Kernel.init (invocation 0 DenyMap.allowAll true samplePacket)
      = some (Kernel.init.invoke 0 (viewOf samplePacket accepted_samplePacket.1) true) :=
    run_invocation_of_passed accepted_samplePacket rfl (denyCheck_allowAll _) (by decide) true
  obtain ⟨bs, s, h, hs, hconnected, hsettled⟩ :=
    exists_run_settled hkernel .full (by decide)
  refine ⟨_, s, h, hconnected, hsettled, ?_, ?_⟩
  · rw [hs]
    rfl
  · apply (counted_eq_selected_iff h hconnected hsettled).mpr
    constructor
    · intro cpu hmem
      rcases List.mem_append.mp hmem with hmem | hmem
      · simp [invocation] at hmem
      · obtain ⟨_, -, ha⟩ := List.mem_map.mp hmem
        cases ha
    · rw [hs, ← inFlight_init, Kernel.inFlight, Kernel.inFlight, invoke_running rfl]

/-! ### A flood -/

/-- The calls of `ring_output` find room exactly if there is room on the ring. -/
def RoomAnswered (s : System) : SystemAction → Prop
  | .kernel (.output _ room) => room = ringHasRoom s.waiting
  | _ => True

/-- The first two steps of an invocation leave the ring alone. -/
theorem waiting_step {s s' : System} {a : KernelAction} (h : system.step s (.kernel a) = some s')
    (ha : ∀ cpu room, a ≠ .output cpu room) :
  s'.waiting = s.waiting
  := by
  cases systemStep_of_step h with
  | kernel hkernel =>
      cases kernelStep_of_step hkernel with
      | output room _ => cases ha _ room rfl
      | _ => rfl

/-- An invocation that is answered according to the items on the ring at its beginning. -/
theorem answered_invocation {s : System} (cpu : UInt32) (denyMap : DenyMap) {room : Bool}
    (pkt : List UInt8) (hroom : room = ringHasRoom s.waiting) :
  system.Meets RoomAnswered s ((invocation cpu denyMap room pkt).map .kernel)
  := by
  refine ⟨trivial, fun t hst => ⟨trivial, fun u htu => ⟨?_, fun _ _ => trivial⟩⟩⟩
  rw [RoomAnswered, waiting_step htu (by simp), waiting_step hst (by simp)]
  apply hroom

/-- Invocations of CPU 0 on copies of the sample packet. -/
def flood (rooms : List Bool) : List KernelAction :=
  rooms.flatMap fun room => invocation 0 DenyMap.allowAll room samplePacket

/-- While the worker takes nothing, the ring has room for `n` more frames if it holds `3640 - n`. -/
theorem answered_flood {n : ℕ} {s : System} (hconsumed : s.consumed = 0)
    (hring : s.kernel.ring.length + n = 3640) (hidle : s.kernel.running 0 = .idle)
    (hlt : (s.kernel.counters 0).count + n < maxpps) :
  system.Meets RoomAnswered s ((flood (List.replicate n true ++ [false])).map .kernel)
  := by
  have hwaiting : s.waiting = s.kernel.ring.length := by
    rw [System.waiting, hconsumed, Nat.sub_zero]
  induction n generalizing s with
  | zero =>
      rw [flood, List.replicate_zero, List.nil_append, List.flatMap_singleton]
      apply answered_invocation
      rw [ringHasRoom_eq, hwaiting, decide_eq_false (by omega)]
  | succ n ih =>
      rw [flood, List.replicate_succ, List.cons_append, List.flatMap_cons, List.map_append]
      apply LTS.Meets.append
      · apply answered_invocation
        rw [ringHasRoom_eq, hwaiting, decide_eq_true (by omega)]
      · intro t ht
        have hfirst : (s.kernel.counters 0).count < maxpps := by omega
        rw [run_kernel (run_invocation_of_passed accepted_samplePacket hidle (denyCheck_allowAll _)
          hfirst true)] at ht
        obtain rfl := Option.some.inj ht
        have hlength :
            (s.kernel.invoke 0 (viewOf samplePacket accepted_samplePacket.1) true).ring.length
              = s.kernel.ring.length + 1 := List.length_append
        apply ih
        · apply hconsumed
        · simp only [hlength]
          omega
        · simp only [invoke_running hidle, hidle]
        · simp only [invoke_counters, Function.update_self, count_advance hfirst]
          omega
        · simp only [System.waiting, hconsumed, Nat.sub_zero]

/-- The flood is a run of the kernel program, and it ends with no packet in flight. -/
theorem run_flood {n : ℕ} (hlt : n < maxpps) :
  ∃ k, kernel.run kernel.init (flood (List.replicate n true ++ [false])) = some k
    ∧ k.inFlight = ∅
  := by
  have hcount : (Kernel.init.counters 0).count + (List.replicate n true ++ [false]).length ≤ maxpps := by
    have hinit : (Kernel.init.counters 0).count = 0 := rfl
    rw [hinit, List.length_append, List.length_replicate, List.length_singleton]
    omega
  refine ⟨_, run_invocations accepted_samplePacket (denyCheck_allowAll _) rfl hcount, ?_⟩
  rw [← inFlight_init, Kernel.inFlight, Kernel.inFlight, invokeAll_running _ rfl]
  rfl

/-- Before the worker starts, 3641 packets arrive.  The ring has room for the frames of the first
3640, and the last is lost.  When the worker has drained the ring, the counters miss it. -/
theorem counted_ne_selected_flood :
  ∃ (as : List SystemAction) (s : System), system.run system.init as = some s
    ∧ system.Meets RoomAnswered system.init as ∧ .worker (.trySend .disconnected) ∉ as ∧ s.Settled
    ∧ s.kernel.inFlight = ∅ ∧ s.counted ≠ s.kernel.selected
  := by
  obtain ⟨k, hkernel, hidle⟩ := run_flood (n := 3640) (by decide)
  obtain ⟨bs, s, h, rfl, hconnected, hsettled⟩ :=
    exists_run_settled hkernel .ok (by decide)
  refine ⟨_, s, h, ?_, hconnected, hsettled, hidle, ?_⟩
  · apply LTS.Meets.append
    · apply answered_flood rfl rfl rfl (by decide)
    · intro t _
      apply LTS.Meets.of_forall
      intro a ha t
      obtain ⟨_, -, rfl⟩ := List.mem_map.mp ha
      trivial
  · intro heq
    have hlost : s.kernel.lost = 0 := by
      have hselected := selected_of_settled h hconnected hsettled
      omega
    apply (lost_eq_zero_iff h).mp hlost 0
    apply List.mem_append_left
    apply List.mem_map_of_mem
    apply List.mem_flatMap.mpr
    use false
    constructor
    · apply List.mem_append_right _ (List.mem_singleton_self false)
    · exact List.mem_cons_of_mem _ (List.mem_cons_of_mem _ (List.mem_singleton_self _))

end Pipeline
