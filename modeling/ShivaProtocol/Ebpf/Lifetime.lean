import Mathlib.Algebra.Order.BigOperators.Group.Finset
import ShivaProtocol.Ebpf.Sequence

/-!
# The lifetime of the kernel program

The rate counters are never reset, so they count the packets selected since the program was loaded
(`selected_eq_sum`), and each of them stops at a million.  A run in which packets arrive on `n` CPUs
selects at most `n` million packets in all; once it has selected as many, it selects nothing any
more, whatever arrives (`lifetime`).
-/

open SgCommon

namespace SgEbpf

/-- The CPUs on which packets arrive are among those given. -/
def ArrivesOn (cpus : Finset UInt32) (as : List KernelAction) : Prop :=
  ∀ cpu pkt denyMap, .ingress cpu pkt denyMap ∈ as → cpu ∈ cpus

theorem ArrivesOn.append {cpus : Finset UInt32} {as bs : List KernelAction}
    (has : ArrivesOn cpus as) (hbs : ArrivesOn cpus bs) :
  ArrivesOn cpus (as ++ bs)
  := by
  intro cpu pkt denyMap h
  rcases List.mem_append.mp h with h | h
  · apply has cpu pkt denyMap h
  · apply hbs cpu pkt denyMap h

/-- Advancing the counter of one CPU advances the sum. -/
theorem sum_count_update {cpus : Finset UInt32} {cpu : UInt32} (hcpu : cpu ∈ cpus)
    {counters : UInt32 → PpsCounters} {advanced : PpsCounters}
    (h : advanced.count = (counters cpu).count + 1) :
  ∑ c ∈ cpus, (Function.update counters cpu advanced c).count = (∑ c ∈ cpus, (counters c).count) + 1
  := by
  have hrest : ∑ c ∈ cpus.erase cpu, (Function.update counters cpu advanced c).count
      = ∑ c ∈ cpus.erase cpu, (counters c).count := by
    apply Finset.sum_congr rfl
    intro c hc
    rw [Function.update_of_ne (Finset.ne_of_mem_erase hc)]
  rw [← Finset.add_sum_erase _ _ hcpu, ← Finset.add_sum_erase _ _ hcpu, hrest, Function.update_self,
    h]
  omega

/-- The counters of the CPUs on which packets arrive count the packets selected. -/
theorem selected_eq_sum {cpus : Finset UInt32} {as : List KernelAction} {k : Kernel}
    (h : kernel.run kernel.init as = some k) (has : ArrivesOn cpus as) :
  k.selected = ∑ c ∈ cpus, (k.counters c).count
  := by
  have hmeets : kernel.Meets
      (fun _ a => ∀ cpu pkt denyMap, a = .ingress cpu pkt denyMap → cpu ∈ cpus) kernel.init as := by
    apply LTS.Meets.of_forall
    rintro a ha _ cpu pkt denyMap rfl
    apply has cpu pkt denyMap ha
  apply hmeets.invariant (P := fun k => k.selected = ∑ c ∈ cpus, (k.counters c).count) _ _ h
  · intro k a k' hok ih hst
    cases kernelStep_of_step hst with
    | foreign _ _ => apply ih
    | denied _ _ _ => apply ih
    | limited _ _ _ _ => apply ih
    | accepted _ _ _ _ hcount =>
        rw [Kernel.selected_accept, Kernel.accept_counters,
          sum_count_update (hok _ _ _ rfl) hcount, ih]
    | stamp _ => apply ih
    | output _ _ =>
        rw [Kernel.selected_emit]
        apply ih
    | tick _ => apply ih
  · have hzero (c : UInt32) : (kernel.init.counters c).count = 0 := rfl
    simp only [hzero, Finset.sum_const_zero]
    rfl

theorem selected_le {cpus : Finset UInt32} {as : List KernelAction} {k : Kernel}
    (h : kernel.run kernel.init as = some k) (has : ArrivesOn cpus as) :
  k.selected ≤ maxpps * cpus.card
  := by
  rw [selected_eq_sum h has, Nat.mul_comm]
  apply Finset.sum_le_card_nsmul
  intro c _
  apply (sequenced ⟨as, h⟩ c).limit

/-- Packets selected stay selected, and frames lost stay lost. -/
theorem selected_mono {as : List KernelAction} {k k' : Kernel} (h : kernel.run k as = some k') :
  k.selected ≤ k'.selected ∧ k.lost ≤ k'.lost
  := by
  apply kernel.run_rel (fun k k' => k.selected ≤ k'.selected ∧ k.lost ≤ k'.lost) _ _ _ h
  · intro k
    exact ⟨le_rfl, le_rfl⟩
  · rintro k l m ⟨hkl, hkl'⟩ ⟨hlm, hlm'⟩
    exact ⟨hkl.trans hlm, hkl'.trans hlm'⟩
  · intro k a k' hst
    constructor
    · cases kernelStep_of_step hst with
      | accepted _ _ _ _ _ =>
          rw [Kernel.selected_accept]
          apply Nat.le_succ
      | output _ _ => rw [Kernel.selected_emit]
      | _ => apply le_rfl
    · rw [lost_step hst]
      apply Nat.le_add_right

/-- In every run in which packets arrive on some CPUs only, at most a million packets are selected
for each of these CPUs, however long the run lasts; and once as many are selected, no continuation
selects a packet or commits a frame, except for the frames that are under way. -/
theorem lifetime {cpus : Finset UInt32} {as : List KernelAction} {k : Kernel}
    (h : kernel.run kernel.init as = some k) (has : ArrivesOn cpus as) :
  k.selected ≤ 1000000 * cpus.card
    ∧ (k.selected = 1000000 * cpus.card → ∀ bs k', kernel.run k bs = some k' → ArrivesOn cpus bs →
      k'.selected = k.selected
        ∧ k'.committed.length ≤ k.committed.length + k.inFlight.card)
  := by
  have hle := selected_le h has
  rw [maxpps] at hle
  refine ⟨hle, ?_⟩
  intro hfull bs k' hrun hbs
  have hrun' := LTS.run_trans h hrun
  have hle' := selected_le hrun' (has.append hbs)
  rw [maxpps] at hle'
  have hmono := selected_mono hrun
  have hselected := selected_accounting ⟨as, h⟩
  have hselected' := selected_accounting ⟨as ++ bs, hrun'⟩
  constructor
  · omega
  · omega

/-! ### A CPU that has fallen silent -/

theorem selected_invokeAll (k : Kernel) (cpu : UInt32) (view : ProtoView) (rooms : List Bool) :
  (k.invokeAll cpu view rooms).selected = k.selected + rooms.length
  := by
  induction rooms generalizing k with
  | nil => rfl
  | cons room rooms ih =>
      have hfirst : (k.invoke cpu view room).selected = k.selected + 1 := by
        rw [Kernel.invoke, Kernel.selected_emit]
        apply Kernel.selected_accept k cpu (k.counters cpu).advance view
      have hrest := ih (k.invoke cpu view room)
      rw [hfirst] at hrest
      rw [List.length_cons]
      apply hrest.trans
      omega

/-- Up to a million packets that pass, all of them on CPU 0, are selected. -/
theorem exists_run_selected {n : ℕ} (h : n ≤ maxpps) :
  ∃ as k, kernel.run kernel.init as = some k ∧ ArrivesOn {0} as ∧ k.selected = n
  := by
  have hcount : (Kernel.init.counters 0).count + (List.replicate n true).length ≤ maxpps := by
    have hinit : (Kernel.init.counters 0).count = 0 := rfl
    rw [hinit, List.length_replicate, Nat.zero_add]
    apply h
  refine ⟨_, _, run_invocations accepted_samplePacket (denyCheck_allowAll _) rfl hcount, ?_, ?_⟩
  · intro cpu pkt denyMap hmem
    obtain ⟨room, -, hmem⟩ := List.mem_flatMap.mp hmem
    simp_all [invocation]
  · rw [selected_invokeAll, List.length_replicate]
    apply Nat.zero_add

/-- After a million packets on CPU 0, no packet on CPU 0 is selected. -/
theorem lifetime_spent :
  ∃ as k, kernel.run kernel.init as = some k ∧ k.selected = 1000000
    ∧ k.selected ≤ 1000000 * ({0} : Finset UInt32).card
    ∧ ∀ bs k', kernel.run k bs = some k' → ArrivesOn {0} bs → k'.selected = k.selected
  := by
  obtain ⟨as, k, h, has, hselected⟩ := exists_run_selected (n := maxpps) le_rfl
  obtain ⟨hle, hsilent⟩ := lifetime h has
  rw [maxpps] at hselected
  refine ⟨as, k, h, hselected, hle, ?_⟩
  intro bs k' hrun hbs
  have hcard : ({0} : Finset UInt32).card = 1 := Finset.card_singleton 0
  apply (hsilent (by rw [hselected, hcard]) bs k' hrun hbs).1

end SgEbpf
