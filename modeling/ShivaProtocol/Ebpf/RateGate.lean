import Mathlib.Data.List.Forall2
import Mathlib.Data.List.Perm.Subperm
import Mathlib.Data.List.Range
import ShivaProtocol.Ebpf.Filter

/-!
# The rate gate over a run

The packets parsed on one CPU, one after the other, each with the time of its arrival and the
content of the deny map at that time.  A run is compliant if no second contains more than
`maxpps` packets that pass the deny check.  The gate is meant to refuse no packet of a compliant
run; as its counter is never reset, it refuses none exactly if the whole run contains at most
`maxpps` packets that pass the deny check (`neverRefuses_iff`).
-/

namespace SgEbpf

/-- A parsed packet with its arrival time and the content of the deny map it meets. -/
structure Arrival where
  timeNs : ℕ
  denyMap : DenyMap
  view : ProtoView

/-- Whether a packet passes the deny check. -/
def Arrival.passes (a : Arrival) : Bool :=
  !denyCheck a.denyMap a.view.flowHash

/-- The verdicts of the filter on the packets of a run, from the given counter. -/
def selectAll : PpsCounters → List Arrival → List (Option FilterResult)
  | _, [] => []
  | counters, a :: as =>
      (select a.denyMap counters a.view).1 :: selectAll (select a.denyMap counters a.view).2 as

/-- One second in nanoseconds. -/
def secondNs : ℕ := 1000000000

/-- Whether a packet passes the deny check within the second from `t` on. -/
def Arrival.passesWithin (t : ℕ) (a : Arrival) : Bool :=
  a.passes && decide (t ≤ a.timeNs ∧ a.timeNs < t + secondNs)

/-- Time does not go backwards in the run, and no second contains more than `maxpps` packets
that pass the deny check. -/
structure Compliant (as : List Arrival) : Prop where
  sorted : as.Pairwise fun a b => a.timeNs ≤ b.timeNs
  rate : ∀ t, as.countP (Arrival.passesWithin t) ≤ maxpps

/-- From the given counter, every packet of the run that passes the deny check is selected. -/
def NeverRefusesFrom (counters : PpsCounters) (as : List Arrival) : Prop :=
  List.Forall₂ (fun a verdict => a.passes = true → verdict.isSome = true) as
    (selectAll counters as)

/-- Every packet of the run that passes the deny check is selected. -/
def NeverRefuses (as : List Arrival) : Prop :=
  NeverRefusesFrom PpsCounters.zero as

theorem neverRefusesFrom_cons {counters counters' : PpsCounters} {a : Arrival}
    {verdict : Option FilterResult} (h : select a.denyMap counters a.view = (verdict, counters'))
    (as : List Arrival) :
  NeverRefusesFrom counters (a :: as)
    ↔ (a.passes = true → verdict.isSome = true) ∧ NeverRefusesFrom counters' as
  := by rw [NeverRefusesFrom, selectAll, h, List.forall₂_cons, NeverRefusesFrom]

theorem passes_eq {a : Arrival} {b : Bool} (h : denyCheck a.denyMap a.view.flowHash = b) :
  a.passes = !b
  := by rw [Arrival.passes, h]

/-- The gate refuses no packet exactly if what is left up to the threshold suffices for all
packets that pass the deny check. -/
theorem neverRefusesFrom_iff (counters : PpsCounters) (as : List Arrival) :
  NeverRefusesFrom counters as
    ↔ as.countP Arrival.passes = 0 ∨ counters.count + as.countP Arrival.passes ≤ maxpps
  := by
  induction as generalizing counters with
  | nil => simp [NeverRefusesFrom, selectAll]
  | cons a as ih =>
      rcases h : select a.denyMap counters a.view with ⟨verdict, counters'⟩
      rw [neverRefusesFrom_cons h, ih]
      rcases select_cases h with ⟨hdeny, rfl, rfl⟩ | ⟨hpass, hfull, rfl, rfl⟩ |
        ⟨hpass, hlt, rfl, hcount⟩
      · have hp : a.passes = false := passes_eq hdeny
        rw [List.countP_cons_of_neg (by rw [hp]; decide)]
        simp [hp]
      · have hp : a.passes = true := passes_eq hpass
        rw [List.countP_cons_of_pos hp]
        simp [hp]
        omega
      · have hp : a.passes = true := passes_eq hpass
        rw [List.countP_cons_of_pos hp, hcount]
        simp only [Option.isSome_some, implies_true, true_and]
        omega

/-- The gate refuses no packet of a run exactly if the run contains at most `maxpps` packets
that pass the deny check, over however many seconds they are spread. -/
theorem neverRefuses_iff (as : List Arrival) :
  NeverRefuses as ↔ as.countP Arrival.passes ≤ maxpps
  := by
  have hzero : PpsCounters.zero.count = 0 := rfl
  rw [NeverRefuses, neverRefusesFrom_iff, hzero]
  omega

/-! ### One packet per second -/

/-- A run of `n` packets, one per second, that no deny map refuses. -/
def onePerSecond (n : ℕ) : List Arrival :=
  (List.range n).map fun i =>
    ⟨i * secondNs, DenyMap.allowAll, viewOf samplePacket accepted_samplePacket.1⟩

theorem countP_passes_onePerSecond (n : ℕ) :
  (onePerSecond n).countP Arrival.passes = n
  := by
  rw [List.countP_eq_length.mpr]
  · simp [onePerSecond]
  · intro a ha
    obtain ⟨i, -, rfl⟩ := List.mem_map.mp ha
    simp [Arrival.passes]

/-- Of packets arriving one second apart, a second contains at most one. -/
theorem compliant_onePerSecond (n : ℕ) :
  Compliant (onePerSecond n)
  := by
  constructor
  · apply List.pairwise_map.mpr
    apply List.pairwise_le_range.imp
    intro i j hij
    apply Nat.mul_le_mul_right _ hij
  · intro t
    have hsub : ((List.range n).filter fun i => decide (t ≤ i * secondNs ∧ i * secondNs < t + secondNs))
        ⊆ [(t + secondNs - 1) / secondNs] := by
      intro i hi
      have hwindow := of_decide_eq_true (List.mem_filter.mp hi).2
      rw [secondNs] at hwindow ⊢
      rw [List.mem_singleton]
      omega
    have hlen := (List.nodup_range.filter _).subperm hsub |>.length_le
    rw [onePerSecond, List.countP_map, List.countP_eq_length_filter]
    have hone : 1 ≤ maxpps := by decide
    apply le_trans _ (le_trans hlen hone)
    apply List.Sublist.length_le
    apply List.monotone_filter_right
    intro i hi
    simp_all [Arrival.passesWithin]

/-- A run of one packet per second is compliant, yet the gate refuses its packet number
1000001. -/
theorem onePerSecond_refused :
  Compliant (onePerSecond 1000001) ∧ ¬ NeverRefuses (onePerSecond 1000001)
  := by
  constructor
  · apply compliant_onePerSecond
  · have hzero : PpsCounters.zero.count = 0 := rfl
    rw [NeverRefuses, neverRefusesFrom_iff, countP_passes_onePerSecond, hzero, maxpps]
    omega

end SgEbpf
