import ShivaProtocol.Ebpf.History
import ShivaProtocol.Ebpf.Ipv4

/-!
# What the deny list stops, and what the program sees

Once the deny list denies some flows, the program commits no frame of these flows any more, except
for the invocations that are under way and have passed the deny check before
(`committed_add_underway_le`).  Of a packet, the program sees only the bytes 12 to 37, and only if
the parser accepts it: the steps of the program are the same if all other bytes are blanked
(`step_redact`).
-/

open Bytes SgCommon

namespace SgEbpf

/-! ### Denied flows -/

/-- All packets of a run meet a deny map that denies the given flow hashes. -/
def Denies (flows : UInt64 → Bool) (as : List KernelAction) : Prop :=
  ∀ cpu pkt denyMap, .ingress cpu pkt denyMap ∈ as →
    ∀ flowHash, flows flowHash = true → denyCheck denyMap flowHash = true

/-- Whether a frame is of one of the given flows. -/
def isOf (flows : UInt64 → Bool) (frame : SignalFrame) : Bool :=
  flows frame.flowHash

/-- Whether an invocation is about one of the given flows. -/
def Invocation.isOf (flows : UInt64 → Bool) : Invocation → Bool
  | .idle => false
  | .selected _ result => flows result.flowHash
  | .stamped frame => SgEbpf.isOf flows frame

/-- The CPUs with an invocation under way that is about one of the given flows. -/
def Kernel.underway (flows : UInt64 → Bool) (k : Kernel) : Finset UInt32 :=
  {cpu | (k.running cpu).isOf flows = true}

section Underway

variable {flows : UInt64 → Bool} {k k' : Kernel} {cpu : UInt32} {i : Invocation}

/-- A CPU whose invocation goes on with the same flow. -/
theorem underway_of_eq (hrunning : k'.running = Function.update k.running cpu i)
    (hi : i.isOf flows = (k.running cpu).isOf flows) :
  k'.underway flows = k.underway flows
  := by
  ext c
  rw [Kernel.underway, Kernel.underway, Finset.mem_filter_univ, Finset.mem_filter_univ, hrunning]
  by_cases hc : c = cpu
  · rw [hc, Function.update_self, hi]
  · rw [Function.update_of_ne hc]

/-- A CPU whose invocation ends. -/
theorem underway_of_idle (hrunning : k'.running = Function.update k.running cpu .idle) :
  k'.underway flows = (k.underway flows).erase cpu
  := by
  ext c
  rw [Finset.mem_erase, Kernel.underway, Kernel.underway, Finset.mem_filter_univ,
    Finset.mem_filter_univ, hrunning]
  by_cases hc : c = cpu
  · rw [hc, Function.update_self]
    simp [Invocation.isOf]
  · rw [Function.update_of_ne hc]
    simp [hc]

/-- Outputting a frame of the given flows takes its CPU off those under way. -/
theorem card_underway_of_output {frame : SignalFrame} (hstamped : k.running cpu = .stamped frame)
    (hrunning : k'.running = Function.update k.running cpu .idle) :
  (k'.underway flows).card + (isOf flows frame).toNat = (k.underway flows).card
  := by
  have hmem : cpu ∈ k.underway flows ↔ isOf flows frame = true := by
    rw [Kernel.underway, Finset.mem_filter_univ, hstamped]
    rfl
  rw [underway_of_idle hrunning]
  cases hframe : isOf flows frame with
  | true => apply Finset.card_erase_add_one (hmem.mpr hframe)
  | false =>
      have hnot : cpu ∉ k.underway flows := by
        rw [hmem, hframe]
        apply Bool.false_ne_true
      rw [Finset.erase_eq_of_notMem hnot, Bool.toNat_false, Nat.add_zero]

end Underway

/-- While some flows are denied, a step commits no more frames of these flows than it ends
invocations about them. -/
theorem committed_add_underway_step {flows : UInt64 → Bool} {k k' : Kernel} {a : KernelAction}
    (hdeny : Denies flows [a]) (h : kernel.step k a = some k') :
  k'.committed.countP (isOf flows) + (k'.underway flows).card
    ≤ k.committed.countP (isOf flows) + (k.underway flows).card
  := by
  cases kernelStep_of_step h with
  | @accepted cpu pkt denyMap _ hacc hidle hpass _ _ =>
      have hnot : flows (viewOf pkt hacc.1).flowHash = false := by
        rw [Bool.eq_false_iff]
        intro hflow
        have hdenied := hdeny cpu pkt denyMap (List.mem_singleton_self _) _ hflow
        cases hdenied.symm.trans hpass
      rw [Kernel.committed_accept, underway_of_eq (Kernel.accept_running _ _ _ _ _)]
      rw [hidle]
      apply hnot
  | stamp hselected =>
      rw [underway_of_eq (Kernel.prepare_running _ _ _)]
      · rfl
      · rw [hselected]
        rfl
  | @output cpu frame room hstamped =>
      have hcard : ((k.emit cpu frame room).underway flows).card + (isOf flows frame).toNat
          = (k.underway flows).card :=
        card_underway_of_output hstamped (Kernel.emit_running k cpu frame room)
      rw [Kernel.committed_emit, List.countP_append]
      cases room with
      | true =>
          rw [if_pos rfl, LTS.countP_cons, List.countP_nil]
          omega
      | false =>
          rw [if_neg Bool.false_ne_true, List.countP_nil]
          omega
  | _ => apply le_refl

/-- While some flows are denied, no more frames of these flows are committed than there are
invocations about them under way when the denial begins. -/
theorem committed_add_underway_le {flows : UInt64 → Bool} {as : List KernelAction} {k k' : Kernel}
    (hdeny : Denies flows as) (h : kernel.run k as = some k') :
  k'.committed.countP (isOf flows) + (k'.underway flows).card
    ≤ k.committed.countP (isOf flows) + (k.underway flows).card
  := by
  induction as generalizing k with
  | nil =>
      obtain rfl := Option.some.inj h
      apply le_refl
  | cons a as ih =>
      obtain ⟨t, hst, htk⟩ := LTS.run_cons_some h
      apply le_trans (ih _ htk) (committed_add_underway_step _ hst)
      · intro cpu pkt denyMap hmem
        apply hdeny cpu pkt denyMap (List.mem_cons_of_mem a hmem)
      · intro cpu pkt denyMap hmem
        apply hdeny cpu pkt denyMap
        rw [List.mem_singleton.mp hmem]
        apply List.mem_cons_self

/-! ### Redacted packets -/

/-- A packet without all that the program does not look at: nothing is left of a packet the parser
rejects, and the bytes 12 to 37 of any other. -/
def redact (pkt : List UInt8) : List UInt8 :=
  if Accepted pkt then List.replicate 12 0 ++ slice pkt 12 26 ++ List.replicate 16 0 else []

theorem redact_of_accepted {pkt : List UInt8} (h : Accepted pkt) :
  54 ≤ (redact pkt).length ∧ slice (redact pkt) 12 26 = slice pkt 12 26
  := by
  have hlength : (slice pkt 12 26).length = 26 := length_slice (by have := h.1; omega)
  rw [redact, if_pos h]
  constructor
  · simp [hlength]
  · rw [List.append_assoc, slice]
    simp [hlength]

/-- The parser returns the same for a redacted packet. -/
theorem inspect_redact (pkt : List UInt8) :
  inspect (redact pkt) = inspect pkt
  := by
  by_cases h : Accepted pkt
  · obtain ⟨hlength, hslice⟩ := redact_of_accepted h
    have hredact : Accepted (redact pkt) := by
      apply accepted_congr h hlength
      rw [slice_congr hslice.symm (by decide) (by decide)]
    rw [inspect_of_accepted h, inspect_of_accepted hredact,
      ReadFrom.congr (readFrom_viewOf hlength) (readFrom_viewOf h.1) hslice]
  · have hredact : ¬ Accepted (redact pkt) := by
      rw [redact, if_neg h]
      decide
    rw [inspect_eq, inspect_eq, dif_neg h, dif_neg hredact]

/-- An action of the program with its packet redacted. -/
def KernelAction.redact : KernelAction → KernelAction
  | .ingress cpu pkt denyMap => .ingress cpu (SgEbpf.redact pkt) denyMap
  | a => a

/-- A step of the program is the same for a redacted packet. -/
theorem step_redact (k : Kernel) (a : KernelAction) :
  kernel.step k a.redact = kernel.step k a
  := by
  cases a with
  | ingress cpu pkt denyMap => simp only [kernel, KernelAction.redact, Kernel.step, inspect_redact]
  | _ => rfl

end SgEbpf
