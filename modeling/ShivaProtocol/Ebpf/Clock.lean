import ShivaProtocol.Ebpf.Lifetime

/-!
# The clock readings of the CPUs

A CPU reads the clock before it outputs its frame, and it runs one invocation at a time.  So no
frame is from the future, and the frames that one CPU commits are in the order of their timestamps
(`timed`).  Frames are only committed by CPUs on which packets arrive (`confined`).  A CPU that
reads the clock after a frame has been committed reads no earlier time; so a frame overtakes at most
one frame of every other CPU, the one that the CPU has in hand when the frame is committed
(`overtaking`).
-/

open SgCommon

namespace SgEbpf

/-- What is stamped after the invocation of one CPU has changed to one without a stamp. -/
theorem stamped_of_update {k : Kernel} {cpu c : UInt32} {i : Invocation} {frame : SignalFrame}
    (hi : ∀ f, i ≠ .stamped f) (h : Function.update k.running cpu i c = .stamped frame) :
  c ≠ cpu ∧ k.running c = .stamped frame
  := by
  rw [Function.update_apply] at h
  split at h
  · cases hi frame h
  · rename_i hne
    exact ⟨hne, h⟩

/-- What a step does to the stamps and to the ring: it stamps nothing and commits nothing, it stamps
a frame with the time of the clock, or it commits the frame that a CPU has stamped. -/
inductive Stamping (k k' : Kernel) : Prop where
  | quiet : k'.committed = k.committed →
      (∀ c f, k'.running c = .stamped f → k.running c = .stamped f) → k.clock ≤ k'.clock →
      Stamping k k'
  | stamp {cpu view result} : k' = k.prepare cpu (buildFrame cpu view result k.clock) →
      Stamping k k'
  | commit {cpu f} : k.running cpu = .stamped f → k' = k.emit cpu f true → Stamping k k'

theorem stamping_of_step {k k' : Kernel} {a : KernelAction} (h : kernel.step k a = some k') :
  Stamping k k'
  := by
  cases kernelStep_of_step h with
  | accepted _ _ _ _ _ =>
      refine Stamping.quiet (Kernel.committed_accept _ _ _ _ _) ?_ (UInt64.le_refl _)
      intro c f hf
      apply (stamped_of_update (by simp) hf).2
  | stamp _ => apply Stamping.stamp rfl
  | @output cpu f room hrunning =>
      cases room with
      | true => apply Stamping.commit hrunning rfl
      | false =>
          refine Stamping.quiet ?_ ?_ (UInt64.le_refl _)
          · rw [Kernel.committed_emit]
            apply List.append_nil
          · intro c g hg
            apply (stamped_of_update (by simp) hg).2
  | tick hle => exact Stamping.quiet rfl (fun _ _ hf => hf) hle
  | _ => apply Stamping.quiet rfl (fun _ _ hf => hf) (UInt64.le_refl _)

/-- No frame is from the future, the frames of a CPU are committed in the order of their timestamps,
and the frame a CPU is about to output comes after those it has committed. -/
structure Timed (k : Kernel) : Prop where
  past : ∀ frame ∈ k.committed, frame.timestampNs ≤ k.clock
  sorted : k.committed.Pairwise fun a b => a.cpuId = b.cpuId → a.timestampNs ≤ b.timestampNs
  cpuId : ∀ c frame, k.running c = .stamped frame → frame.cpuId = c
  stamped : ∀ c frame, k.running c = .stamped frame → frame.timestampNs ≤ k.clock
  next : ∀ c frame, k.running c = .stamped frame → ∀ earlier ∈ k.committed, earlier.cpuId = c →
    earlier.timestampNs ≤ frame.timestampNs

/-- A step that commits nothing, stamps nothing, and does not turn back the clock. -/
theorem Timed.frame {k k' : Kernel} (h : Timed k) (hcommitted : k'.committed = k.committed)
    (hrunning : ∀ c frame, k'.running c = .stamped frame → k.running c = .stamped frame)
    (hclock : k.clock ≤ k'.clock) :
  Timed k'
  := by
  constructor
  · intro frame hframe
    rw [hcommitted] at hframe
    apply UInt64.le_trans (h.past frame hframe) hclock
  · rw [hcommitted]
    apply h.sorted
  · intro c frame hframe
    apply h.cpuId c frame (hrunning c frame hframe)
  · intro c frame hframe
    apply UInt64.le_trans (h.stamped c frame (hrunning c frame hframe)) hclock
  · intro c frame hframe
    rw [hcommitted]
    apply h.next c frame (hrunning c frame hframe)

/-- Reading the clock. -/
theorem Timed.stamp {k : Kernel} (h : Timed k) (cpu : UInt32) (view : ProtoView)
    (result : FilterResult) :
  Timed (k.prepare cpu (buildFrame cpu view result k.clock))
  := by
  have hcases : ∀ c frame,
      (k.prepare cpu (buildFrame cpu view result k.clock)).running c = .stamped frame →
      (c = cpu ∧ frame = buildFrame cpu view result k.clock) ∨ k.running c = .stamped frame := by
    intro c frame hframe
    rw [Kernel.prepare_running, Function.update_apply] at hframe
    split at hframe
    · rename_i hc
      left
      exact ⟨hc, (Invocation.stamped.inj hframe).symm⟩
    · right
      apply hframe
  constructor
  · apply h.past
  · apply h.sorted
  · intro c frame hframe
    rcases hcases c frame hframe with ⟨rfl, rfl⟩ | hold
    · rfl
    · apply h.cpuId c frame hold
  · intro c frame hframe
    rcases hcases c frame hframe with ⟨rfl, rfl⟩ | hold
    · apply UInt64.le_refl
    · apply h.stamped c frame hold
  · intro c frame hframe earlier hearlier hcpu
    rcases hcases c frame hframe with ⟨rfl, rfl⟩ | hold
    · apply h.past earlier hearlier
    · apply h.next c frame hold earlier hearlier hcpu

/-- Committing a frame. -/
theorem Timed.commit {k : Kernel} (h : Timed k) {cpu : UInt32} {frame : SignalFrame}
    (hst : k.running cpu = .stamped frame) :
  Timed (k.emit cpu frame true)
  := by
  have hcommitted : (k.emit cpu frame true).committed = k.committed ++ [frame] :=
    Kernel.committed_emit k cpu frame true
  have hcpu := h.cpuId cpu frame hst
  constructor
  · intro f hf
    rw [hcommitted, List.mem_append, List.mem_singleton] at hf
    rcases hf with hf | rfl
    · apply h.past f hf
    · apply h.stamped cpu f hst
  · rw [hcommitted, List.pairwise_append]
    refine ⟨h.sorted, List.pairwise_singleton _ _, fun a ha b hb hab => ?_⟩
    obtain rfl := List.mem_singleton.mp hb
    apply h.next cpu b hst a ha (hab.trans hcpu)
  · intro c f hf
    apply h.cpuId c f (stamped_of_update (by simp) hf).2
  · intro c f hf
    apply h.stamped c f (stamped_of_update (by simp) hf).2
  · intro c f hf earlier hearlier hc
    obtain ⟨hne, hold⟩ := stamped_of_update (by simp) hf
    rw [hcommitted, List.mem_append, List.mem_singleton] at hearlier
    rcases hearlier with hearlier | rfl
    · apply h.next c f hold earlier hearlier hc
    · cases hne (hc.symm.trans hcpu)

theorem timed {k : Kernel} (hk : kernel.Reachable k) :
  Timed k
  := by
  apply hk.invariant
  · constructor
    · intro frame hframe
      cases hframe
    · apply List.Pairwise.nil
    · intro c frame hframe
      cases hframe
    · intro c frame hframe
      cases hframe
    · intro c frame hframe
      cases hframe
  · intro k a k' _ ih hst
    cases stamping_of_step hst with
    | quiet hcommitted hrunning hclock => apply ih.frame hcommitted hrunning hclock
    | stamp hk =>
        rw [hk]
        apply ih.stamp
    | commit hrunning hk =>
        rw [hk]
        apply ih.commit hrunning

/-! ### The CPUs that commit -/

/-- The CPUs on which an invocation runs, and those that have committed a frame, are among those
given. -/
structure Confined (cpus : Finset UInt32) (k : Kernel) : Prop where
  busy : ∀ c, (k.running c).busy = true → c ∈ cpus
  committed : ∀ frame ∈ k.committed, frame.cpuId ∈ cpus

/-- A change of the invocation of one of the CPUs. -/
theorem busy_update {cpus : Finset UInt32} {k : Kernel} {cpu : UInt32} {i : Invocation}
    (h : Confined cpus k) (hi : i.busy = true → cpu ∈ cpus) (c : UInt32)
    (hc : (Function.update k.running cpu i c).busy = true) :
  c ∈ cpus
  := by
  rw [Function.update_apply] at hc
  split at hc
  · rename_i heq
    rw [heq]
    apply hi hc
  · apply h.busy c hc

/-- If packets arrive on some CPUs only, only these commit frames. -/
theorem confined {cpus : Finset UInt32} {as : List KernelAction} {k : Kernel}
    (h : kernel.run kernel.init as = some k) (has : ArrivesOn cpus as) :
  Confined cpus k
  := by
  have hmeets : kernel.Meets
      (fun _ a => ∀ cpu pkt denyMap, a = .ingress cpu pkt denyMap → cpu ∈ cpus) kernel.init as := by
    apply LTS.Meets.of_forall
    rintro a ha _ cpu pkt denyMap rfl
    apply has cpu pkt denyMap ha
  have hboth : kernel.Reachable k ∧ Confined cpus k := by
    apply hmeets.invariant (P := fun k => kernel.Reachable k ∧ Confined cpus k) _ _ h
    · rintro k a k' hok ⟨hk, ih⟩ hst
      refine ⟨hk.step hst, ?_⟩
      cases kernelStep_of_step hst with
      | accepted _ _ _ _ _ =>
          constructor
          · apply busy_update ih
            intro _
            apply hok _ _ _ rfl
          · rw [Kernel.committed_accept]
            apply ih.committed
      | @stamp cpu view result hrunning =>
          have hcpu := ih.busy cpu (by rw [hrunning]; rfl)
          exact ⟨busy_update ih fun _ => hcpu, ih.committed⟩
      | @output cpu frame room hrunning =>
          have hcpu := ih.busy cpu (by rw [hrunning]; rfl)
          constructor
          · apply busy_update ih fun _ => hcpu
          · intro f hf
            rw [Kernel.committed_emit, List.mem_append] at hf
            rcases hf with hf | hf
            · apply ih.committed f hf
            · cases room with
              | true =>
                  obtain rfl := List.mem_singleton.mp hf
                  rw [(timed hk).cpuId cpu f hrunning]
                  apply hcpu
              | false => cases hf
      | tick _ => exact ⟨ih.busy, ih.committed⟩
      | _ => exact ih
    · refine ⟨LTS.Reachable.init kernel, fun c hc => ?_, fun frame hframe => ?_⟩
      · cases hc
      · cases hframe
  apply hboth.2

/-! ### Overtaking -/

/-- The CPU of a frame, and those of the older ones among the frames committed after it. -/
def passed (frame : SignalFrame) (later : List SignalFrame) : List UInt32 :=
  frame.cpuId :: (later.filter fun f => f.timestampNs < frame.timestampNs).map SignalFrame.cpuId

theorem passed_concat (frame : SignalFrame) (later : List SignalFrame) (f : SignalFrame) :
  passed frame (later ++ [f])
    = if f.timestampNs < frame.timestampNs then passed frame later ++ [f.cpuId]
      else passed frame later
  := by
  rw [passed, List.filter_append, List.map_append, passed]
  split
  · rename_i hlt
    simp [hlt]
  · rename_i hnot
    simp [hnot]

/-- A frame is committed before at most one older frame of every other CPU, and before none of its
own; and a CPU that holds an older frame is not among those whose frames it has overtaken. -/
structure Overtaking (k : Kernel) : Prop where
  nodup : ∀ pre frame post, k.committed = pre ++ frame :: post → (passed frame post).Nodup
  stamped : ∀ pre frame post, k.committed = pre ++ frame :: post →
    ∀ c f, k.running c = .stamped f → f.timestampNs < frame.timestampNs → c ∉ passed frame post

/-- A step that commits nothing and stamps nothing. -/
theorem Overtaking.frame {k k' : Kernel} (h : Overtaking k) (hcommitted : k'.committed = k.committed)
    (hrunning : ∀ c f, k'.running c = .stamped f → k.running c = .stamped f) :
  Overtaking k'
  := by
  constructor
  · rw [hcommitted]
    apply h.nodup
  · rw [hcommitted]
    intro pre frame post hsplit c f hf
    apply h.stamped pre frame post hsplit c f (hrunning c f hf)

/-- Reading the clock: the new frame is not older than any that has been committed. -/
theorem Overtaking.stamp {k : Kernel} (h : Overtaking k) (htimed : Timed k) (cpu : UInt32)
    (view : ProtoView) (result : FilterResult) :
  Overtaking (k.prepare cpu (buildFrame cpu view result k.clock))
  := by
  constructor
  · apply h.nodup
  · intro pre frame post hsplit c f hf hlt
    rw [Kernel.prepare_running, Function.update_apply] at hf
    split at hf
    · obtain rfl := Invocation.stamped.inj hf
      have hpast : frame.timestampNs ≤ k.clock := by
        apply htimed.past
        have hcommitted : k.committed = pre ++ frame :: post := hsplit
        rw [hcommitted]
        apply List.mem_append_right _ List.mem_cons_self
      cases UInt64.not_lt.mpr hpast hlt
    · apply h.stamped pre frame post hsplit c f hf hlt

/-- An element of a list with one more at the end is the new one, or one of the list. -/
theorem split_concat {frames pre post : List SignalFrame} {f frame : SignalFrame}
    (h : frames ++ [f] = pre ++ frame :: post) :
  (post = [] ∧ frame = f) ∨ ∃ post', post = post' ++ [f] ∧ frames = pre ++ frame :: post'
  := by
  rcases List.eq_nil_or_concat post with rfl | ⟨post', g, rfl⟩
  · left
    obtain ⟨-, heq⟩ := List.append_inj' h rfl
    exact ⟨rfl, (List.cons.inj heq).1.symm⟩
  · right
    rw [List.concat_eq_append, ← List.cons_append, ← List.append_assoc] at h
    obtain ⟨hframes, heq⟩ := List.append_inj' h rfl
    rw [List.concat_eq_append, heq]
    exact ⟨post', rfl, hframes⟩

/-- Committing a frame: if it is older than an earlier one, it is the first of its CPU that is. -/
theorem Overtaking.commit {k : Kernel} (h : Overtaking k) {cpu : UInt32} {f : SignalFrame}
    (hst : k.running cpu = .stamped f) (hcpu : f.cpuId = cpu) :
  Overtaking (k.emit cpu f true)
  := by
  have hcommitted : (k.emit cpu f true).committed = k.committed ++ [f] :=
    Kernel.committed_emit k cpu f true
  constructor
  · intro pre frame post hemit
    rw [hcommitted] at hemit
    rcases split_concat hemit with ⟨rfl, rfl⟩ | ⟨post', rfl, hk⟩
    · apply List.nodup_singleton
    · rw [passed_concat]
      split
      · rename_i hlt
        rw [hcpu, ← List.concat_eq_append]
        apply List.Nodup.concat _ (h.nodup pre frame post' hk)
        apply h.stamped pre frame post' hk cpu f hst hlt
      · apply h.nodup pre frame post' hk
  · intro pre frame post hemit c g hg hlt
    rw [hcommitted] at hemit
    obtain ⟨hne, hold⟩ := stamped_of_update (by simp) hg
    rcases split_concat hemit with ⟨rfl, rfl⟩ | ⟨post', rfl, hk⟩
    · rw [passed, hcpu]
      simp [hne]
    · have hnot := h.stamped pre frame post' hk c g hold hlt
      rw [passed_concat]
      split
      · rw [List.mem_append, List.mem_singleton, hcpu]
        rintro (hmem | hmem)
        · apply hnot hmem
        · apply hne hmem
      · apply hnot

theorem overtaking {k : Kernel} (hk : kernel.Reachable k) :
  Overtaking k
  := by
  apply hk.invariant
  · constructor
    · intro pre frame post hsplit
      simp [kernel, Kernel.init, Kernel.committed] at hsplit
    · intro pre frame post hsplit
      simp [kernel, Kernel.init, Kernel.committed] at hsplit
  · intro k a k' hreachable ih hst
    have htimed := timed hreachable
    cases stamping_of_step hst with
    | quiet hcommitted hrunning _ => apply ih.frame hcommitted hrunning
    | stamp hk =>
        rw [hk]
        apply ih.stamp htimed
    | @commit cpu f hrunning hk =>
        rw [hk]
        apply ih.commit hrunning (htimed.cpuId cpu f hrunning)

end SgEbpf
