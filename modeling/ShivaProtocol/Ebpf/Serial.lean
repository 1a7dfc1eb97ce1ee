import ShivaProtocol.Ebpf.History

/-!
# Serial executions

Invocations on different CPUs interleave, but the interleaving leaves no trace except in the
timestamps.  For every run of the kernel program there is a serial execution, one invocation of
`xdpIngress` after the other, with the same packets on every CPU in the same order, that leaves the
same ring, the same counters and the same losses (`serializable`).  The order of the serial
execution is that in which the frames are outputted; the values of the clock that the invocations
read in the run need not increase along it.
-/

open SgCommon

namespace SgEbpf

/-- An invocation of the program: its CPU, its packet, the deny map it meets, the value of the clock
it reads, and whether the ring has room for its frame. -/
structure Call where
  cpu : UInt32
  pkt : List UInt8
  denyMap : DenyMap
  now : UInt64
  room : Bool

/-- The kernel after an invocation of the program. -/
def Kernel.call (k : Kernel) (c : Call) : Except OutOfBounds Kernel :=
  (xdpIngress { k with clock := c.now } c.cpu c.denyMap c.room c.pkt).map Prod.snd

/-- The kernel after invocations of the program, one after the other. -/
def Kernel.serial (k : Kernel) : List Call → Except OutOfBounds Kernel
  | [] => .ok k
  | c :: calls => do
      let k' ← k.call c
      k'.serial calls

theorem serial_concat {k s t : Kernel} {calls : List Call} {c : Call}
    (hs : k.serial calls = .ok s) (ht : s.call c = .ok t) :
  k.serial (calls ++ [c]) = .ok t
  := by
  induction calls generalizing k with
  | nil =>
      obtain rfl := Except.ok.inj hs
      rw [List.nil_append, Kernel.serial, ht]
      rfl
  | cons d calls ih =>
      rw [Kernel.serial] at hs
      rw [List.cons_append, Kernel.serial]
      cases hd : k.call d with
      | error e =>
          rw [hd] at hs
          cases hs
      | ok k' =>
          rw [hd] at hs
          apply ih hs

/-! ### The effect of an invocation -/

/-- A packet the parser rejects. -/
theorem call_of_foreign {c : Call} (h : inspect c.pkt = .ok none) (k : Kernel) :
  k.call c = .ok { k with clock := c.now }
  := by
  rw [Kernel.call, xdpIngress, h]
  rfl

/-- A packet the parser accepts is settled by the filter, and its frame outputted. -/
theorem call_of_inspect {c : Call} {view : ProtoView} (h : inspect c.pkt = .ok (some view))
    (k : Kernel) :
  k.call c = .ok (finish c.cpu c.room (({ k with clock := c.now } : Kernel).settle c.cpu view
    (select c.denyMap (k.counters c.cpu) view))).2
  := by
  rw [Kernel.call, xdpIngress, h]
  rfl

/-- A packet the filter refuses. -/
theorem call_of_refused {c : Call} {view : ProtoView} {counters : PpsCounters} {k : Kernel}
    (h : inspect c.pkt = .ok (some view)) (hidle : k.running c.cpu = .idle)
    (hselect : select c.denyMap (k.counters c.cpu) view = (none, counters)) :
  k.call c = .ok { k with
    clock := c.now
    counters := Function.update k.counters c.cpu counters }
  := by
  rw [call_of_inspect h, hselect, Kernel.settle]
  simp only [finish, hidle]

/-- A packet the filter accepts. -/
theorem call_of_selected {c : Call} {view : ProtoView} {counters : PpsCounters} {k : Kernel}
    {result : FilterResult} (h : inspect c.pkt = .ok (some view))
    (hselect : select c.denyMap (k.counters c.cpu) view = (some result, counters)) :
  k.call c = .ok ((({ k with clock := c.now } : Kernel).accept c.cpu counters view result).emit c.cpu
    (buildFrame c.cpu view result c.now) c.room)
  := by
  rw [call_of_inspect h, hselect, Kernel.settle]
  simp only [finish, Kernel.accept_running, Function.update_self, Kernel.accept_clock]

/-! ### Runs and serial executions -/

/-- The packet that an action brings to a CPU, with the deny map it meets. -/
def KernelAction.arrival (c : UInt32) : KernelAction → Option (List UInt8 × DenyMap)
  | .ingress cpu pkt denyMap => if cpu = c then some (pkt, denyMap) else none
  | _ => none

/-- The packets that a run brings to a CPU, in order. -/
def arrivalsOn (c : UInt32) (as : List KernelAction) : List (List UInt8 × DenyMap) :=
  as.filterMap (KernelAction.arrival c)

/-- The packet of an invocation, if it is on the CPU `c`. -/
def Call.arrival (c : UInt32) (call : Call) : Option (List UInt8 × DenyMap) :=
  if call.cpu = c then some (call.pkt, call.denyMap) else none

/-- The packets of a serial execution on a CPU, in order. -/
def callsOn (c : UInt32) (calls : List Call) : List (List UInt8 × DenyMap) :=
  calls.filterMap (Call.arrival c)

/-- What is under way on a CPU: nothing, or an invocation on a packet that the filter has accepted
with the counter as it was before. -/
inductive Underway (c : UInt32) (before after : PpsCounters) :
    Invocation → List (List UInt8 × DenyMap) → Prop where
  | idle : before = after → Underway c before after .idle []
  | selected {pkt denyMap view result} : inspect pkt = .ok (some view) →
      select denyMap before view = (some result, after) →
      Underway c before after (.selected view result) [(pkt, denyMap)]
  | stamped {pkt denyMap view result} (now : UInt64) : inspect pkt = .ok (some view) →
      select denyMap before view = (some result, after) →
      Underway c before after (.stamped (buildFrame c view result now)) [(pkt, denyMap)]

/-- At most one invocation is under way. -/
theorem Underway.length_le {c : UInt32} {before after : PpsCounters} {invocation : Invocation}
    {rest : List (List UInt8 × DenyMap)} (h : Underway c before after invocation rest) :
  rest.length ≤ 1
  := by cases h <;> simp

/-- The serial execution `calls` has the effect of the run `as` on the ring, and on every CPU the
effect of the invocations that are not under way. -/
structure Serialised (as : List KernelAction) (k : Kernel) (calls : List Call) (s : Kernel) :
    Prop where
  serial : Kernel.init.serial calls = .ok s
  ring : s.ring = k.ring
  committed : s.committed = k.committed
  lost : s.lost = k.lost
  idle : ∀ c, s.running c = .idle
  underway : ∀ c, ∃ rest, Underway c (s.counters c) (k.counters c) (k.running c) rest
    ∧ arrivalsOn c as = callsOn c calls ++ rest

theorem arrivalsOn_concat (c : UInt32) (as : List KernelAction) (a : KernelAction) :
  arrivalsOn c (as ++ [a]) = arrivalsOn c as ++ (a.arrival c).toList
  := by
  rw [arrivalsOn, List.filterMap_append, arrivalsOn]
  cases ha : a.arrival c <;> simp [ha]

theorem callsOn_concat (c : UInt32) (calls : List Call) (call : Call) :
  callsOn c (calls ++ [call]) = callsOn c calls ++ (call.arrival c).toList
  := by
  rw [callsOn, List.filterMap_append, callsOn]
  cases hcall : call.arrival c <;> simp [hcall]

section Step

variable {as : List KernelAction} {k k' s s' : Kernel} {calls : List Call} {a : KernelAction}
  (h : Serialised as k calls s)

include h

/-- Nothing is under way on an idle CPU. -/
theorem Serialised.of_idle {c : UInt32} (hidle : k.running c = .idle) :
  s.counters c = k.counters c ∧ arrivalsOn c as = callsOn c calls
  := by
  obtain ⟨rest, hunderway, harrivals⟩ := h.underway c
  rw [hidle] at hunderway
  cases hunderway with
  | idle hcounters =>
      rw [List.append_nil] at harrivals
      exact ⟨hcounters, harrivals⟩

/-- A step in the middle of an invocation: no invocation ends. -/
theorem Serialised.stay {c : UInt32} (hring : k'.ring = k.ring)
    (hcommitted : k'.committed = k.committed) (hlost : k'.lost = k.lost)
    (hcounters : ∀ d ≠ c, k'.counters d = k.counters d)
    (hrunning : ∀ d ≠ c, k'.running d = k.running d) (harrival : ∀ d ≠ c, a.arrival d = none)
    (hstep : ∃ rest, Underway c (s.counters c) (k'.counters c) (k'.running c) rest
      ∧ arrivalsOn c (as ++ [a]) = callsOn c calls ++ rest) :
  Serialised (as ++ [a]) k' calls s
  := by
  refine ⟨h.serial, ?_, ?_, ?_, h.idle, ?_⟩
  · rw [hring, h.ring]
  · rw [hcommitted, h.committed]
  · rw [hlost, h.lost]
  · intro d
    by_cases hd : d = c
    · rw [hd]
      apply hstep
    · rw [hcounters d hd, hrunning d hd, arrivalsOn_concat, harrival d hd, Option.toList_none,
        List.append_nil]
      apply h.underway d

/-- The end of an invocation. -/
theorem Serialised.leave {call : Call} (hcall : s.call call = .ok s') (hring : s'.ring = k'.ring)
    (hcommitted : s'.committed = k'.committed) (hlost : s'.lost = k'.lost)
    (hidle : s'.running call.cpu = .idle) (hidle' : k'.running call.cpu = .idle)
    (hcounters : s'.counters call.cpu = k'.counters call.cpu)
    (hcounters' : ∀ d ≠ call.cpu, s'.counters d = s.counters d ∧ k'.counters d = k.counters d)
    (hrunning : ∀ d ≠ call.cpu, s'.running d = s.running d ∧ k'.running d = k.running d)
    (harrival : ∀ d ≠ call.cpu, a.arrival d = none)
    (harrivals : arrivalsOn call.cpu (as ++ [a])
      = callsOn call.cpu calls ++ [(call.pkt, call.denyMap)]) :
  Serialised (as ++ [a]) k' (calls ++ [call]) s'
  := by
  refine ⟨serial_concat h.serial hcall, hring, hcommitted, hlost, ?_, ?_⟩
  · intro d
    by_cases hd : d = call.cpu
    · rw [hd, hidle]
    · rw [(hrunning d hd).1, h.idle]
  · intro d
    by_cases hd : d = call.cpu
    · subst hd
      use []
      rw [hidle', callsOn_concat, Call.arrival, if_pos rfl, harrivals]
      exact ⟨.idle hcounters, (List.append_nil _).symm⟩
    · have hnone : call.arrival d = none := if_neg (Ne.symm hd)
      rw [(hcounters' d hd).1, (hcounters' d hd).2, (hrunning d hd).2, arrivalsOn_concat,
        callsOn_concat, harrival d hd, hnone, Option.toList_none, List.append_nil, List.append_nil]
      apply h.underway d

end Step

/-! ### Serialisability -/

/-- What the arrival of a packet does: nothing if the parser rejects it, and else what the filter
says. -/
theorem ingress_cases {k k' : Kernel} {cpu : UInt32} {pkt : List UInt8} {denyMap : DenyMap}
    (h : kernel.step k (.ingress cpu pkt denyMap) = some k') :
  k.running cpu = .idle
    ∧ ((inspect pkt = .ok none ∧ k' = k)
      ∨ ∃ view, inspect pkt = .ok (some view)
        ∧ k' = k.settle cpu view (select denyMap (k.counters cpu) view))
  := by
  simp only [kernel, Kernel.step] at h
  split at h
  · rename_i hidle hinspect
    exact ⟨hidle, Or.inl ⟨hinspect, (Option.some.inj h).symm⟩⟩
  · rename_i view hidle hinspect
    exact ⟨hidle, Or.inr ⟨view, hinspect, (Option.some.inj h).symm⟩⟩
  · cases h

/-- The arrival of a packet. -/
theorem Serialised.ingress {as : List KernelAction} {k k' s : Kernel} {calls : List Call}
    {cpu : UInt32} {pkt : List UInt8} {denyMap : DenyMap} (h : Serialised as k calls s)
    (hst : kernel.step k (.ingress cpu pkt denyMap) = some k') :
  ∃ calls' s', Serialised (as ++ [.ingress cpu pkt denyMap]) k' calls' s'
  := by
  obtain ⟨hidle, hcases⟩ := ingress_cases hst
  obtain ⟨hcounters, harrivals⟩ := h.of_idle hidle
  have hself : KernelAction.arrival cpu (.ingress cpu pkt denyMap) = some (pkt, denyMap) := if_pos rfl
  have hother : ∀ d ≠ cpu, KernelAction.arrival d (.ingress cpu pkt denyMap) = none :=
    fun d hd => if_neg (Ne.symm hd)
  have harrivals' : arrivalsOn cpu (as ++ [.ingress cpu pkt denyMap])
      = callsOn cpu calls ++ [(pkt, denyMap)] := by
    rw [arrivalsOn_concat, hself, harrivals, Option.toList_some]
  -- an invocation that ends at once
  let call : Call := { cpu, pkt, denyMap, now := 0, room := true }
  rcases hcases with ⟨hinspect, rfl⟩ | ⟨view, hinspect, rfl⟩
  · exact ⟨_, _, h.leave (call_of_foreign (c := call) hinspect s) h.ring h.committed h.lost
      (h.idle cpu) hidle hcounters (fun _ _ => ⟨rfl, rfl⟩) (fun _ _ => ⟨rfl, rfl⟩) hother
      harrivals'⟩
  · rcases hselect : select denyMap (k.counters cpu) view with ⟨_ | result, counters⟩
    · rw [Kernel.settle]
      have hcall := call_of_refused (c := call) (k := s) hinspect (h.idle cpu)
        (by rw [hcounters, hselect])
      refine ⟨_, _, h.leave hcall h.ring h.committed h.lost (h.idle cpu) hidle ?_ ?_
        (fun _ _ => ⟨rfl, rfl⟩) hother harrivals'⟩
      · simp only [call, Function.update_self]
      · intro d hd
        exact ⟨Function.update_of_ne hd _ _, Function.update_of_ne hd _ _⟩
    · rw [Kernel.settle]
      refine ⟨calls, s, h.stay rfl (Kernel.committed_accept _ _ _ _ _)
        (Kernel.lost_accept _ _ _ _ _) (fun d hd => Function.update_of_ne hd _ _)
        (fun d hd => Function.update_of_ne hd _ _) hother ⟨[(pkt, denyMap)], ?_, harrivals'⟩⟩
      rw [Kernel.accept_counters, Kernel.accept_running, Function.update_self,
        Function.update_self]
      apply Underway.selected hinspect
      rw [hcounters, hselect]

/-- The output of a frame. -/
theorem Serialised.output {as : List KernelAction} {k s : Kernel} {calls : List Call}
    {cpu : UInt32} {frame : SignalFrame} (h : Serialised as k calls s)
    (hrunning : k.running cpu = .stamped frame) (room : Bool) :
  ∃ calls' s', Serialised (as ++ [.output cpu room]) (k.emit cpu frame room) calls' s'
  := by
  obtain ⟨rest, hunderway, harrivals⟩ := h.underway cpu
  rw [hrunning] at hunderway
  generalize hafter : k.counters cpu = after at hunderway
  cases hunderway with
  | @stamped pkt denyMap view result now hinspect hselect =>
      let call : Call := { cpu, pkt, denyMap, now, room }
      have hcall := call_of_selected (c := call) (k := s) hinspect hselect
      refine ⟨_, _, h.leave hcall ?_ ?_ ?_ (Function.update_self _ _ _) (Function.update_self _ _ _)
        ?_ ?_ ?_ (fun _ _ => rfl) ?_⟩
      · simp only [Kernel.emit, Kernel.accept_ring, h.ring]
        rfl
      · rw [Kernel.committed_emit, Kernel.committed_emit, Kernel.committed_accept, ← h.committed]
        rfl
      · rw [Kernel.lost_emit, Kernel.lost_emit, Kernel.lost_accept, ← h.lost]
        rfl
      · rw [Kernel.emit_counters, Kernel.accept_counters, Kernel.emit_counters, hafter]
        apply Function.update_self
      · intro d hd
        rw [Kernel.emit_counters, Kernel.accept_counters, Kernel.emit_counters]
        exact ⟨Function.update_of_ne hd _ _, rfl⟩
      · intro d hd
        rw [Kernel.emit_running, Kernel.accept_running, Kernel.emit_running]
        refine ⟨?_, Function.update_of_ne hd _ _⟩
        rw [Function.update_of_ne hd, Function.update_of_ne hd]
      · rw [arrivalsOn_concat]
        apply (List.append_nil _).trans harrivals

/-- Every step of a run is either a step in the middle of an invocation or the end of one. -/
theorem Serialised.step {as : List KernelAction} {k k' s : Kernel} {calls : List Call}
    {a : KernelAction} (h : Serialised as k calls s) (hst : kernel.step k a = some k') :
  ∃ calls' s', Serialised (as ++ [a]) k' calls' s'
  := by
  cases a with
  | ingress cpu pkt denyMap => apply h.ingress hst
  | stamp cpu =>
      cases kernelStep_of_step hst with
      | @stamp _ view result hrunning =>
          obtain ⟨rest, hunderway, harrivals⟩ := h.underway cpu
          rw [hrunning] at hunderway
          refine ⟨calls, s, h.stay rfl rfl rfl (fun _ _ => rfl)
            (fun d hd => Function.update_of_ne hd _ _) (fun _ _ => rfl) ⟨rest, ?_, ?_⟩⟩
          · rw [Kernel.prepare_counters, Kernel.prepare_running, Function.update_self]
            cases hunderway with
            | selected hinspect hselect => apply Underway.stamped k.clock hinspect hselect
          · rw [arrivalsOn_concat]
            apply (List.append_nil _).trans harrivals
  | output cpu room =>
      cases kernelStep_of_step hst with
      | output _ hrunning => apply h.output hrunning
  | tick now =>
      cases kernelStep_of_step hst with
      | tick _ =>
          obtain ⟨rest, hunderway, harrivals⟩ := h.underway 0
          refine ⟨calls, s, h.stay (c := 0) rfl rfl rfl (fun _ _ => rfl) (fun _ _ => rfl)
            (fun _ _ => rfl) ⟨rest, hunderway, ?_⟩⟩
          rw [arrivalsOn_concat]
          apply (List.append_nil _).trans harrivals

theorem serialised {as : List KernelAction} {k : Kernel} (h : kernel.run kernel.init as = some k) :
  ∃ calls s, Serialised as k calls s
  := by
  induction as using List.reverseRecOn generalizing k with
  | nil =>
      obtain rfl := Option.some.inj h
      refine ⟨[], Kernel.init, rfl, rfl, rfl, rfl, fun _ => rfl, fun c => ⟨[], .idle rfl, rfl⟩⟩
  | append_singleton as a ih =>
      rw [LTS.run_append] at h
      obtain ⟨k', hk', hlast⟩ := Option.bind_eq_some_iff.mp h
      rw [LTS.run_singleton] at hlast
      obtain ⟨calls, s, hs⟩ := ih hk'
      apply hs.step hlast

/-- For every run there is a serial execution that leaves the same ring, commits the same frames,
timestamps included, and loses as many; on every CPU it runs through the packets of the CPU in
order, but for one whose invocation is still under way, and leaves the same counter if none is. -/
theorem serializable {as : List KernelAction} {k : Kernel}
    (h : kernel.run kernel.init as = some k) :
  ∃ calls s, Kernel.init.serial calls = .ok s
    ∧ s.ring = k.ring ∧ s.committed = k.committed ∧ s.lost = k.lost
    ∧ ∀ c, (∃ rest, arrivalsOn c as = callsOn c calls ++ rest ∧ rest.length ≤ 1)
      ∧ (k.running c = .idle →
        s.counters c = k.counters c ∧ callsOn c calls = arrivalsOn c as)
  := by
  obtain ⟨calls, s, hs⟩ := serialised h
  refine ⟨calls, s, hs.serial, hs.ring, hs.committed, hs.lost, fun c => ⟨?_, fun hidle => ?_⟩⟩
  · obtain ⟨rest, hunderway, harrivals⟩ := hs.underway c
    exact ⟨rest, harrivals, hunderway.length_le⟩
  · obtain ⟨hcounters, harrivals⟩ := hs.of_idle hidle
    exact ⟨hcounters, harrivals.symm⟩

/-- Two CPUs commit their frames in the order opposite to that in which they read the clock. -/
def crossedRun : List KernelAction :=
  [.ingress 0 samplePacket DenyMap.allowAll, .ingress 1 samplePacket DenyMap.allowAll, .tick 5,
    .stamp 0, .tick 9, .stamp 1, .output 1 true, .output 0 true]

/-- The serial execution of that run leaves the timestamps as they are, though they decrease. -/
theorem serializable_crossedRun :
  ∃ k, kernel.run kernel.init crossedRun = some k
    ∧ k.committed.map SignalFrame.timestampNs = [9, 5]
    ∧ ∃ calls s, Kernel.init.serial calls = .ok s ∧ s.committed = k.committed
  := by
  have hrun : (kernel.run kernel.init crossedRun).map
      (fun k => k.committed.map SignalFrame.timestampNs) = some [9, 5] := by decide +kernel
  obtain ⟨k, hk, hstamps⟩ := Option.map_eq_some_iff.mp hrun
  obtain ⟨calls, s, hs, -, hcommitted, -⟩ := serializable hk
  exact ⟨k, hk, hstamps, calls, s, hs, hcommitted⟩

end SgEbpf
