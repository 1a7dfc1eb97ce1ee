import ShivaProtocol.Capture.Vacuum
import ShivaProtocol.Library.Sampled
import ShivaProtocol.Library.Saturating

/-!
# The telemetry reporter

Once a second the reporter thread adds up the counters of the vacuum workers and logs by how much
the totals have grown since the tick before, with the share of dropped frames in basis points.  It
loads the cells one after another in the order of `totals`, and each load is a step of its own:
between two of them the workers may increment any cells, so the totals are not a snapshot.  A load
returns the value after all increments before it in the run.  Sums wrap around, as they do in a
release build.  A division by zero would panic and leave the reporter in the phase `panicked`; no
run gets there (`dropRateBps_spec`).
-/

open SgCommon

namespace SgCapture

/-- The three arrays of a metrics block. -/
inductive Counter where
  | ok
  | drop
  | full
  deriving DecidableEq

/-- A cell of a metrics block. -/
abbrev Cell := Counter × Fin NCPU

namespace Cells

/-- The sum of the loads of all cells, one after another. -/
def sum (cells : Cells) : UInt64 :=
  ((List.finRange NCPU).map fun i => (cells i).load).foldl (· + ·) 0

end Cells

namespace Metrics

/-- The array of a counter. -/
def cells (m : Metrics) : Counter → Cells
  | .ok => m.framesOk
  | .drop => m.framesDropped
  | .full => m.channelFull

/-- The recording that increments a counter. -/
def record (m : Metrics) (cpuId : ℕ) : Counter → Metrics
  | .ok => m.recordOk cpuId
  | .drop => m.recordDrop cpuId
  | .full => m.recordChannelFull cpuId

/-- The totals across all CPUs, if no cell changes while they are added up. -/
def totals (m : Metrics) : UInt64 × UInt64 × UInt64 :=
  let ok := m.framesOk.sum
  let drop := m.framesDropped.sum
  let full := m.channelFull.sum
  (ok, drop, full)

/-- The quotient of two words; the division by zero panics. -/
def quotient (a b : UInt64) : Option UInt64 :=
  if b = 0 then none else some (a / b)

/-- The drop rate in basis points. -/
def dropRateBps (ok drop : UInt64) : Option UInt64 :=
  let total := Saturating.add ok drop
  if total = 0 then some 0
  else quotient (Saturating.mul drop 10000) total

end Metrics

namespace Metrics

/-- A share of dropped frames in basis points: at most 10,000, and exact if neither the product nor
the sum of its computation exceeds a word. -/
structure DropRate (ok drop bps : UInt64) : Prop where
  le : bps ≤ 10000
  floor : drop.toNat ≤ (2 ^ 64 - 1) / 10000 → ok.toNat + drop.toNat ≤ 2 ^ 64 - 1 →
    bps.toNat = 10000 * drop.toNat / (ok.toNat + drop.toNat)

/-- The drop rate is computed without a division by zero. -/
theorem dropRateBps_spec (ok drop : UInt64) :
  ∃ bps, dropRateBps ok drop = some bps ∧ DropRate ok drop bps
  := by
  have hbound : (10000 : UInt64).toNat = 10000 := rfl
  have hsum := Saturating.toNat_add ok drop
  have hproduct := Saturating.toNat_mul drop 10000
  rw [hbound] at hproduct
  by_cases htotal : Saturating.add ok drop = 0
  · use 0
    refine ⟨if_pos htotal, ?_, fun _ _ => ?_⟩
    · rw [UInt64.le_iff_toNat_le]
      apply Nat.zero_le
    · -- a total of zero leaves no frames, and the quotient by zero is zero
      have hzero : (Saturating.add ok drop).toNat = 0 := by
        rw [htotal]
        rfl
      have hnone : ok.toNat + drop.toNat = 0 := by omega
      rw [hnone, Nat.div_zero]
      rfl
  · use Saturating.mul drop 10000 / Saturating.add ok drop
    refine ⟨?_, ?_, fun hdrop hfit => ?_⟩
    · rw [dropRateBps, if_neg htotal, quotient, if_neg htotal]
    · rw [UInt64.le_iff_toNat_le, UInt64.toNat_div, hbound]
      apply Nat.div_le_of_le_mul
      omega
    · have hexact : min (drop.toNat * 10000) (2 ^ 64 - 1) = 10000 * drop.toNat := by omega
      rw [UInt64.toNat_div, hproduct, hsum, hexact, Nat.min_eq_left hfit]

end Metrics

/-! ### The sweep through the cells -/

/-- The cells in the order in which `totals` loads them. -/
def sweepOrder : List Cell :=
  [Counter.ok, .drop, .full].flatMap fun k => (List.finRange NCPU).map (k, ·)

theorem mem_sweepOrder (c : Cell) :
  c ∈ sweepOrder
  := by
  obtain ⟨k, i⟩ := c
  cases k <;> simp [sweepOrder]

theorem nodup_sweepOrder :
  sweepOrder.Nodup
  := by
  rw [sweepOrder, List.nodup_flatMap]
  constructor
  · intro k _
    apply (List.nodup_finRange NCPU).map (Prod.mk_right_injective k)
  · simp [List.disjoint_left, Function.onFun]

/-- The cells of a counter are loaded in the order of their CPUs. -/
theorem filter_sweepOrder (k : Counter) :
  sweepOrder.filter (·.1 = k) = (List.finRange NCPU).map (k, ·)
  := by cases k <;> simp [sweepOrder, List.filter_map, Function.comp_def]

/-- A call of `totals` under way: the cells it has loaded and those it has not, and the sums so
far. -/
structure Sweep where
  done : List Cell
  rest : List Cell
  order : done ++ rest = sweepOrder
  sums : Counter → UInt64

namespace Sweep

/-- A call of `totals` that has loaded no cell. -/
def start : Sweep where
  done := []
  rest := sweepOrder
  order := List.nil_append sweepOrder
  sums := fun _ => 0

theorem order_next {done rest : List Cell} {c : Cell} (h : done ++ c :: rest = sweepOrder) :
  (done ++ [c]) ++ rest = sweepOrder
  := by
  rw [List.append_assoc]
  apply h

/-- The call after the load of the next cell, if there is one. -/
def load (m : Metrics) : Sweep → Option Sweep
  | ⟨_, [], _, _⟩ => none
  | ⟨done, c :: rest, h, sums⟩ =>
      some
        { done := done ++ [c]
          rest := rest
          order := order_next h
          sums := Function.update sums c.1 (sums c.1 + (m.cells c.1 c.2).load) }

/-- The load of the cell `c` leads from one sweep to the other. -/
structure Loads (m : Metrics) (sweep : Sweep) (c : Cell) (next : Sweep) : Prop where
  rest : sweep.rest = c :: next.rest
  done : next.done = sweep.done ++ [c]
  sums : next.sums = Function.update sweep.sums c.1 (sweep.sums c.1 + (m.cells c.1 c.2).load)

theorem loads_of_load {m : Metrics} {sweep next : Sweep} (h : sweep.load m = some next) :
  ∃ c, Loads m sweep c next
  := by
  obtain ⟨done, rest, horder, sums⟩ := sweep
  cases rest with
  | nil => cases h
  | cons c rest =>
      obtain rfl := Option.some.inj h
      use c
      constructor <;> rfl

theorem rest_of_load_none {m : Metrics} {sweep : Sweep} (h : sweep.load m = none) :
  sweep.rest = []
  := by
  obtain ⟨done, rest, horder, sums⟩ := sweep
  cases rest with
  | nil => rfl
  | cons c rest => cases h

/-- A cell is loaded once in a sweep. -/
theorem Loads.notMem {m : Metrics} {sweep next : Sweep} {c : Cell} (h : Loads m sweep c next) :
  c ∉ sweep.done
  := by
  have hnodup := nodup_sweepOrder
  rw [← sweep.order, h.rest] at hnodup
  intro hmem
  apply List.disjoint_of_nodup_append hnodup hmem List.mem_cons_self

/-- When no cell is left, all have been loaded. -/
theorem done_of_rest {sweep : Sweep} (h : sweep.rest = []) :
  sweep.done = sweepOrder
  := by rw [← sweep.order, h, List.append_nil]

end Sweep

/-! ### The reporter -/

/-- A line of the log: the growth of the totals, the drop rate, and the total of `channel_full`. -/
structure Line where
  deltaOk : UInt64
  deltaDrop : UInt64
  dropBps : UInt64
  channelFull : UInt64

/-- The text of a line; the drop rate is shown in percent with two decimals. -/
def Line.text (line : Line) : String :=
  "METRICS | frames/s=" ++ toString line.deltaOk ++ " drops/s=" ++ toString line.deltaDrop
    ++ " drop_rate=" ++ toString (line.dropBps / 100) ++ "."
    ++ String.leftpad 2 '0' (toString (line.dropBps % 100))
    ++ "% channel_full=" ++ toString line.channelFull

example : (Line.mk 2 1 3307 0).text
    = "METRICS | frames/s=2 drops/s=1 drop_rate=33.07% channel_full=0" := by rfl

/-- Where the reporter is in its loop. -/
inductive ReporterPhase where
  | sleeping
  | reading (sweep : Sweep)
  | exited
  | panicked

/-- The state of the reporter, with the counters and the shutdown flag it shares with other
threads. -/
structure Reporter where
  metrics : Metrics
  shutdown : Bool
  phase : ReporterPhase
  prevOk : UInt64
  prevDrop : UInt64
  logged : List Line

/-- A worker increments a counter; the shutdown is signalled; the reporter takes its next step. -/
inductive ReporterAction where
  | record (cpuId : ℕ) (k : Counter)
  | signal
  | advance

namespace Reporter

/-- The reporter before its first tick. -/
def init : Reporter where
  metrics := Metrics.new
  shutdown := false
  phase := .sleeping
  prevOk := 0
  prevDrop := 0
  logged := []

/-- The reporter after it has logged the totals of a tick. -/
def report (r : Reporter) (sums : Counter → UInt64) : Reporter :=
  let deltaOk := Saturating.sub (sums .ok) r.prevOk
  let deltaDrop := Saturating.sub (sums .drop) r.prevDrop
  match Metrics.dropRateBps deltaOk deltaDrop with
  | none => { r with phase := .panicked }
  | some dropBps =>
      { r with
        phase := .sleeping
        prevOk := sums .ok
        prevDrop := sums .drop
        logged := r.logged ++ [⟨deltaOk, deltaDrop, dropBps, sums .full⟩] }

/-- The next step of the reporter thread. -/
def advance (r : Reporter) : Option Reporter :=
  match r.phase with
  | .sleeping => some { r with phase := if r.shutdown then .exited else .reading .start }
  | .reading sweep =>
      match sweep.load r.metrics with
      | some next => some { r with phase := .reading next }
      | none => some (r.report sweep.sums)
  | .exited => none
  | .panicked => none

/-- The state after an action, if it is enabled. -/
def step (r : Reporter) : ReporterAction → Option Reporter
  | .record cpuId k => some { r with metrics := r.metrics.record cpuId k }
  | .signal => some { r with shutdown := true }
  | .advance => r.advance

end Reporter

/-- The reporter among any number of workers, as a transition system. -/
def reporter : LTS Reporter ReporterAction where
  init := Reporter.init
  step := Reporter.step

/-- The two rates that the reporter logs. -/
inductive Rate where
  | frames
  | drops

/-- The counter whose growth a rate is. -/
def Rate.counter : Rate → Counter
  | .frames => .ok
  | .drops => .drop

/-- The total of a rate's counter in the tick before. -/
def Reporter.prev (r : Reporter) : Rate → UInt64
  | .frames => r.prevOk
  | .drops => r.prevDrop

/-- The logged growth of a rate's counter. -/
def Line.delta (line : Line) : Rate → UInt64
  | .frames => line.deltaOk
  | .drops => line.deltaDrop

/-- What a step can do. -/
inductive ReporterStep (r : Reporter) : ReporterAction → Reporter → Prop where
  | record (cpuId : ℕ) (k : Counter) :
      ReporterStep r (.record cpuId k) { r with metrics := r.metrics.record cpuId k }
  | signal : ReporterStep r .signal { r with shutdown := true }
  | exit : r.phase = .sleeping → r.shutdown = true →
      ReporterStep r .advance { r with phase := .exited }
  | wake : r.phase = .sleeping → r.shutdown = false →
      ReporterStep r .advance { r with phase := .reading .start }
  | load {sweep next c} : r.phase = .reading sweep → Sweep.Loads r.metrics sweep c next →
      ReporterStep r .advance { r with phase := .reading next }
  | report {sweep line} : r.phase = .reading sweep → sweep.rest = [] →
      (∀ rate, line.delta rate = Saturating.sub (sweep.sums rate.counter) (r.prev rate)) →
      Metrics.dropRateBps line.deltaOk line.deltaDrop = some line.dropBps →
      line.channelFull = sweep.sums .full →
      ReporterStep r .advance
        { r with
          phase := .sleeping
          prevOk := sweep.sums .ok
          prevDrop := sweep.sums .drop
          logged := r.logged ++ [line] }

/-- Every step is one of `ReporterStep`. -/
theorem reporterStep_of_step {r t : Reporter} {a : ReporterAction}
    (h : reporter.step r a = some t) :
  ReporterStep r a t
  := by
  cases a with
  | record cpuId k =>
      obtain rfl := Option.some.inj h
      apply ReporterStep.record
  | signal =>
      obtain rfl := Option.some.inj h
      apply ReporterStep.signal
  | advance =>
      change r.advance = some t at h
      rw [Reporter.advance] at h
      cases hphase : r.phase with
      | sleeping =>
          rw [hphase] at h
          obtain rfl := Option.some.inj h
          by_cases hshutdown : r.shutdown = true
          · rw [if_pos hshutdown]
            apply ReporterStep.exit hphase hshutdown
          · rw [if_neg hshutdown]
            apply ReporterStep.wake hphase (Bool.not_eq_true _ ▸ hshutdown)
      | reading sweep =>
          simp only [hphase] at h
          cases hload : sweep.load r.metrics with
          | some next =>
              rw [hload] at h
              obtain rfl := Option.some.inj h
              obtain ⟨c, hc⟩ := Sweep.loads_of_load hload
              apply ReporterStep.load hphase hc
          | none =>
              rw [hload] at h
              obtain rfl := Option.some.inj h
              obtain ⟨bps, hbps, -⟩ := Metrics.dropRateBps_spec
                (Saturating.sub (sweep.sums .ok) r.prevOk)
                (Saturating.sub (sweep.sums .drop) r.prevDrop)
              rw [Reporter.report, hbps]
              refine ReporterStep.report hphase (Sweep.rest_of_load_none hload) ?_ hbps rfl
              rintro (_ | _) <;> rfl
      | exited =>
          rw [hphase] at h
          cases h
      | panicked =>
          rw [hphase] at h
          cases h

/-- If no cell changes, the rest of a sweep adds up the cells as they are. -/
theorem run_sweep (r : Reporter) (sweep : Sweep) :
  ∃ last, reporter.run { r with phase := .reading sweep }
      (List.replicate sweep.rest.length .advance) = some { r with phase := .reading last }
    ∧ last.rest = []
    ∧ ∀ k, last.sums k = ((sweep.rest.filter (·.1 = k)).map fun c =>
      (r.metrics.cells c.1 c.2).load).foldl (· + ·) (sweep.sums k)
  := by
  obtain ⟨done, rest, order, sums⟩ := sweep
  induction rest generalizing done sums with
  | nil => exact ⟨⟨done, [], order, sums⟩, rfl, rfl, fun _ => rfl⟩
  | cons c rest ih =>
      obtain ⟨last, hrun, hrest, hsums⟩ := ih (done ++ [c]) (Sweep.order_next order)
        (Function.update sums c.1 (sums c.1 + (r.metrics.cells c.1 c.2).load))
      refine ⟨last, hrun, hrest, fun k => ?_⟩
      rw [hsums]
      by_cases hk : c.1 = k
      · subst hk
        simp
      · simp [hk, Function.update_of_ne (Ne.symm hk)]

/-- A tick during which no cell changes reads what `totals` computes. -/
theorem run_totals (r : Reporter) :
  ∃ last, reporter.run { r with phase := .reading .start }
      (List.replicate sweepOrder.length .advance) = some { r with phase := .reading last }
    ∧ last.rest = []
    ∧ (last.sums .ok, last.sums .drop, last.sums .full) = r.metrics.totals
  := by
  obtain ⟨last, hrun, hrest, hsums⟩ := run_sweep r .start
  refine ⟨last, hrun, hrest, ?_⟩
  have hcells (k : Counter) : last.sums k = (r.metrics.cells k).sum := by
    rw [hsums, Cells.sum]
    have hstart : (Sweep.start.rest.filter (·.1 = k)) = (List.finRange NCPU).map (k, ·) :=
      filter_sweepOrder k
    rw [hstart, List.map_map]
    rfl
  rw [hcells, hcells, hcells]
  rfl

/-! ### The cells as counters that are sampled -/

/-- The cell that an action increments; a CPU id out of range has none. -/
def ReporterAction.hit : ReporterAction → Option Cell
  | .record cpuId k => if h : cpuId < NCPU then some (k, ⟨cpuId, h⟩) else none
  | .signal => none
  | .advance => none

namespace Reporter

/-- The number of increments of a cell. -/
def added (r : Reporter) (c : Cell) : ℕ :=
  (r.metrics.cells c.1 c.2).added

/-- The cell that an action loads. -/
def read (r : Reporter) : ReporterAction → Option Cell
  | .advance =>
      match r.phase with
      | .reading sweep => sweep.rest.head?
      | _ => none
  | _ => none

/-- The number of loads of a cell: one in every tick logged, and one in the tick under way if it
has got that far. -/
def reads (r : Reporter) (c : Cell) : ℕ :=
  match r.phase with
  | .reading sweep => r.logged.length + if c ∈ sweep.done then 1 else 0
  | _ => r.logged.length

theorem reads_of_reading {r : Reporter} {sweep : Sweep} (h : r.phase = .reading sweep) (c : Cell) :
  r.reads c = r.logged.length + if c ∈ sweep.done then 1 else 0
  := by simp only [reads, h]

theorem reads_of_sleeping {r : Reporter} (h : r.phase = .sleeping) (c : Cell) :
  r.reads c = r.logged.length
  := by simp only [reads, h]

theorem length_le_reads (r : Reporter) (c : Cell) :
  r.logged.length ≤ r.reads c
  := by
  rw [reads]
  split
  · apply Nat.le_add_right
  · apply le_refl

end Reporter

theorem Cells.added_record (cells : Cells) (cpuId : ℕ) (i : Fin NCPU) :
  (cells.record cpuId i).added = (cells i).added + if cpuId = i then 1 else 0
  := by
  rw [Cells.record]
  split
  · rename_i h
    by_cases hi : i = ⟨cpuId, h⟩
    · subst hi
      rw [Function.update_self, if_pos rfl]
      rfl
    · rw [Function.update_of_ne hi, if_neg]
      · rfl
      · rintro rfl
        apply hi rfl
  · rename_i h
    rw [if_neg]
    · rfl
    · rintro rfl
      apply h i.isLt

/-- A recording increments the cell it hits, and no other. -/
theorem Metrics.added_record (m : Metrics) (cpuId : ℕ) (k : Counter) (c : Cell) :
  ((m.record cpuId k).cells c.1 c.2).added = (m.cells c.1 c.2).added
    + if (ReporterAction.record cpuId k).hit = some c then 1 else 0
  := by
  obtain ⟨l, i⟩ := c
  have hhit : ((ReporterAction.record cpuId k).hit = some (l, i)) ↔ k = l ∧ cpuId = i := by
    rw [ReporterAction.hit]
    split
    · simp [Fin.ext_iff]
    · rename_i h
      constructor
      · intro hnone
        cases hnone
      · rintro ⟨_, rfl⟩
        exact absurd i.isLt h
  have hcells : (m.record cpuId k).cells l = if k = l then (m.cells l).record cpuId else m.cells l
    := by cases k <;> cases l <;> rfl
  simp only [hhit, hcells]
  by_cases hkl : k = l
  · simp [hkl, Cells.added_record]
  · simp [hkl]

theorem Reporter.added_step {r t : Reporter} {a : ReporterAction} (h : reporter.step r a = some t)
    (c : Cell) :
  t.added c = r.added c + if a.hit = some c then 1 else 0
  := by
  cases reporterStep_of_step h with
  | record cpuId k => apply Metrics.added_record
  | signal => rfl
  | exit _ _ => rfl
  | wake _ _ => rfl
  | load _ _ => rfl
  | report _ _ _ _ _ => rfl

theorem Reporter.reads_step {r t : Reporter} {a : ReporterAction} (h : reporter.step r a = some t)
    (c : Cell) :
  t.reads c = r.reads c + if r.read a = some c then 1 else 0
  := by
  cases reporterStep_of_step h with
  | record cpuId k => rfl
  | signal => rfl
  | exit hphase _ => simp [Reporter.reads, Reporter.read, hphase]
  | wake hphase _ => simp [Reporter.reads, Reporter.read, hphase, Sweep.start]
  | @load sweep next d hphase hload =>
      rw [reads_of_reading hphase, reads_of_reading rfl]
      have hread : r.read .advance = some d := by
        simp only [Reporter.read, hphase, hload.rest, List.head?_cons]
      rw [hread, hload.done]
      by_cases hc : d = c
      · subst hc
        simp [hload.notMem]
      · have hmem : c ∈ sweep.done ++ [d] ↔ c ∈ sweep.done := by simp [Ne.symm hc]
        simp only [hmem, Option.some.injEq, if_neg hc, Nat.add_zero]
  | report hphase hrest _ _ _ =>
      -- the tick counts as one load of every cell before and after it is logged
      rw [reads_of_reading hphase, reads_of_sleeping rfl, Sweep.done_of_rest hrest,
        if_pos (mem_sweepOrder c)]
      simp [Reporter.read, hphase, hrest]

/-- The cells are counters that the reporter samples. -/
def sampled : Sampled reporter Cell where
  hit := ReporterAction.hit
  read := Reporter.read
  count := Reporter.added
  reads := Reporter.reads
  count_init := by
    rintro ⟨k, i⟩
    cases k <;> rfl
  reads_init _ := rfl
  count_step := Reporter.added_step
  reads_step := Reporter.reads_step

end SgCapture
