import ShivaProtocol.Capture.Deltas

/-!
# Relaxed loads

The reporter loads the counters with relaxed ordering, which promises less than a load that returns
the current value: a load may return any value that the counter has had, as long as the loads of one
counter do not go back.  `relaxedReporter` is the reporter with such loads.  A reporter whose loads
are current is one of them (`relaxed_of_reporter`), and what the deltas mean does not depend on the
loads being current: every line logs by how much the view of the reporter has grown, no delta is
clipped at zero, and no increment is logged twice (`relaxed_deltas`).
-/

open SgCommon

namespace SgCapture

/-- A reporter with the number of increments of every cell that its last load of the cell has seen,
and what these numbers were at the end of each tick. -/
structure RelaxedReporter where
  reporter : Reporter
  view : Cell → ℕ
  ticks : List (Cell → ℕ)

/-- A worker increments a counter; the shutdown is signalled; the reporter loads the next cell and
sees `n` of its increments; the reporter takes a step that is not a load. -/
inductive RelaxedAction where
  | record (cpuId : ℕ) (k : Counter)
  | signal
  | load (n : ℕ)
  | advance

namespace Sweep

/-- The next cell, and the call after a load of it that sees `n` increments. -/
def observe (n : ℕ) : Sweep → Option (Cell × Sweep)
  | ⟨_, [], _, _⟩ => none
  | ⟨done, c :: rest, h, sums⟩ =>
      some (c,
        { done := done ++ [c]
          rest := rest
          order := order_next h
          sums := Function.update sums c.1 (sums c.1 + UInt64.ofNat n) })

/-- What a load that sees `n` increments does. -/
structure Observes (n : ℕ) (sweep : Sweep) (c : Cell) (next : Sweep) : Prop where
  rest : sweep.rest = c :: next.rest
  done : next.done = sweep.done ++ [c]
  sums : next.sums = Function.update sweep.sums c.1 (sweep.sums c.1 + UInt64.ofNat n)

theorem observes_of_observe {n : ℕ} {sweep next : Sweep} {c : Cell}
    (h : sweep.observe n = some (c, next)) :
  Observes n sweep c next
  := by
  obtain ⟨done, rest, horder, sums⟩ := sweep
  cases rest with
  | nil => cases h
  | cons d rest =>
      obtain ⟨rfl, rfl⟩ := Prod.mk.inj (Option.some.inj h)
      constructor <;> rfl

theorem Observes.notMem {n : ℕ} {sweep next : Sweep} {c : Cell} (h : Observes n sweep c next) :
  c ∉ sweep.done
  := by
  have hnodup := nodup_sweepOrder
  rw [← sweep.order, h.rest] at hnodup
  intro hmem
  apply List.disjoint_of_nodup_append hnodup hmem List.mem_cons_self

/-- A load of the current value sees all increments. -/
theorem observe_of_load {m : Metrics} {sweep next : Sweep} (h : sweep.load m = some next) :
  ∃ c, sweep.observe (m.cells c.1 c.2).added = some (c, next)
  := by
  obtain ⟨done, rest, horder, sums⟩ := sweep
  cases rest with
  | nil => cases h
  | cons c rest =>
      obtain rfl := Option.some.inj h
      exact ⟨c, rfl⟩

end Sweep

namespace RelaxedReporter

/-- The reporter before its first tick. -/
def init : RelaxedReporter where
  reporter := Reporter.init
  view _ := 0
  ticks := []

/-- The state after a load that sees `n` increments, if it may: no fewer than the load of the cell
before, and no more than there are. -/
def load (r : RelaxedReporter) (sweep : Sweep) (n : ℕ) : Option RelaxedReporter :=
  match sweep.observe n with
  | some (c, next) =>
      if r.view c ≤ n ∧ n ≤ r.reporter.added c then
        some
          { r with
            reporter := { r.reporter with phase := .reading next }
            view := Function.update r.view c n }
      else none
  | none => none

/-- The state after an action, if it is enabled. -/
def step (r : RelaxedReporter) : RelaxedAction → Option RelaxedReporter
  | .record cpuId k => (r.reporter.step (.record cpuId k)).map fun s => { r with reporter := s }
  | .signal => (r.reporter.step .signal).map fun s => { r with reporter := s }
  | .load n =>
      match r.reporter.phase with
      | .reading sweep => r.load sweep n
      | _ => none
  | .advance =>
      match r.reporter.phase with
      | .reading sweep =>
          if sweep.rest = [] then
            some { r with reporter := r.reporter.report sweep.sums, ticks := r.ticks ++ [r.view] }
          else none
      | _ => r.reporter.advance.map fun s => { r with reporter := s }

end RelaxedReporter

/-- The reporter with relaxed loads among any number of workers, as a transition system. -/
def relaxedReporter : LTS RelaxedReporter RelaxedAction where
  init := RelaxedReporter.init
  step := RelaxedReporter.step

/-- What a step can do. -/
inductive RelaxedStep (r : RelaxedReporter) : RelaxedAction → RelaxedReporter → Prop where
  | record (cpuId : ℕ) (k : Counter) : RelaxedStep r (.record cpuId k)
      { r with reporter := { r.reporter with metrics := r.reporter.metrics.record cpuId k } }
  | signal : RelaxedStep r .signal { r with reporter := { r.reporter with shutdown := true } }
  | load {n sweep c next} : r.reporter.phase = .reading sweep → Sweep.Observes n sweep c next →
      r.view c ≤ n → n ≤ r.reporter.added c →
      RelaxedStep r (.load n)
        { r with
          reporter := { r.reporter with phase := .reading next }
          view := Function.update r.view c n }
  | exit : r.reporter.phase = .sleeping →
      RelaxedStep r .advance { r with reporter := { r.reporter with phase := .exited } }
  | wake : r.reporter.phase = .sleeping →
      RelaxedStep r .advance { r with reporter := { r.reporter with phase := .reading .start } }
  | report {sweep line} : r.reporter.phase = .reading sweep → sweep.rest = [] →
      (∀ rate, line.delta rate = Saturating.sub (sweep.sums rate.counter) (r.reporter.prev rate)) →
      line.channelFull = sweep.sums .full →
      RelaxedStep r .advance
        { r with
          reporter :=
            { r.reporter with
              phase := .sleeping
              prevOk := sweep.sums .ok
              prevDrop := sweep.sums .drop
              logged := r.reporter.logged ++ [line] }
          ticks := r.ticks ++ [r.view] }

/-- Every step is one of `RelaxedStep`. -/
theorem relaxedStep_of_step {r t : RelaxedReporter} {a : RelaxedAction}
    (h : relaxedReporter.step r a = some t) :
  RelaxedStep r a t
  := by
  cases a with
  | record cpuId k =>
      obtain rfl := Option.some.inj h
      apply RelaxedStep.record
  | signal =>
      obtain rfl := Option.some.inj h
      apply RelaxedStep.signal
  | load n =>
      simp only [relaxedReporter, RelaxedReporter.step] at h
      split at h
      · rename_i sweep hphase
        rw [RelaxedReporter.load] at h
        split at h
        · rename_i c next hobserve
          split at h
          · rename_i hbounds
            obtain rfl := Option.some.inj h
            apply RelaxedStep.load hphase (Sweep.observes_of_observe hobserve) hbounds.1 hbounds.2
          · cases h
        · cases h
      · cases h
  | advance =>
      simp only [relaxedReporter, RelaxedReporter.step] at h
      split at h
      · rename_i sweep hphase
        split at h
        · rename_i hrest
          obtain rfl := Option.some.inj h
          obtain ⟨bps, hbps, -⟩ := Metrics.dropRateBps_spec
            (Saturating.sub (sweep.sums .ok) r.reporter.prevOk)
            (Saturating.sub (sweep.sums .drop) r.reporter.prevDrop)
          rw [Reporter.report, hbps]
          refine RelaxedStep.report hphase hrest ?_ rfl
          rintro (_ | _) <;> rfl
        · cases h
      · rename_i hreading
        obtain ⟨s, hs, rfl⟩ := Option.map_eq_some_iff.mp h
        have hst : reporter.step r.reporter .advance = some s := hs
        cases reporterStep_of_step hst with
        | exit hphase _ => apply RelaxedStep.exit hphase
        | wake hphase _ => apply RelaxedStep.wake hphase
        | load hphase _ => cases hreading _ hphase
        | report hphase _ _ _ _ => cases hreading _ hphase

/-! ### What the ticks have seen -/

/-- The number of increments of every cell seen by the end of the first `n` ticks, or so far if
there have not been as many. -/
def RelaxedReporter.seen (r : RelaxedReporter) : ℕ → Cell → ℕ
  | 0, _ => 0
  | n + 1, c => (r.ticks[n]?).getD r.view c

theorem seen_of_le {r s : RelaxedReporter} (hticks : s.ticks = r.ticks) {n : ℕ}
    (hn : n ≤ r.ticks.length) :
  s.seen n = r.seen n
  := by
  funext c
  cases n with
  | zero => rfl
  | succ n =>
      rw [RelaxedReporter.seen, RelaxedReporter.seen, hticks, List.getElem?_eq_getElem hn]
      rfl

theorem seen_of_lt {r : RelaxedReporter} {n : ℕ} (hn : r.ticks.length < n) :
  r.seen n = r.view
  := by
  funext c
  cases n with
  | zero => cases hn
  | succ n =>
      rw [RelaxedReporter.seen, List.getElem?_eq_none (Nat.le_of_lt_succ hn)]
      rfl

/-- At the end of a tick the view is written down. -/
theorem seen_report {r s : RelaxedReporter} (hticks : s.ticks = r.ticks ++ [r.view])
    (hview : s.view = r.view) :
  s.seen = r.seen
  := by
  have hlength : s.ticks.length = r.ticks.length + 1 := by rw [hticks, List.length_append]; rfl
  funext n
  rcases Nat.lt_trichotomy n (r.ticks.length + 1) with hlt | rfl | hlt
  · funext c
    cases n with
    | zero => rfl
    | succ n =>
        rw [RelaxedReporter.seen, RelaxedReporter.seen, hticks,
          List.getElem?_append_left (Nat.lt_of_succ_lt_succ hlt), hview]
  · rw [seen_of_lt (Nat.lt_succ_self _)]
    funext c
    rw [RelaxedReporter.seen, hticks, List.getElem?_append_right (Nat.le_refl _), Nat.sub_self]
    rfl
  · rw [seen_of_lt (by omega), seen_of_lt (by omega), hview]

/-- The number of increments of a counter seen in a view of all cells. -/
def viewTotal (view : Cell → ℕ) (k : Counter) : ℕ :=
  ∑ i, view (k, i)

/-- The number of increments of a counter seen in some cells. -/
def viewAmong (view : Cell → ℕ) (k : Counter) (cells : List Cell) : ℕ :=
  ((cells.filter (·.1 = k)).map view).sum

theorem viewAmong_sweepOrder (view : Cell → ℕ) (k : Counter) :
  viewAmong view k sweepOrder = viewTotal view k
  := by
  rw [viewAmong, filter_sweepOrder, List.map_map, viewTotal, Fin.sum_univ_def]
  rfl

/-- The cells seen after one more load. -/
theorem viewAmong_update {view : Cell → ℕ} {cells : List Cell} {c : Cell} (hc : c ∉ cells)
    (k : Counter) (n : ℕ) :
  viewAmong (Function.update view c n) k (cells ++ [c])
    = viewAmong view k cells + if c.1 = k then n else 0
  := by
  have hsame : ((cells.filter (·.1 = k)).map (Function.update view c n))
      = (cells.filter (·.1 = k)).map view := by
    apply List.map_congr_left
    intro d hd
    apply Function.update_of_ne
    rintro rfl
    apply hc (List.mem_of_mem_filter hd)
  rw [viewAmong, List.filter_append, List.map_append, List.sum_append, hsame, viewAmong]
  by_cases hk : c.1 = k <;> simp [hk]

/-! ### The invariant -/

/-- A line of the log tells by how much the view has grown. -/
structure RelaxedLine (r : RelaxedReporter) (n : ℕ) (line : Line) : Prop where
  delta : ∀ rate, line.delta rate
    = Saturating.sub (UInt64.ofNat (viewTotal (r.seen (n + 1)) rate.counter))
      (UInt64.ofNat (viewTotal (r.seen n) rate.counter))
  channelFull : line.channelFull = UInt64.ofNat (viewTotal (r.seen (n + 1)) .full)

/-- The view grows and stays below the counters, and the sums and the lines are what it says. -/
structure Observed (r : RelaxedReporter) : Prop where
  ticks : r.ticks.length = r.reporter.logged.length
  bound : ∀ c, r.view c ≤ r.reporter.added c
  mono : ∀ n c, r.seen n c ≤ r.seen (n + 1) c
  sums : ∀ {sweep}, r.reporter.phase = .reading sweep →
    ∀ k, sweep.sums k = UInt64.ofNat (viewAmong r.view k sweep.done)
  prev : ∀ rate, r.reporter.prev rate
    = UInt64.ofNat (viewTotal (r.seen r.ticks.length) rate.counter)
  lines : ∀ {n line}, r.reporter.logged[n]? = some line → RelaxedLine r n line

/-- A step that ends no tick. -/
theorem Observed.frame {r s : RelaxedReporter} (h : Observed r) (hticks : s.ticks = r.ticks)
    (hlogged : s.reporter.logged = r.reporter.logged) (hprev : s.reporter.prev = r.reporter.prev)
    (hview : ∀ c, r.view c ≤ s.view c) (hbound : ∀ c, s.view c ≤ s.reporter.added c)
    (hsums : ∀ {sweep}, s.reporter.phase = .reading sweep →
      ∀ k, sweep.sums k = UInt64.ofNat (viewAmong s.view k sweep.done)) :
  Observed s
  := by
  have hnew {n : ℕ} (hn : r.ticks.length < n) : s.seen n = s.view := by
    apply seen_of_lt
    rw [hticks]
    apply hn
  refine ⟨?_, hbound, ?_, hsums, ?_, ?_⟩
  · rw [hticks, hlogged, h.ticks]
  · intro n c
    have hmono := h.mono n c
    rcases Nat.lt_trichotomy n r.ticks.length with hlt | rfl | hlt
    · rw [seen_of_le hticks hlt.le, seen_of_le hticks hlt]
      apply hmono
    · rw [seen_of_lt (r := r) (Nat.lt_succ_self _)] at hmono
      rw [seen_of_le hticks le_rfl, hnew (Nat.lt_succ_self _)]
      apply hmono.trans (hview c)
    · rw [hnew hlt, hnew (Nat.lt_succ_of_lt hlt)]
  · intro rate
    rw [hprev, hticks, seen_of_le hticks le_rfl, h.prev]
  · intro n line hline
    rw [hlogged] at hline
    have hn : n + 1 ≤ r.ticks.length := by
      rw [h.ticks]
      apply (List.getElem?_eq_some_iff.mp hline).1
    obtain ⟨hdelta, hfull⟩ := h.lines hline
    constructor
    · intro rate
      rw [seen_of_le hticks hn, seen_of_le hticks (Nat.le_of_succ_le hn), hdelta]
    · rw [seen_of_le hticks hn, hfull]

/-- The end of a tick. -/
theorem Observed.report {r s : RelaxedReporter} {sweep : Sweep} {line : Line} (h : Observed r)
    (hphase : r.reporter.phase = .reading sweep) (hrest : sweep.rest = [])
    (hdelta : ∀ rate, line.delta rate
      = Saturating.sub (sweep.sums rate.counter) (r.reporter.prev rate))
    (hfull : line.channelFull = sweep.sums .full) (hticks : s.ticks = r.ticks ++ [r.view])
    (hview : s.view = r.view) (hadded : s.reporter.added = r.reporter.added)
    (hlogged : s.reporter.logged = r.reporter.logged ++ [line])
    (hprev : ∀ rate, s.reporter.prev rate = sweep.sums rate.counter)
    (hsleeping : s.reporter.phase = .sleeping) :
  Observed s
  := by
  have hseen : s.seen = r.seen := seen_report hticks hview
  have hlength : s.ticks.length = r.ticks.length + 1 := by
    rw [hticks, List.length_append]
    rfl
  have hsums (k : Counter) : sweep.sums k
      = UInt64.ofNat (viewTotal (r.seen (r.ticks.length + 1)) k) := by
    rw [h.sums hphase, Sweep.done_of_rest hrest, viewAmong_sweepOrder,
      seen_of_lt (Nat.lt_succ_self _)]
  refine ⟨?_, ?_, ?_, ?_, ?_, ?_⟩
  · rw [hlength, hlogged, List.length_append, h.ticks]
    rfl
  · rw [hview, hadded]
    apply h.bound
  · rw [hseen]
    apply h.mono
  · intro sweep' hreading
    cases hsleeping.symm.trans hreading
  · intro rate
    rw [hprev, hsums, hlength, hseen]
  · intro n l hl
    rw [hlogged] at hl
    rcases Nat.lt_or_ge n r.reporter.logged.length with hn | hn
    · rw [List.getElem?_append_left hn] at hl
      obtain ⟨hdelta', hfull'⟩ := h.lines hl
      constructor
      · rw [hseen]
        apply hdelta'
      · rw [hseen]
        apply hfull'
    · obtain ⟨rfl, rfl⟩ : n = r.ticks.length ∧ l = line := by
        rw [List.getElem?_append_right hn, List.getElem?_singleton] at hl
        split at hl
        · rw [h.ticks]
          constructor
          · omega
          · apply (Option.some.inj hl).symm
        · cases hl
      constructor
      · intro rate
        rw [hseen, hdelta, hsums, h.prev]
      · rw [hseen, hfull, hsums]

theorem observed {r : RelaxedReporter} (hr : relaxedReporter.Reachable r) :
  Observed r
  := by
  apply hr.invariant
  · refine ⟨rfl, fun _ => Nat.zero_le _, ?_, ?_, ?_, ?_⟩
    · intro n c
      cases n <;> exact le_rfl
    · rintro sweep ⟨⟩
    · rintro (_ | _) <;> rfl
    · rintro n line ⟨⟩
  · intro r a t _ ih hst
    cases relaxedStep_of_step hst with
    | record cpuId k =>
        refine ih.frame rfl rfl rfl (fun _ => le_rfl) (fun c => ?_) ih.sums
        have hadded := r.reporter.metrics.added_record cpuId k c
        apply (ih.bound c).trans ((Nat.le_add_right _ _).trans hadded.ge)
    | signal => exact ih.frame rfl rfl rfl (fun _ => le_rfl) ih.bound ih.sums
    | @load n sweep c next hphase hobserves hle hbound =>
        refine ih.frame rfl rfl rfl (fun d => ?_) (fun d => ?_) ?_
        · by_cases hd : d = c
          · subst hd
            simpa using hle
          · simp [Function.update_of_ne hd]
        · change Function.update r.view c n d ≤ r.reporter.added d
          by_cases hd : d = c
          · subst hd
            rw [Function.update_self]
            apply hbound
          · rw [Function.update_of_ne hd]
            apply ih.bound
        · rintro sweep' hreading k
          obtain rfl := ReporterPhase.reading.inj hreading
          rw [hobserves.done, viewAmong_update hobserves.notMem, hobserves.sums]
          by_cases hk : c.1 = k
          · subst hk
            rw [Function.update_self, if_pos rfl, UInt64.ofNat_add, ih.sums hphase]
          · rw [Function.update_of_ne (Ne.symm hk), if_neg hk, Nat.add_zero, ih.sums hphase]
    | exit _ =>
        refine ih.frame rfl rfl rfl (fun _ => le_rfl) ih.bound ?_
        rintro sweep ⟨⟩
    | wake _ =>
        refine ih.frame rfl rfl rfl (fun _ => le_rfl) ih.bound ?_
        rintro sweep ⟨⟩ k
        rfl
    | report hphase hrest hdelta hfull =>
        refine ih.report hphase hrest hdelta hfull rfl rfl rfl rfl ?_ rfl
        rintro (_ | _) <;> rfl

/-! ### The deltas -/

section Reachable

variable {r : RelaxedReporter} (hr : relaxedReporter.Reachable r)

include hr

theorem monotone_seen (c : Cell) :
  Monotone fun n => r.seen n c
  := monotone_nat_of_le_succ fun n => (observed hr).mono n c

/-- No more increments are seen than there are. -/
theorem seen_le_added (n : ℕ) (c : Cell) :
  r.seen n c ≤ r.reporter.added c
  := by
  have hle := monotone_seen hr c (Nat.le_max_left n (r.ticks.length + 1))
  have hlt : r.ticks.length < max n (r.ticks.length + 1) := Nat.le_max_right _ _
  simp only [seen_of_lt hlt] at hle
  apply hle.trans ((observed hr).bound c)

theorem viewTotal_seen_le (n : ℕ) (k : Counter) :
  viewTotal (r.seen n) k ≤ (r.reporter.metrics.cells k).total
  := Finset.sum_le_sum fun i _ => seen_le_added hr n (k, i)

variable {rate : Rate} (htotal : (r.reporter.metrics.cells rate.counter).total < 2 ^ 64)

include htotal

theorem toNat_viewTotal (n : ℕ) :
  (UInt64.ofNat (viewTotal (r.seen n) rate.counter)).toNat = viewTotal (r.seen n) rate.counter
  := by
  rw [UInt64.toNat_ofNat', Nat.mod_eq_of_lt]
  apply (viewTotal_seen_le hr n _).trans_lt htotal

/-- A delta is the sum of what the view of each cell has grown by. -/
theorem toNat_relaxed_delta {n : ℕ} {line : Line} (hline : r.reporter.logged[n]? = some line) :
  (line.delta rate).toNat
    = ∑ i, (r.seen (n + 1) (rate.counter, i) - r.seen n (rate.counter, i))
  := by
  rw [((observed hr).lines hline).delta, Saturating.toNat_sub, toNat_viewTotal hr htotal,
    toNat_viewTotal hr htotal, viewTotal, viewTotal,
    Finset.sum_tsub_distrib _ fun i _ => (observed hr).mono n (rate.counter, i)]

/-- The deltas logged so far add up to the total seen in the last tick. -/
theorem sum_relaxed_delta :
  (r.reporter.logged.map fun line => (line.delta rate).toNat).sum = (r.reporter.prev rate).toNat
  := by
  have hsum := sum_of_differences (fun n => viewTotal (r.seen n) rate.counter)
    (fun line : Line => (line.delta rate).toNat) r.reporter.logged fun {n line} hline => by
      have hle : viewTotal (r.seen n) rate.counter ≤ viewTotal (r.seen (n + 1)) rate.counter :=
        Finset.sum_le_sum fun i _ => (observed hr).mono n (rate.counter, i)
      rw [toNat_relaxed_delta hr htotal hline,
        Finset.sum_tsub_distrib _ fun i _ => (observed hr).mono n (rate.counter, i)]
      apply (Nat.add_sub_of_le hle).symm
  have hzero : viewTotal (r.seen 0) rate.counter = 0 := Finset.sum_eq_zero fun _ _ => rfl
  simp only [hzero, Nat.zero_add] at hsum
  rw [(observed hr).prev, toNat_viewTotal hr htotal, (observed hr).ticks, hsum]

end Reachable

/-- However stale the values are that the loads return, as long as the loads of one cell do not go
back and the totals stay below `2 ^ 64`: the view of the reporter grows from tick to tick and never
exceeds the counters; every delta is what the view has grown by, so none is clipped at zero; every
increment that the view has reached, the increment number `m` of a cell, is logged in exactly one
line; and the deltas add up to the total seen in the last tick. -/
theorem relaxed_deltas {r : RelaxedReporter} (hr : relaxedReporter.Reachable r)
    (hok : r.reporter.metrics.framesOk.total < 2 ^ 64)
    (hdrop : r.reporter.metrics.framesDropped.total < 2 ^ 64) :
  (∀ n c, r.seen n c ≤ r.seen (n + 1) c ∧ r.seen n c ≤ r.reporter.added c)
    ∧ (∀ n line, r.reporter.logged[n]? = some line → ∀ rate, (line.delta rate).toNat
      = ∑ i, (r.seen (n + 1) (rate.counter, i) - r.seen n (rate.counter, i)))
    ∧ (∀ c m, m < r.seen r.reporter.logged.length c →
      ∃! n, n < r.reporter.logged.length ∧ r.seen n c ≤ m ∧ m < r.seen (n + 1) c)
    ∧ ∀ rate, (r.reporter.logged.map fun line => (line.delta rate).toNat).sum
        = (r.reporter.prev rate).toNat
      ∧ (r.reporter.prev rate).toNat ≤ (r.reporter.metrics.cells rate.counter).total
  := by
  have htotal (rate : Rate) : (r.reporter.metrics.cells rate.counter).total < 2 ^ 64 := by
    cases rate with
    | frames => apply hok
    | drops => apply hdrop
  and_intros
  · intro n c
    exact ⟨(observed hr).mono n c, seen_le_added hr n c⟩
  · intro n line hline rate
    apply toNat_relaxed_delta hr (htotal rate) hline
  · intro c m hm
    apply existsUnique_between (monotone_seen hr c) (Nat.zero_le m) hm
  · intro rate
    refine ⟨sum_relaxed_delta hr (htotal rate), ?_⟩
    rw [(observed hr).prev, toNat_viewTotal hr (htotal rate)]
    apply viewTotal_seen_le hr

/-- A frame is recorded before the first tick; the loads of the first tick do not see it yet, and
those of the second do. -/
def staleTicks : List RelaxedAction :=
  .record 0 .ok :: .advance :: List.replicate 96 (.load 0) ++ .advance :: .advance :: .load 1
    :: List.replicate 95 (.load 0) ++ [.advance]

/-- The frame is logged in the line of the second tick. -/
theorem relaxed_deltas_staleTicks :
  ∃ r, relaxedReporter.run relaxedReporter.init staleTicks = some r
    ∧ r.reporter.logged.map Line.deltaOk = [0, 1]
    ∧ ∃! n, n < r.reporter.logged.length ∧ r.seen n (.ok, 0) ≤ 0 ∧ 0 < r.seen (n + 1) (.ok, 0)
  := by
  have hrun : (relaxedReporter.run relaxedReporter.init staleTicks).map (fun r =>
      (r.reporter.logged.map Line.deltaOk, r.reporter.metrics.framesOk.total,
        r.reporter.metrics.framesDropped.total, r.seen r.reporter.logged.length (.ok, 0)))
      = some ([0, 1], 1, 0, 1) := by decide +kernel
  obtain ⟨r, hr, heq⟩ := Option.map_eq_some_iff.mp hrun
  simp only [Prod.mk.injEq] at heq
  obtain ⟨hlogged, hok, hdrop, hseen⟩ := heq
  have hdeltas := relaxed_deltas ⟨_, hr⟩ (by rw [hok]; decide) (by rw [hdrop]; decide)
  refine ⟨r, hr, hlogged, hdeltas.2.2.1 (.ok, 0) 0 ?_⟩
  rw [hseen]
  apply Nat.one_pos

/-! ### Current loads -/

/-- A step of the reporter whose loads are current is a step of the reporter with relaxed loads. -/
theorem exists_relaxedStep {r : RelaxedReporter} {t : Reporter} {a : ReporterAction}
    (hr : relaxedReporter.Reachable r) (h : reporter.step r.reporter a = some t) :
  ∃ b s, relaxedReporter.step r b = some s ∧ s.reporter = t
  := by
  cases a with
  | record cpuId k =>
      obtain rfl := Option.some.inj h
      exact ⟨.record cpuId k, _, rfl, rfl⟩
  | signal =>
      obtain rfl := Option.some.inj h
      exact ⟨.signal, _, rfl, rfl⟩
  | advance =>
      change r.reporter.advance = some t at h
      cases hphase : r.reporter.phase with
      | reading sweep =>
          rw [Reporter.advance, hphase] at h
          simp only at h
          cases hload : sweep.load r.reporter.metrics with
          | some next =>
              rw [hload] at h
              obtain rfl := Option.some.inj h
              obtain ⟨c, hobserve⟩ := Sweep.observe_of_load hload
              have hadded : r.reporter.added c = (r.reporter.metrics.cells c.1 c.2).added := rfl
              rw [← hadded] at hobserve
              have hbounds : r.view c ≤ r.reporter.added c ∧ r.reporter.added c ≤ r.reporter.added c :=
                ⟨(observed hr).bound c, le_rfl⟩
              let s : RelaxedReporter :=
                { r with
                  reporter := { r.reporter with phase := .reading next }
                  view := Function.update r.view c (r.reporter.added c) }
              refine ⟨.load (r.reporter.added c), s, ?_, rfl⟩
              simp only [relaxedReporter, RelaxedReporter.step, hphase, RelaxedReporter.load,
                hobserve, if_pos hbounds, s]
          | none =>
              rw [hload] at h
              obtain rfl := Option.some.inj h
              have hrest := Sweep.rest_of_load_none hload
              let s : RelaxedReporter :=
                { r with reporter := r.reporter.report sweep.sums, ticks := r.ticks ++ [r.view] }
              refine ⟨.advance, s, ?_, rfl⟩
              simp only [relaxedReporter, RelaxedReporter.step, hphase, if_pos hrest, s]
      | _ =>
          use .advance, { r with reporter := t }
          simp only [relaxedReporter, RelaxedReporter.step, hphase, h, Option.map_some, and_self]

/-- A run of the reporter whose loads are current is a run of the reporter with relaxed loads. -/
theorem relaxed_of_reporter {as : List ReporterAction} {t : Reporter}
    (h : reporter.run reporter.init as = some t) :
  ∃ bs r, relaxedReporter.run relaxedReporter.init bs = some r ∧ r.reporter = t
  := by
  induction as using List.reverseRecOn generalizing t with
  | nil =>
      obtain rfl := Option.some.inj h
      exact ⟨[], _, rfl, rfl⟩
  | append_singleton as a ih =>
      rw [LTS.run_append] at h
      obtain ⟨s, hs, hlast⟩ := Option.bind_eq_some_iff.mp h
      rw [LTS.run_singleton] at hlast
      obtain ⟨bs, r, hrun, rfl⟩ := ih hs
      obtain ⟨b, u, hstep, hu⟩ := exists_relaxedStep ⟨bs, hrun⟩ hlast
      refine ⟨bs ++ [b], u, LTS.run_trans hrun ?_, hu⟩
      rw [LTS.run_singleton, hstep]

end SgCapture
