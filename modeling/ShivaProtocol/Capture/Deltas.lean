import Mathlib.Data.List.Induction
import ShivaProtocol.Capture.Reporter

/-!
# The deltas of the reporter

The reporter neither loses an increment nor counts it twice, although a tick takes no snapshot of
the counters.  After a run, it holds the numbers of increments that its loads have seen (`books`):
the sums of a sweep those that the loads of the sweep see, the totals before those that the last
tick has seen, and every line of the log the difference of two such numbers.  So the delta of a line
is the number of increments that the loads in its tick see and those in the tick before do not, and
every increment is included in one line (`deltas_of_run`).
-/

open SgCommon

namespace SgCapture

/-! ### What the reporter knows of the increments -/

/-- The number of increments of a counter that the loads of its first `n` ticks see. -/
def seenTotal (k : Counter) (xs : List (Reporter × ReporterAction)) (n : ℕ) : ℕ :=
  sampled.seenIn (fun i => (k, i)) xs n

/-- The number of increments of a counter that the loads `cells`, made in tick number `n` and
before, see. -/
def seenAmong (k : Counter) (xs : List (Reporter × ReporterAction)) (n : ℕ) (cells : List Cell) :
    ℕ :=
  ((cells.filter (·.1 = k)).map fun c => sampled.seen xs c (n + 1)).sum

theorem seenAmong_concat (k : Counter) (xs : List (Reporter × ReporterAction)) (n : ℕ)
    (cells : List Cell) (c : Cell) :
  seenAmong k xs n (cells ++ [c])
    = seenAmong k xs n cells + if c.1 = k then sampled.seen xs c (n + 1) else 0
  := by
  rw [seenAmong, List.filter_append, List.map_append, List.sum_append, seenAmong]
  by_cases hc : c.1 = k
  · simp [hc]
  · simp [hc]

/-- The loads of all cells see what the tick sees. -/
theorem seenAmong_sweepOrder (k : Counter) (xs : List (Reporter × ReporterAction)) (n : ℕ) :
  seenAmong k xs n sweepOrder = seenTotal k xs (n + 1)
  := by
  rw [seenAmong, filter_sweepOrder, List.map_map, seenTotal, Sampled.seenIn, Fin.sum_univ_def]
  rfl

/-- A line of the log: the deltas are the differences of what two successive ticks see, and the
total of `channel_full` is what the second sees. -/
structure LineOf (xs : List (Reporter × ReporterAction)) (n : ℕ) (line : Line) : Prop where
  delta : ∀ rate, line.delta rate
    = Saturating.sub (UInt64.ofNat (seenTotal rate.counter xs (n + 1)))
      (UInt64.ofNat (seenTotal rate.counter xs n))
  dropBps : Metrics.dropRateBps line.deltaOk line.deltaDrop = some line.dropBps
  channelFull : line.channelFull = UInt64.ofNat (seenTotal .full xs (n + 1))

/-- What the reporter holds after a run with the trace `xs`. -/
structure Books (xs : List (Reporter × ReporterAction)) (r : Reporter) : Prop where
  sums : ∀ {sweep}, r.phase = .reading sweep →
    ∀ k, sweep.sums k = UInt64.ofNat (seenAmong k xs r.logged.length sweep.done)
  prev : ∀ rate, r.prev rate = UInt64.ofNat (seenTotal rate.counter xs r.logged.length)
  lines : ∀ {n line}, r.logged[n]? = some line → LineOf xs n line
  running : r.phase ≠ .panicked

section Step

variable (xs : List (Reporter × ReporterAction)) {r : Reporter} (a : ReporterAction)

/-- A step is seen by no tick that has been logged. -/
theorem seenTotal_concat {n : ℕ} (h : n ≤ r.logged.length) (k : Counter) :
  seenTotal k (xs ++ [(r, a)]) n = seenTotal k xs n
  := by
  apply sampled.seenIn_concat
  intro i
  apply h.trans (r.length_le_reads _)

/-- A step is seen by none of the loads made so far. -/
theorem seenAmong_concat_step {sweep : Sweep} (h : r.phase = .reading sweep) (k : Counter) :
  seenAmong k (xs ++ [(r, a)]) r.logged.length sweep.done
    = seenAmong k xs r.logged.length sweep.done
  := by
  rw [seenAmong, seenAmong]
  congr 1
  apply List.map_congr_left
  intro c hc
  apply sampled.seen_concat
  intro _
  have hreads := r.reads_of_reading h c
  rw [if_pos (List.mem_of_mem_filter hc)] at hreads
  apply hreads.ge

variable {xs}

theorem LineOf.concat {n : ℕ} {line : Line} (h : LineOf xs n line) (hn : n < r.logged.length) :
  LineOf (xs ++ [(r, a)]) n line
  := by
  constructor
  · intro rate
    rw [seenTotal_concat xs a hn, seenTotal_concat xs a hn.le, h.delta]
  · apply h.dropBps
  · rw [seenTotal_concat xs a hn, h.channelFull]

theorem Books.sums_concat (h : Books xs r) {sweep : Sweep} (hphase : r.phase = .reading sweep)
    (k : Counter) :
  sweep.sums k = UInt64.ofNat (seenAmong k (xs ++ [(r, a)]) r.logged.length sweep.done)
  := by rw [seenAmong_concat_step xs a hphase, h.sums hphase]

/-- A step that does not log keeps the books if it keeps the sums. -/
theorem Books.frame {t : Reporter} (h : Books xs r) (hprev : t.prev = r.prev)
    (hlogged : t.logged = r.logged)
    (hsums : ∀ {sweep}, t.phase = .reading sweep → ∀ k,
      sweep.sums k = UInt64.ofNat (seenAmong k (xs ++ [(r, a)]) r.logged.length sweep.done))
    (hrunning : t.phase ≠ .panicked) :
  Books (xs ++ [(r, a)]) t
  := by
  constructor
  · rw [hlogged]
    apply hsums
  · intro rate
    rw [hprev, hlogged, seenTotal_concat xs a le_rfl, h.prev]
  · intro n line hline
    rw [hlogged] at hline
    apply (h.lines hline).concat a (List.getElem?_eq_some_iff.mp hline).1
  · apply hrunning

end Step

/-- A load returns the number of increments that it or an earlier load of the cell sees. -/
theorem load_eq_seen {as : List ReporterAction} {r : Reporter} {sweep : Sweep} {c : Cell}
    (hrun : reporter.run reporter.init as = some r) (hphase : r.phase = .reading sweep)
    (hc : c ∉ sweep.done) :
  (r.metrics.cells c.1 c.2).load
    = UInt64.ofNat (sampled.seen (reporter.trace reporter.init as) c (r.logged.length + 1))
  := by
  have hcount : r.added c = _ := sampled.count_eq_seen hrun c
  have hreads : sampled.reads r c = r.logged.length := by
    apply Eq.trans (r.reads_of_reading hphase c)
    rw [if_neg hc, Nat.add_zero]
  rw [AtomicU64.load, ← hreads, ← hcount]
  rfl

/-- A load adds to the sum of its counter what it sees. -/
theorem Books.sums_load {as : List ReporterAction} {r : Reporter} {sweep next : Sweep} {c : Cell}
    (hrun : reporter.run reporter.init as = some r) (h : Books (reporter.trace reporter.init as) r)
    (hphase : r.phase = .reading sweep) (hload : Sweep.Loads r.metrics sweep c next) (k : Counter) :
  next.sums k = UInt64.ofNat
    (seenAmong k (reporter.trace reporter.init as ++ [(r, .advance)]) r.logged.length next.done)
  := by
  have hvalue := load_eq_seen hrun hphase hload.notMem
  have hseen := sampled.seen_concat (reporter.trace reporter.init as) (s := r)
    (a := ReporterAction.advance) (i := c) (n := r.logged.length + 1) (by rintro ⟨⟩)
  rw [hload.done, seenAmong_concat, seenAmong_concat_step _ _ hphase, hseen, hload.sums]
  by_cases hk : c.1 = k
  · subst hk
    rw [Function.update_self, if_pos rfl, UInt64.ofNat_add, ← hvalue, h.sums hphase]
  · rw [Function.update_of_ne (Ne.symm hk), if_neg hk, Nat.add_zero, h.sums hphase]

/-- A tick logs what its loads see, less what the loads of the ticks before see. -/
theorem Books.report {xs : List (Reporter × ReporterAction)} {r : Reporter} {sweep : Sweep}
    {line : Line} (h : Books xs r) (hphase : r.phase = .reading sweep) (hrest : sweep.rest = [])
    (hdelta : ∀ rate, line.delta rate
      = Saturating.sub (sweep.sums rate.counter) (r.prev rate))
    (hbps : Metrics.dropRateBps line.deltaOk line.deltaDrop = some line.dropBps)
    (hfull : line.channelFull = sweep.sums .full) :
  Books (xs ++ [(r, .advance)])
    { r with
      phase := .sleeping
      prevOk := sweep.sums .ok
      prevDrop := sweep.sums .drop
      logged := r.logged ++ [line] }
  := by
  have hsums (k : Counter) : sweep.sums k
      = UInt64.ofNat (seenTotal k (xs ++ [(r, .advance)]) (r.logged.length + 1)) := by
    rw [h.sums_concat .advance hphase, Sweep.done_of_rest hrest, seenAmong_sweepOrder]
  have hlength : (r.logged ++ [line]).length = r.logged.length + 1 := List.length_append
  constructor
  · intro sweep hsweep
    cases hsweep
  · intro rate
    rw [hlength, ← hsums]
    cases rate <;> rfl
  · intro n l hl
    rcases Nat.lt_or_ge n r.logged.length with hn | hn
    · rw [List.getElem?_append_left hn] at hl
      apply (h.lines hl).concat _ hn
    · obtain ⟨rfl, rfl⟩ : n = r.logged.length ∧ l = line := by
        rw [List.getElem?_append_right hn, List.getElem?_singleton] at hl
        split at hl
        · constructor
          · omega
          · apply (Option.some.inj hl).symm
        · cases hl
      constructor
      · intro rate
        rw [hdelta, hsums, seenTotal_concat _ _ le_rfl, h.prev]
      · apply hbps
      · rw [hfull, hsums]
  · rintro ⟨⟩

/-- The books are kept by every step. -/
theorem Books.step {as : List ReporterAction} {r t : Reporter} {a : ReporterAction}
    (hrun : reporter.run reporter.init as = some r) (h : Books (reporter.trace reporter.init as) r)
    (hst : reporter.step r a = some t) :
  Books (reporter.trace reporter.init as ++ [(r, a)]) t
  := by
  cases reporterStep_of_step hst with
  | record cpuId k => exact h.frame _ rfl rfl (h.sums_concat _) h.running
  | signal => exact h.frame _ rfl rfl (h.sums_concat _) h.running
  | exit _ _ =>
      refine h.frame _ rfl rfl ?_ ?_
      · rintro sweep ⟨⟩
      · rintro ⟨⟩
  | wake _ _ =>
      refine h.frame _ rfl rfl ?_ ?_
      · rintro sweep ⟨⟩ k
        rfl
      · rintro ⟨⟩
  | load hphase hload =>
      refine h.frame _ rfl rfl ?_ ?_
      · rintro sweep ⟨⟩
        apply h.sums_load hrun hphase hload
      · rintro ⟨⟩
  | report hphase hrest hdelta hbps hfull => apply h.report hphase hrest hdelta hbps hfull

/-- The books are right after every run. -/
theorem books {as : List ReporterAction} {r : Reporter}
    (h : reporter.run reporter.init as = some r) :
  Books (reporter.trace reporter.init as) r
  := by
  apply LTS.run_trace_invariant _ _ h
  · constructor
    · rintro sweep ⟨⟩
    · rintro (_ | _) <;> rfl
    · rintro n line ⟨⟩
    · rintro ⟨⟩
  · intro as r a t hrun hbooks hst
    apply hbooks.step hrun hst

/-! ### The deltas -/

theorem injective_cell (k : Counter) :
  Function.Injective fun i : Fin NCPU => (k, i)
  := Prod.mk_right_injective k

/-- The step is an increment of the counter `k`. -/
def Increments (k : Counter) (x : Reporter × ReporterAction) : Prop :=
  ∃ i, x.2.hit = some (k, i)

/-- The step is an increment of the counter `k` and included in line number `n`: the load of its
cell in tick number `n` sees it, and the loads in the ticks before do not. -/
def IncludedInLine (k : Counter) (n : ℕ) (x : Reporter × ReporterAction) : Prop :=
  sampled.IncludedIn (fun i => (k, i)) n x

instance IncludedInLine.decidable (k : Counter) (n : ℕ) : DecidablePred (IncludedInLine k n) :=
  fun x => inferInstanceAs (Decidable (sampled.IncludedIn (fun i => (k, i)) n x))

theorem seenTotal_succ (k : Counter) (xs : List (Reporter × ReporterAction)) (n : ℕ) :
  seenTotal k xs (n + 1) = seenTotal k xs n + xs.countP fun x => IncludedInLine k n x
  := sampled.seenIn_succ (injective_cell k) xs n

/-- No more increments are seen than there are. -/
theorem seenTotal_le_total {as : List ReporterAction} {r : Reporter}
    (h : reporter.run reporter.init as = some r) (k : Counter) (n : ℕ) :
  seenTotal k (reporter.trace reporter.init as) n ≤ (r.metrics.cells k).total
  := sampled.seenIn_le_count h n

/-- Between two ticks, the next one would see all increments. -/
theorem total_eq_seenTotal {as : List ReporterAction} {r : Reporter}
    (h : reporter.run reporter.init as = some r) (hsleeping : r.phase = .sleeping) (k : Counter) :
  (r.metrics.cells k).total
    = seenTotal k (reporter.trace reporter.init as) (r.logged.length + 1)
  := by
  have hreads (i : Fin NCPU) : sampled.reads r (k, i) + 1 = r.logged.length + 1 := by
    have hi : sampled.reads r (k, i) = r.logged.length := r.reads_of_sleeping hsleeping (k, i)
    rw [hi]
  have hcount := sampled.sum_count_eq_seenIn h hreads
  apply hcount

/-- The totals only grow. -/
theorem total_le_of_run {as : List ReporterAction} {r t : Reporter}
    (h : reporter.run r as = some t) (k : Counter) :
  (r.metrics.cells k).total ≤ (t.metrics.cells k).total
  := by
  apply LTS.run_rel (fun r t => (r.metrics.cells k).total ≤ (t.metrics.cells k).total) _ _ _ h
  · intro r
    apply le_refl
  · intro r t u hrt htu
    apply hrt.trans htu
  · intro r a t hst
    apply Finset.sum_le_sum
    intro i _
    have hadded := Reporter.added_step hst (k, i)
    apply (Nat.le_add_right _ _).trans hadded.ge

/-- Numbers that grow by the values of a list, one after another, grow by its sum. -/
theorem sum_of_differences {α : Type} (f : ℕ → ℕ) (g : α → ℕ) (xs : List α)
    (h : ∀ {n x}, xs[n]? = some x → f (n + 1) = f n + g x) :
  f xs.length = f 0 + (xs.map g).sum
  := by
  induction xs using List.reverseRecOn with
  | nil => rfl
  | append_singleton xs x ih =>
      have hlast : f (xs.length + 1) = f xs.length + g x := by
        apply h
        rw [List.getElem?_append_right le_rfl, Nat.sub_self, List.getElem?_cons_zero]
      have hinit : f xs.length = f 0 + (xs.map g).sum := by
        apply ih
        intro n y hy
        apply h
        rw [List.getElem?_append_left (List.getElem?_eq_some_iff.mp hy).1, hy]
      rw [List.length_append, List.length_singleton, hlast, hinit, List.map_append, List.sum_append,
        List.map_singleton, List.sum_singleton, Nat.add_assoc]

section Run

variable {as : List ReporterAction} {r : Reporter} {rate : Rate}
  (h : reporter.run reporter.init as = some r)
  (htotal : (r.metrics.cells rate.counter).total < 2 ^ 64)

include h htotal

/-- What the ticks see fits in a word while the total does. -/
theorem toNat_ofNat_seenTotal (n : ℕ) :
  (UInt64.ofNat (seenTotal rate.counter (reporter.trace reporter.init as) n)).toNat
    = seenTotal rate.counter (reporter.trace reporter.init as) n
  := by
  rw [UInt64.toNat_ofNat', Nat.mod_eq_of_lt]
  apply (seenTotal_le_total h rate.counter n).trans_lt htotal

/-- The delta of a line is the number of increments included in it. -/
theorem toNat_delta {n : ℕ} {line : Line} (hline : r.logged[n]? = some line) :
  (line.delta rate).toNat
    = (reporter.trace reporter.init as).countP fun x => IncludedInLine rate.counter n x
  := by
  rw [((books h).lines hline).delta, Saturating.toNat_sub, toNat_ofNat_seenTotal h htotal,
    toNat_ofNat_seenTotal h htotal, seenTotal_succ, Nat.add_sub_cancel_left]

/-- The deltas add up to the total of the last tick. -/
theorem sum_delta :
  (r.logged.map fun line => (line.delta rate).toNat).sum = (r.prev rate).toNat
  := by
  have hsum := sum_of_differences (seenTotal rate.counter (reporter.trace reporter.init as))
    (fun line : Line => (line.delta rate).toNat) r.logged fun hline => by
      rw [seenTotal_succ, toNat_delta h htotal hline]
  rw [(books h).prev, toNat_ofNat_seenTotal h htotal, hsum, seenTotal, Sampled.seenIn_zero,
    Nat.zero_add]

end Run

/-! ### The ticks of a run -/

/-- A tick of the run begins in the state `t`, after the actions `before`. -/
def TickBegins (as before : List ReporterAction) (t : Reporter) : Prop :=
  (∃ after, as = before ++ .advance :: after) ∧ reporter.run reporter.init before = some t
    ∧ t.phase = .sleeping ∧ t.shutdown = false

/-- A tick of the run has read `totals` and ends with the step from `t` to `u`. -/
def TickEnds (as : List ReporterAction) (t : Reporter) (totals : Counter → UInt64)
    (u : Reporter) : Prop :=
  ∃ before after sweep, as = before ++ .advance :: after
    ∧ reporter.run reporter.init before = some t ∧ reporter.step t .advance = some u
    ∧ t.phase = .reading sweep ∧ sweep.rest = [] ∧ sweep.sums = totals

/-- The totals read in a tick are the totals before in the next. -/
theorem prev_of_tickEnds {as : List ReporterAction} {t u : Reporter} {totals : Counter → UInt64}
    (h : TickEnds as t totals u) (rate : Rate) :
  u.prev rate = totals rate.counter
  := by
  obtain ⟨before, after, sweep, -, -, hst, hphase, hrest, rfl⟩ := h
  cases reporterStep_of_step hst with
  | exit hsleeping _ =>
      rw [hsleeping] at hphase
      cases hphase
  | wake hsleeping _ =>
      rw [hsleeping] at hphase
      cases hphase
  | load hreading hload =>
      obtain rfl := ReporterPhase.reading.inj (hreading.symm.trans hphase)
      rw [hload.rest] at hrest
      cases hrest
  | report hreading _ _ _ _ =>
      obtain rfl := ReporterPhase.reading.inj (hreading.symm.trans hphase)
      cases rate <;> rfl

/-- An increment before a tick begins is included in exactly one line, once the tick is logged. -/
theorem existsUnique_includedInLine {as before : List ReporterAction} {r t : Reporter}
    (htick : TickBegins as before t) (hlogged : t.logged.length < r.logged.length)
    {x : Reporter × ReporterAction} (hx : x ∈ reporter.trace reporter.init before) {k : Counter}
    (hk : Increments k x) :
  ∃! n, n < r.logged.length ∧ IncludedInLine k n x
  := by
  obtain ⟨⟨after, rfl⟩, hbefore, hsleeping, -⟩ := htick
  obtain ⟨i, hi⟩ := hk
  apply sampled.existsUnique_includedIn (injective_cell k) (j := i)
  refine ⟨hi, ?_⟩
  have hreads : x.1.reads (k, i) ≤ t.reads (k, i) := sampled.reads_le_of_mem hbefore hx (k, i)
  rw [t.reads_of_sleeping hsleeping] at hreads
  apply hreads.trans_lt hlogged

/-- The total that a tick reads lies between those at its beginning and at its end. -/
theorem total_between {before during : List ReporterAction} {t u : Reporter} {sweep : Sweep}
    (hbefore : reporter.run reporter.init before = some t) (hsleeping : t.phase = .sleeping)
    (hduring : reporter.run t during = some u) (hphase : u.phase = .reading sweep)
    (hrest : sweep.rest = []) (hlogged : u.logged.length = t.logged.length) {k : Counter}
    (htotal : (u.metrics.cells k).total < 2 ^ 64) :
  (t.metrics.cells k).total ≤ (sweep.sums k).toNat
    ∧ (sweep.sums k).toNat ≤ (u.metrics.cells k).total
  := by
  have hu := LTS.run_trans hbefore hduring
  have hle := seenTotal_le_total hu k (t.logged.length + 1)
  have hsums : (sweep.sums k).toNat
      = seenTotal k (reporter.trace reporter.init (before ++ during)) (t.logged.length + 1) := by
    rw [(books hu).sums hphase, Sweep.done_of_rest hrest, seenAmong_sweepOrder, hlogged,
      UInt64.toNat_ofNat', Nat.mod_eq_of_lt (hle.trans_lt htotal)]
  rw [hsums, total_eq_seenTotal hbefore hsleeping, LTS.trace_append during hbefore]
  constructor
  · apply sampled.seenIn_le_append
  · rw [← LTS.trace_append during hbefore]
    apply hle

section Tick

variable {as : List ReporterAction} {r t u : Reporter} {totals : Counter → UInt64} {rate : Rate}
  (h : reporter.run reporter.init as = some r)
  (htotal : (r.metrics.cells rate.counter).total < 2 ^ 64)

include h htotal

/-- After a tick, the deltas logged so far add up to the total that it has read. -/
theorem sum_delta_of_tickEnds (htick : TickEnds as t totals u) :
  (u.logged.map fun line => (line.delta rate).toNat).sum = (totals rate.counter).toNat
  := by
  have hprev := prev_of_tickEnds htick rate
  obtain ⟨before, after, sweep, rfl, hbefore, hst, -, -, -⟩ := htick
  have hu : reporter.run reporter.init (before ++ [.advance]) = some u := by
    apply LTS.run_trans hbefore
    rw [LTS.run_singleton, hst]
  have hafter : reporter.run u after = some r := by
    apply LTS.run_of_append _ hu
    rw [List.append_assoc]
    apply h
  rw [sum_delta hu ((total_le_of_run hafter _).trans_lt htotal), hprev]

/-- The total read in a tick is no less than the one before: the difference is not clipped. -/
theorem prev_le_of_tickEnds (htick : TickEnds as t totals u) :
  t.prev rate ≤ totals rate.counter
  := by
  obtain ⟨before, after, sweep, rfl, hbefore, -, hphase, hrest, rfl⟩ := htick
  have ht := (total_le_of_run (LTS.run_of_append h hbefore) _).trans_lt htotal
  rw [UInt64.le_iff_toNat_le, (books hbefore).prev, (books hbefore).sums hphase,
    Sweep.done_of_rest hrest, seenAmong_sweepOrder, toNat_ofNat_seenTotal hbefore ht,
    toNat_ofNat_seenTotal hbefore ht, seenTotal_succ]
  apply Nat.le_add_right

end Tick

/-- In every run in which the totals stay below `2 ^ 64`: after each tick the deltas logged so far
add up to the totals it has read, which are no less than those before; each delta is the number of
increments included in it, and every increment before a tick begins is included in exactly one, once
the tick is logged.  The drop rates are at most 10,000 basis points and exact if nothing saturates,
and no division by zero panics. -/
theorem deltas_of_run {as : List ReporterAction} {r : Reporter}
    (h : reporter.run reporter.init as = some r) (hok : r.metrics.framesOk.total < 2 ^ 64)
    (hdrop : r.metrics.framesDropped.total < 2 ^ 64) :
  (∀ t totals u, TickEnds as t totals u → ∀ rate,
      (u.logged.map fun line => (line.delta rate).toNat).sum = (totals rate.counter).toNat
        ∧ t.prev rate ≤ totals rate.counter)
    ∧ (∀ n line, r.logged[n]? = some line → ∀ rate,
      (line.delta rate).toNat
        = (reporter.trace reporter.init as).countP fun x => IncludedInLine rate.counter n x)
    ∧ (∀ before t, TickBegins as before t → t.logged.length < r.logged.length →
      ∀ x ∈ reporter.trace reporter.init before, ∀ rate : Rate, Increments rate.counter x →
        ∃! n, n < r.logged.length ∧ IncludedInLine rate.counter n x)
    ∧ (∀ line ∈ r.logged, Metrics.DropRate line.deltaOk line.deltaDrop line.dropBps)
    ∧ (∀ ok drop, ∃ bps, Metrics.dropRateBps ok drop = some bps ∧ Metrics.DropRate ok drop bps)
    ∧ r.phase ≠ .panicked
  := by
  have htotal (rate : Rate) : (r.metrics.cells rate.counter).total < 2 ^ 64 := by
    cases rate with
    | frames => apply hok
    | drops => apply hdrop
  refine ⟨?_, ?_, ?_, ?_, Metrics.dropRateBps_spec, (books h).running⟩
  · intro t totals u htick rate
    constructor
    · apply sum_delta_of_tickEnds h (htotal rate) htick
    · apply prev_le_of_tickEnds h (htotal rate) htick
  · intro n line hline rate
    apply toNat_delta h (htotal rate) hline
  · intro before t htick hlogged x hx rate hx'
    apply existsUnique_includedInLine htick hlogged hx hx'
  · intro line hline
    obtain ⟨n, hn⟩ := List.getElem?_of_mem hline
    obtain ⟨bps, hbps, hrate⟩ := Metrics.dropRateBps_spec line.deltaOk line.deltaDrop
    obtain rfl := Option.some.inj (hbps.symm.trans ((books h).lines hn).dropBps)
    apply hrate

/-- Two ticks.  In the first, a cell is incremented after its load, another before its load. -/
def sampleTicks : List ReporterAction :=
  .record 0 .ok :: .advance :: .advance :: .record 0 .ok :: .record 5 .ok :: .record 3 .drop
    :: List.replicate (sweepOrder.length + (sweepOrder.length + 2)) .advance

/-- The increment between the two loads is in the line of the second tick. -/
theorem deltas_of_sampleTicks :
  ∃ r, reporter.run reporter.init sampleTicks = some r
    ∧ r.logged.map (fun line => (line.deltaOk, line.deltaDrop, line.dropBps))
      = [(2, 1, 3333), (1, 0, 0)]
    ∧ (∀ t totals u, TickEnds sampleTicks t totals u → ∀ rate,
      (u.logged.map fun line => (line.delta rate).toNat).sum = (totals rate.counter).toNat
        ∧ t.prev rate ≤ totals rate.counter)
    ∧ ∀ before t, TickBegins sampleTicks before t → t.logged.length < r.logged.length →
      ∀ x ∈ reporter.trace reporter.init before, ∀ rate : Rate, Increments rate.counter x →
        ∃! n, n < r.logged.length ∧ IncludedInLine rate.counter n x
  := by
  have hsample : (reporter.run reporter.init sampleTicks).map (fun r =>
      (r.logged.map fun line => (line.deltaOk, line.deltaDrop, line.dropBps),
        r.metrics.framesOk.total, r.metrics.framesDropped.total))
      = some ([(2, 1, 3333), (1, 0, 0)], 3, 1) := by decide +kernel
  obtain ⟨r, hrun, hr⟩ := Option.map_eq_some_iff.mp hsample
  obtain ⟨hlogged, hok, hdrop⟩ : _ ∧ _ ∧ _ := by simpa only [Prod.mk.injEq] using hr
  obtain ⟨hticks, -, hincluded, -⟩ :=
    deltas_of_run hrun (by rw [hok]; decide) (by rw [hdrop]; decide)
  exact ⟨r, hrun, hlogged, hticks, hincluded⟩

end SgCapture
