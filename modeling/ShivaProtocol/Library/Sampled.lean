import Mathlib.Algebra.Order.BigOperators.Group.Finset
import Mathlib.Data.Fintype.Basic
import ShivaProtocol.Library.LTS

/-!
# Counters sampled while they change

A system has counters that some actions hit, each hit adding one, and a reader that reads them
again and again, one in a step.  The reads of a counter are numbered from zero; a hit is seen by
the reads of its counter that come after it.

A read finds the number of the hits that this read or an earlier one sees (`count_eq_seen`), and
no later hit changes that number (`seen_concat`).  Hence the difference between what two
successive reads find counts the hits that the second sees and the first does not (`seen_succ`),
and every hit is included in one such difference (`existsUnique_included`).  The reads of different
counters need not be made at the same time: for a group of counters the numbers are added up
(`seenIn_succ`), and no snapshot of the group is taken.

If a read may find fewer hits than there have been, as long as the reads of a counter do not go
back, then the numbers found still divide the hits among the differences (`existsUnique_between`).
-/

universe u v w x

/-- A transition system with counters `ι` that are hit and read in its steps. -/
structure Sampled {σ : Type u} {α : Type v} (M : LTS σ α) (ι : Type w) [DecidableEq ι] where
  /-- The counter that an action hits. -/
  hit : α → Option ι
  /-- The counter that an action reads. -/
  read : σ → α → Option ι
  /-- The value of a counter. -/
  count : σ → ι → ℕ
  /-- The number of reads of a counter so far. -/
  reads : σ → ι → ℕ
  count_init : ∀ i, count M.init i = 0
  reads_init : ∀ i, reads M.init i = 0
  count_step : ∀ {s a t}, M.step s a = some t →
    ∀ i, count t i = count s i + if hit a = some i then 1 else 0
  reads_step : ∀ {s a t}, M.step s a = some t →
    ∀ i, reads t i = reads s i + if read s a = some i then 1 else 0

namespace Sampled

variable {σ : Type u} {α : Type v} {M : LTS σ α} {ι : Type w} [DecidableEq ι] (F : Sampled M ι)

/-! ### Reads -/

theorem reads_le_of_step {s t : σ} {a : α} (h : M.step s a = some t) (i : ι) :
  F.reads s i ≤ F.reads t i
  := by
  rw [F.reads_step h]
  apply Nat.le_add_right

/-- In a run, the reads of a counter before a step are no more than those in the end. -/
theorem reads_le_of_mem {as : List α} {s : σ} (h : M.run M.init as = some s) {x : σ × α}
    (hx : x ∈ M.trace M.init as) (i : ι) :
  F.reads x.1 i ≤ F.reads s i
  := by
  have hall : ∀ x ∈ M.trace M.init as, F.reads x.1 i ≤ F.reads s i := by
    apply LTS.run_trace_invariant (P := fun xs s => ∀ x ∈ xs, F.reads x.1 i ≤ F.reads s i) _ _ h
    · intro x hx
      simp at hx
    · intro as s a t _ hs hst x hx
      have hle := F.reads_le_of_step hst i
      rcases List.mem_append.mp hx with hx | hx
      · apply (hs x hx).trans hle
      · obtain rfl := List.mem_singleton.mp hx
        apply hle
  apply hall x hx

/-! ### Hits seen by the first reads -/

/-- The step is a hit of the counter `i`, and one of the first `n` reads of the counter sees it. -/
def Seen (n : ℕ) (i : ι) (x : σ × α) : Prop :=
  F.hit x.2 = some i ∧ F.reads x.1 i < n

instance Seen.decidable (n : ℕ) (i : ι) : DecidablePred (F.Seen n i) :=
  fun _ => inferInstanceAs (Decidable (_ ∧ _))

/-- The number of hits of a counter that one of its first `n` reads sees. -/
def seen (xs : List (σ × α)) (i : ι) (n : ℕ) : ℕ :=
  xs.countP fun x => F.Seen n i x

@[simp]
theorem seen_zero (xs : List (σ × α)) (i : ι) :
  F.seen xs i 0 = 0
  := by
  apply List.countP_eq_zero.mpr
  intro x _
  simp [Seen]

/-- A step that is no hit of a counter, or comes after its first `n` reads, is not seen by them. -/
theorem seen_concat (xs : List (σ × α)) {s : σ} {a : α} {i : ι} {n : ℕ}
    (h : F.hit a = some i → n ≤ F.reads s i) :
  F.seen (xs ++ [(s, a)]) i n = F.seen xs i n
  := by
  have hnot : ¬ F.Seen n i (s, a) := by
    rintro ⟨hhit, hlt⟩
    apply Nat.not_lt.mpr (h hhit) hlt
  rw [seen, List.countP_append, List.countP_singleton, if_neg (by simpa using hnot)]
  rfl

/-- A counter holds the number of its hits. -/
theorem count_eq_countP {as : List α} {s : σ} (h : M.run M.init as = some s) (i : ι) :
  F.count s i = (M.trace M.init as).countP fun x => F.hit x.2 = some i
  := by
  apply LTS.run_trace_invariant
    (P := fun xs s => F.count s i = xs.countP fun x => F.hit x.2 = some i) _ _ h
  · apply F.count_init
  · intro as s a t _ hs hst
    rw [F.count_step hst, hs, List.countP_append, List.countP_singleton]
    simp

/-- What a read finds: the number of hits that this read or an earlier one sees. -/
theorem count_eq_seen {as : List α} {s : σ} (h : M.run M.init as = some s) (i : ι) :
  F.count s i = F.seen (M.trace M.init as) i (F.reads s i + 1)
  := by
  rw [F.count_eq_countP h, seen]
  apply List.countP_congr
  intro x hx
  have hle := F.reads_le_of_mem h hx i
  simp [Seen, Nat.lt_succ_of_le hle]

/-- The first reads of a counter see no more hits than there are. -/
theorem seen_le_count {as : List α} {s : σ} (h : M.run M.init as = some s) (i : ι) (n : ℕ) :
  F.seen (M.trace M.init as) i n ≤ F.count s i
  := by
  rw [F.count_eq_countP h, seen]
  apply List.countP_mono_left
  intro x _ hx
  simpa using (of_decide_eq_true hx).1

/-! ### Differences of successive reads -/

/-- The step is a hit of the counter `i` that read number `n` of the counter sees, and no read
before it does. -/
def Included (n : ℕ) (i : ι) (x : σ × α) : Prop :=
  F.Seen (n + 1) i x ∧ ¬ F.Seen n i x

instance Included.decidable (n : ℕ) (i : ι) : DecidablePred (F.Included n i) :=
  fun _ => inferInstanceAs (Decidable (_ ∧ _))

/-- A hit is included in the difference whose number is the number of reads before it. -/
theorem included_iff {n : ℕ} {i : ι} {x : σ × α} :
  F.Included n i x ↔ F.hit x.2 = some i ∧ F.reads x.1 i = n
  := by
  rw [Included, Seen, Seen]
  constructor
  · rintro ⟨⟨hhit, hlt⟩, hnot⟩
    refine ⟨hhit, ?_⟩
    by_contra hne
    apply hnot ⟨hhit, by omega⟩
  · rintro ⟨hhit, rfl⟩
    refine ⟨⟨hhit, Nat.lt_succ_self _⟩, ?_⟩
    rintro ⟨_, hlt⟩
    apply Nat.lt_irrefl _ hlt

/-- A hit that one of the first `n` reads sees is included in exactly one of the first `n`
differences. -/
theorem existsUnique_included {n : ℕ} {i : ι} {x : σ × α} (h : F.Seen n i x) :
  ∃! m, m < n ∧ F.Included m i x
  := by
  use F.reads x.1 i
  constructor
  · exact ⟨h.2, F.included_iff.mpr ⟨h.1, rfl⟩⟩
  · rintro m ⟨_, hm⟩
    apply (F.included_iff.mp hm).2.symm

theorem seen_cons (x : σ × α) (xs : List (σ × α)) (i : ι) (n : ℕ) :
  F.seen (x :: xs) i n = F.seen xs i n + if F.Seen n i x then 1 else 0
  := by simp [seen, List.countP_cons]

/-- Read number `n` finds, beyond what the reads before it see, the hits included in the
difference number `n`. -/
theorem seen_succ (xs : List (σ × α)) (i : ι) (n : ℕ) :
  F.seen xs i (n + 1) = F.seen xs i n + xs.countP fun x => F.Included n i x
  := by
  induction xs with
  | nil => rfl
  | cons x xs ih =>
      have hone : (if F.Seen (n + 1) i x then 1 else 0)
          = (if F.Seen n i x then 1 else 0) + if F.Included n i x then 1 else 0 := by
        by_cases hn : F.Seen n i x
        · have hsucc : F.Seen (n + 1) i x := ⟨hn.1, Nat.lt_succ_of_lt hn.2⟩
          simp [Included, hn, hsucc]
        · simp [Included, hn]
      simp only [seen_cons, List.countP_cons, decide_eq_true_eq]
      rw [ih, hone]
      omega

/-! ### Groups of counters -/

variable {κ : Type x} (cells : κ → ι)

/-- The step is a hit of a counter of the group and included in the difference number `n` of that
counter. -/
def IncludedIn (n : ℕ) (x : σ × α) : Prop :=
  ∃ j, F.Included n (cells j) x

variable {cells}

/-- A hit of a group that one of the first `n` reads of its counter sees is included in exactly one
of the first `n` differences. -/
theorem existsUnique_includedIn (hcells : Function.Injective cells) {n : ℕ} {j : κ} {x : σ × α}
    (h : F.Seen n (cells j) x) :
  ∃! m, m < n ∧ F.IncludedIn cells m x
  := by
  obtain ⟨m, ⟨hlt, hm⟩, huniq⟩ := F.existsUnique_included h
  use m
  constructor
  · exact ⟨hlt, j, hm⟩
  · rintro l ⟨hl, k, hk⟩
    obtain rfl : k = j := by
      apply hcells
      apply Option.some.inj
      rw [← hk.1.1, h.1]
    apply huniq l ⟨hl, hk⟩

variable [Fintype κ]

instance IncludedIn.decidable (n : ℕ) : DecidablePred (F.IncludedIn cells n) :=
  fun x => inferInstanceAs (Decidable (∃ j, F.Included n (cells j) x))

/-- The number of hits of a group of counters that one of the first `n` reads of their counter
sees. -/
def seenIn (cells : κ → ι) (xs : List (σ × α)) (n : ℕ) : ℕ :=
  ∑ j, F.seen xs (cells j) n

@[simp]
theorem seenIn_zero (xs : List (σ × α)) :
  F.seenIn cells xs 0 = 0
  := by simp [seenIn]

/-- A step after the first `n` reads of all counters of a group is not seen by them. -/
theorem seenIn_concat (xs : List (σ × α)) {s : σ} {n : ℕ}
    (h : ∀ j, n ≤ F.reads s (cells j)) (a : α) :
  F.seenIn cells (xs ++ [(s, a)]) n = F.seenIn cells xs n
  := by
  apply Finset.sum_congr rfl
  intro j _
  apply F.seen_concat xs fun _ => h j

/-- A step is included in the difference of at most one counter. -/
theorem sum_included (hcells : Function.Injective cells) (n : ℕ) (x : σ × α) :
  (∑ j, if F.Included n (cells j) x then 1 else 0) = if F.IncludedIn cells n x then 1 else 0
  := by
  by_cases hx : F.IncludedIn cells n x
  · obtain ⟨j, hj⟩ := hx
    rw [if_pos ⟨j, hj⟩, Finset.sum_eq_single j, if_pos hj]
    · intro l _ hne
      apply if_neg
      intro hl
      apply hne
      apply hcells
      apply Option.some.inj
      rw [← hl.1.1, hj.1.1]
    · intro hnot
      exact absurd (Finset.mem_univ j) hnot
  · rw [if_neg hx]
    apply Finset.sum_eq_zero
    intro j _
    apply if_neg
    intro hj
    apply hx ⟨j, hj⟩

/-- For a group, the differences number `n` add up to the number of hits included in them. -/
theorem seenIn_succ (hcells : Function.Injective cells) (xs : List (σ × α)) (n : ℕ) :
  F.seenIn cells xs (n + 1) = F.seenIn cells xs n + xs.countP fun x => F.IncludedIn cells n x
  := by
  have hcount : (∑ j, xs.countP fun x => F.Included n (cells j) x)
      = xs.countP fun x => F.IncludedIn cells n x := by
    induction xs with
    | nil => simp
    | cons x xs ih =>
        simp only [List.countP_cons, decide_eq_true_eq]
        rw [Finset.sum_add_distrib, ih, F.sum_included hcells]
  simp only [seenIn, F.seen_succ]
  rw [Finset.sum_add_distrib, hcount]

/-- The hits that come before are seen as well in a longer run. -/
theorem seenIn_le_append (xs ys : List (σ × α)) (n : ℕ) :
  F.seenIn cells xs n ≤ F.seenIn cells (xs ++ ys) n
  := by
  apply Finset.sum_le_sum
  intro j _
  rw [seen, seen, List.countP_append]
  apply Nat.le_add_right

/-- If all counters of a group have been read equally often, the next reads would find all hits. -/
theorem sum_count_eq_seenIn {as : List α} {s : σ} (h : M.run M.init as = some s) {n : ℕ}
    (hreads : ∀ j, F.reads s (cells j) + 1 = n) :
  ∑ j, F.count s (cells j) = F.seenIn cells (M.trace M.init as) n
  := by
  apply Finset.sum_congr rfl
  intro j _
  rw [F.count_eq_seen h, hreads]

/-- The first reads of a group see no more hits than there are. -/
theorem seenIn_le_count {as : List α} {s : σ} (h : M.run M.init as = some s) (n : ℕ) :
  F.seenIn cells (M.trace M.init as) n ≤ ∑ j, F.count s (cells j)
  := by
  apply Finset.sum_le_sum
  intro j _
  apply F.seen_le_count h

end Sampled

/-! ### Growing numbers -/

/-- A number between the first and the last of some growing numbers lies between exactly two
successive ones. -/
theorem existsUnique_between {f : ℕ → ℕ} (hf : Monotone f) {m n : ℕ} (hm : f 0 ≤ m) (hn : m < f n) :
  ∃! l, l < n ∧ f l ≤ m ∧ m < f (l + 1)
  := by
  have hexists : ∃ l, l < n ∧ f l ≤ m ∧ m < f (l + 1) := by
    induction n with
    | zero => exact absurd hn (Nat.not_lt.mpr hm)
    | succ n ih =>
        rcases Nat.lt_or_ge m (f n) with hlt | hge
        · obtain ⟨l, hl, hbetween⟩ := ih hlt
          exact ⟨l, Nat.lt_succ_of_lt hl, hbetween⟩
        · exact ⟨n, Nat.lt_succ_self n, hge, hn⟩
  obtain ⟨l, hl, hle, hlt⟩ := hexists
  use l, ⟨hl, hle, hlt⟩
  rintro k ⟨_, hle', hlt'⟩
  rcases Nat.lt_trichotomy k l with hkl | rfl | hkl
  · have hmono : f (k + 1) ≤ f l := hf hkl
    omega
  · rfl
  · have hmono : f (l + 1) ≤ f k := hf hkl
    omega
