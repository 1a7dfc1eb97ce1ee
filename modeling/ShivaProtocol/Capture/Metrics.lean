import Mathlib.Algebra.BigOperators.Fin
import ShivaProtocol.Common.SignalFrame

/-!
# The counters of the vacuum workers

A metrics block has three arrays of counters, with one cell for every CPU.  A cell is modelled by
the number of times it has been incremented; the value it holds is that number modulo `2 ^ 64`.
Recording for a CPU increments its cell and no other (`cell_record`); a CPU id without a cell is
ignored.
-/

open SgCommon

namespace SgCapture

/-- An atomic counter that is only ever incremented by one. -/
structure AtomicU64 where
  /-- The number of increments. -/
  added : ℕ

namespace AtomicU64

/-- The counter at zero. -/
def new : AtomicU64 := ⟨0⟩

/-- The value a load returns. -/
def load (c : AtomicU64) : UInt64 :=
  UInt64.ofNat c.added

/-- The counter after an increment. -/
def fetchAdd (c : AtomicU64) : AtomicU64 :=
  ⟨c.added + 1⟩

/-- An increment adds one to the value, modulo `2 ^ 64`. -/
theorem load_fetchAdd (c : AtomicU64) :
  c.fetchAdd.load = c.load + 1
  := by
  rw [load, fetchAdd, UInt64.ofNat_add]
  rfl

end AtomicU64

/-- An array with a counter for every CPU. -/
abbrev Cells := Fin NCPU → AtomicU64

/-- An array of counters at zero. -/
def zeroArray : Cells := fun _ => AtomicU64.new

namespace Cells

/-- The array after an increment for a CPU; a CPU id out of range is ignored. -/
def record (cells : Cells) (cpuId : ℕ) : Cells :=
  if h : cpuId < NCPU then
    Function.update cells ⟨cpuId, h⟩ (cells ⟨cpuId, h⟩).fetchAdd
  else cells

/-- The number of increments for a CPU. -/
def cell (cells : Cells) (cpuId : ℕ) : ℕ :=
  if h : cpuId < NCPU then (cells ⟨cpuId, h⟩).added else 0

/-- The number of increments for all CPUs together. -/
def total (cells : Cells) : ℕ :=
  ∑ i, (cells i).added

@[simp]
theorem cell_zeroArray (cpuId : ℕ) :
  cell zeroArray cpuId = 0
  := by
  rw [cell]
  split <;> rfl

theorem cell_record (cells : Cells) {cpuId : ℕ} (h : cpuId < NCPU) (c : ℕ) :
  (cells.record cpuId).cell c = cells.cell c + if c = cpuId then 1 else 0
  := by
  rw [record, dif_pos h, cell, cell]
  by_cases hc : c = cpuId
  · subst hc
    rw [dif_pos h, dif_pos h, Function.update_self, if_pos rfl]
    rfl
  · rw [if_neg hc]
    split
    · rw [Function.update_of_ne (by simpa using hc)]
      rfl
    · rfl

/-- Only the cell of one CPU has been incremented, and that `n` times. -/
def Only (cells : Cells) (cpuId n : ℕ) : Prop :=
  ∀ c, cells.cell c = if c = cpuId then n else 0

theorem only_zeroArray (cpuId : ℕ) :
  Only zeroArray cpuId 0
  := by
  intro c
  rw [cell_zeroArray, ite_self]

theorem Only.record {cells : Cells} {cpuId n : ℕ} (h : cells.Only cpuId n) (hlt : cpuId < NCPU) :
  (cells.record cpuId).Only cpuId (n + 1)
  := by
  intro c
  rw [cell_record cells hlt, h c]
  split <;> rfl

theorem Only.cell {cells : Cells} {cpuId n : ℕ} (h : cells.Only cpuId n) :
  cells.cell cpuId = n
  := by rw [h cpuId, if_pos rfl]

/-- The sum of all cells is then the one cell. -/
theorem Only.total {cells : Cells} {cpuId n : ℕ} (h : cells.Only cpuId n) (hlt : cpuId < NCPU) :
  cells.total = n
  := by
  have hcell (i : Fin NCPU) : (cells i).added = if i = ⟨cpuId, hlt⟩ then n else 0 := by
    have hi := h i
    rw [Cells.cell, dif_pos i.isLt] at hi
    rw [hi]
    simp only [Fin.ext_iff]
  rw [Cells.total, Finset.sum_congr rfl fun i _ => hcell i, Finset.sum_ite_eq' Finset.univ,
    if_pos (Finset.mem_univ _)]

end Cells

/-- The counters of all vacuum workers. -/
structure Metrics where
  framesOk : Cells
  framesDropped : Cells
  channelFull : Cells

namespace Metrics

/-- The metrics block with all counters at zero. -/
def new : Metrics where
  framesOk := zeroArray
  framesDropped := zeroArray
  channelFull := zeroArray

/-- Counts a frame validated and dispatched. -/
def recordOk (m : Metrics) (cpuId : ℕ) : Metrics :=
  { m with framesOk := m.framesOk.record cpuId }

/-- Counts a frame that fails the validation. -/
def recordDrop (m : Metrics) (cpuId : ℕ) : Metrics :=
  { m with framesDropped := m.framesDropped.record cpuId }

/-- Counts a frame discarded because the dispatch channel is full. -/
def recordChannelFull (m : Metrics) (cpuId : ℕ) : Metrics :=
  { m with channelFull := m.channelFull.record cpuId }

/-- The number of recordings of all kinds, for all CPUs together. -/
def counted (m : Metrics) : ℕ :=
  m.framesOk.total + m.framesDropped.total + m.channelFull.total

end Metrics

end SgCapture
