import ShivaProtocol.Common.SignalFrame

/-!
# The maps of the kernel program

`DENY_MAP` and `PPS_COUNTERS` are BPF arrays, `SIGNAL_RING` is a BPF ring buffer.  Nothing in
the repository writes `DENY_MAP`; userspace may, so its content is an argument of every lookup.
-/

open SgCommon

namespace SgEbpf

/-- A BPF array map: a slot for every index below its number of entries. -/
structure BpfArray (α : Type) (maxEntries : ℕ) where
  slot : Fin maxEntries → α

namespace BpfArray

variable {α : Type} {maxEntries : ℕ}

/-- The slot at an index, if the index is in range. -/
def get (m : BpfArray α maxEntries) (i : UInt32) : Option α :=
  if h : i.toNat < maxEntries then some (m.slot ⟨i.toNat, h⟩) else none

/-- The array with the slot at an index overwritten. -/
def set (m : BpfArray α maxEntries) (i : UInt32) (x : α) : BpfArray α maxEntries where
  slot j := if j.val = i.toNat then x else m.slot j

end BpfArray

/-- The number of entries of the deny map. -/
abbrev denyMapEntries : ℕ := 65536

/-- The content of `DENY_MAP`: zero in a slot allows the flows hashed to it. -/
abbrev DenyMap := BpfArray UInt8 denyMapEntries

/-- The deny map that allows every flow. -/
def DenyMap.allowAll : DenyMap where
  slot _ := 0

/-- Whether the flow with the given hash is on the deny list. -/
def denyCheck (denyMap : DenyMap) (flowHash : UInt64) : Bool :=
  let idx := flowHash.toUInt32 &&& 0xFFFF
  match denyMap.get idx with
  | some val => val != 0
  | none => false

/-- The slot of the deny map for a flow hash is in range. -/
theorem denyIndex_lt (flowHash : UInt64) :
  (flowHash.toUInt32 &&& 0xFFFF).toNat < denyMapEntries
  := by
  rw [UInt32.toNat_and]
  apply Nat.and_lt_two_pow (n := 16)
  decide

/-- The deny check refuses a flow exactly if the slot of its hash is not zero. -/
theorem denyCheck_eq (denyMap : DenyMap) (flowHash : UInt64) :
  denyCheck denyMap flowHash
    = (denyMap.slot ⟨(flowHash.toUInt32 &&& 0xFFFF).toNat, denyIndex_lt flowHash⟩ != 0)
  := by
  have hget : denyMap.get (flowHash.toUInt32 &&& 0xFFFF)
      = some (denyMap.slot ⟨_, denyIndex_lt flowHash⟩) := dif_pos (denyIndex_lt flowHash)
  simp only [denyCheck, hget]

@[simp]
theorem denyCheck_allowAll (flowHash : UInt64) :
  denyCheck DenyMap.allowAll flowHash = false
  := denyCheck_eq _ _

/-- The size of `SIGNAL_RING`, in bytes. -/
abbrev signalRingSize : ℕ := 262144

/-- The bytes an item takes on the ring: a header of 8 bytes, and the frame. -/
abbrev ringRecordSize : ℕ := 8 + signalFrameSize

/-- Whether a BPF ring buffer with some items on it has room for one more.  Producer and consumer
stay less than the size of the ring apart. -/
def ringHasRoom (waiting : ℕ) : Bool :=
  ringRecordSize * (waiting + 1) < signalRingSize

/-- The ring holds 3640 frames. -/
theorem ringHasRoom_eq (waiting : ℕ) :
  ringHasRoom waiting = decide (waiting < 3640)
  := by
  simp only [ringHasRoom, ringRecordSize, signalRingSize, signalFrameSize, decide_eq_decide]
  omega

/-- The items committed to `SIGNAL_RING` after an attempt to output a frame, and whether it
succeeded: the ring copies the bytes of the frame if it has room for them. -/
def ringOutput (ring : List (List UInt8)) (frame : SignalFrame) (room : Bool) :
    List (List UInt8) × Bool :=
  if room then (ring ++ [frame.bytes], true) else (ring, false)

end SgEbpf
