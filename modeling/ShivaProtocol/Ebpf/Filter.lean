import ShivaProtocol.Library.Saturating
import ShivaProtocol.Ebpf.Maps
import ShivaProtocol.Ebpf.ProtoView

/-!
# The packet filter

`select` hashes the 5-tuple of a packet, looks the hash up in the deny map and passes the packet
through the rate gate, a counter in the slot of the CPU.  What it does is one of three things
(`select_cases`): it refuses a denied packet, it refuses a packet at a full counter, or it
accepts a packet and advances the counter by one.
-/

namespace SgEbpf

/-- The value of the counter from which on packets are refused. -/
def maxppsThreshold : UInt64 := 1000000

/-- What the filter reports about an accepted packet. -/
structure FilterResult where
  flowHash : UInt64
  ppsDelta : UInt32
  deriving DecidableEq

/-- The copy of `PPS_COUNTERS` of one CPU: a single slot. -/
abbrev PpsCounters := BpfArray UInt64 1

/-! ### The hash -/

/-- The rotation of a word to the left by `n` bits. -/
def rotateLeft (x : UInt32) (n : ℕ) : UInt32 :=
  .ofBitVec (x.toBitVec.rotateLeft n)

/-- The finalizer of the hash. -/
def fmix32 (h : UInt32) : UInt32 :=
  let h := h ^^^ (h >>> 16)
  let h := h * 0x85ebca6b
  let h := h ^^^ (h >>> 13)
  let h := h * 0xc2b2ae35
  let h := h ^^^ (h >>> 16)
  h

/-- The Murmur3 hash of a 5-tuple, unrolled over its 13 bytes, with seed zero. -/
@[irreducible]
def murmur3_13 (srcIp dstIp : UInt32) (srcPort dstPort : UInt16) (proto : UInt8) : UInt32 :=
  let c1 : UInt32 := 0xcc9e2d51
  let c2 : UInt32 := 0x1b873593
  let len : UInt32 := 13
  let h1 : UInt32 := 0
  let k1 := srcIp
  let k1 := k1 * c1
  let k1 := rotateLeft k1 15
  let k1 := k1 * c2
  let h1 := h1 ^^^ k1
  let h1 := rotateLeft h1 13
  let h1 := h1 * 5 + 0xe6546b64
  let k2 := dstIp
  let k2 := k2 * c1
  let k2 := rotateLeft k2 15
  let k2 := k2 * c2
  let h1 := h1 ^^^ k2
  let h1 := rotateLeft h1 13
  let h1 := h1 * 5 + 0xe6546b64
  let portsWord := srcPort.toUInt32 ||| (dstPort.toUInt32 <<< 16)
  let k3 := portsWord
  let k3 := k3 * c1
  let k3 := rotateLeft k3 15
  let k3 := k3 * c2
  let h1 := h1 ^^^ k3
  let h1 := rotateLeft h1 13
  let h1 := h1 * 5 + 0xe6546b64
  let kt := proto.toUInt32
  let kt := kt * c1
  let kt := rotateLeft kt 15
  let kt := kt * c2
  let h1 := h1 ^^^ kt
  let h1 := h1 ^^^ len
  fmix32 h1

/-- The hash of the 5-tuple of a view. -/
def ProtoView.flowHash (view : ProtoView) : UInt64 :=
  (murmur3_13 view.srcIp view.dstIp view.srcPort view.dstPort view.proto).toUInt64

/-! ### The gate -/

/-- The verdict of the filter on a packet, and the counter of the CPU after it. -/
@[irreducible]
def select (denyMap : DenyMap) (counters : PpsCounters) (view : ProtoView) :
    Option FilterResult × PpsCounters :=
  let flowHash := view.flowHash
  if denyCheck denyMap flowHash then
    (none, counters)
  else
    match counters.get 0 with
    | none => (none, counters)
    | some val =>
        if val ≥ maxppsThreshold then
          (none, counters)
        else
          let ppsDelta := (min val 0xFFFFFFFF).toUInt32
          (some { flowHash, ppsDelta }, counters.set 0 (Saturating.add val 1))

/-- The initial content of `PPS_COUNTERS`. -/
def PpsCounters.zero : PpsCounters where
  slot _ := 0

/-- The value of the counter of a CPU. -/
def PpsCounters.count (counters : PpsCounters) : ℕ :=
  (counters.slot 0).toNat

/-- The threshold as a natural number. -/
def maxpps : ℕ := 1000000

theorem le_maxppsThreshold_iff (counters : PpsCounters) :
  counters.slot 0 ≥ maxppsThreshold ↔ maxpps ≤ counters.count
  := by
  rw [ge_iff_le, UInt64.le_iff_toNat_le]
  rfl

/-- The deny check refuses a packet without reading or changing the counter. -/
theorem select_of_denied {denyMap : DenyMap} {view : ProtoView}
    (h : denyCheck denyMap view.flowHash = true) (counters : PpsCounters) :
  select denyMap counters view = (none, counters)
  := by
  rw [select]
  apply if_pos h

/-- Clamping a counter below the threshold to 32 bits changes nothing. -/
theorem toUInt32_min {val : UInt64} (h : val.toNat < maxpps) :
  (min val 0xFFFFFFFF).toUInt32 = UInt32.ofNat val.toNat
  := by
  rw [maxpps] at h
  have hle : val ≤ 0xFFFFFFFF := by
    rw [UInt64.le_iff_toNat_le]
    have hmax : (0xFFFFFFFF : UInt64).toNat = 4294967295 := rfl
    omega
  have hmin : min val 0xFFFFFFFF = val := if_pos hle
  rw [hmin]
  apply UInt32.toNat_inj.mp
  rw [UInt64.toNat_toUInt32, UInt32.toNat_ofNat']

/-- Advancing a counter below the threshold does not saturate. -/
theorem add_one_eq {val : UInt64} (h : val.toNat < maxpps) :
  Saturating.add val 1 = UInt64.ofNat (val.toNat + 1)
  := by
  rw [maxpps] at h
  apply UInt64.toNat_inj.mp
  rw [Saturating.toNat_add_one (by omega), UInt64.toNat_ofNat']
  omega

/-- The counter after an accepted packet. -/
def PpsCounters.advance (counters : PpsCounters) : PpsCounters :=
  counters.set 0 (UInt64.ofNat (counters.count + 1))

theorem count_advance {counters : PpsCounters} (h : counters.count < maxpps) :
  counters.advance.count = counters.count + 1
  := by
  rw [maxpps] at h
  have hcount : counters.advance.count = (UInt64.ofNat (counters.count + 1)).toNat := rfl
  rw [hcount, UInt64.toNat_ofNat']
  omega

/-- What the filter does with a packet the deny check passes. -/
theorem select_of_passed {denyMap : DenyMap} {view : ProtoView}
    (h : denyCheck denyMap view.flowHash = false) (counters : PpsCounters) :
  select denyMap counters view
    = if maxpps ≤ counters.count then (none, counters)
      else (some ⟨view.flowHash, UInt32.ofNat counters.count⟩, counters.advance)
  := by
  have hget : counters.get 0 = some (counters.slot 0) := rfl
  simp only [select, h, hget, le_maxppsThreshold_iff]
  rw [if_neg (by decide)]
  split
  · rfl
  · rename_i hlt
    have hcount : (counters.slot 0).toNat < maxpps := not_le.mp hlt
    rw [toUInt32_min hcount, add_one_eq hcount]
    rfl

/-- The filter does one of three things: it refuses a denied packet, it refuses a packet at a
full counter, or it accepts a packet, reports the counter and advances it by one. -/
theorem select_cases {denyMap : DenyMap} {counters counters' : PpsCounters} {view : ProtoView}
    {o : Option FilterResult} (h : select denyMap counters view = (o, counters')) :
  (denyCheck denyMap view.flowHash = true ∧ o = none ∧ counters' = counters)
  ∨ (denyCheck denyMap view.flowHash = false ∧ maxpps ≤ counters.count ∧ o = none
    ∧ counters' = counters)
  ∨ (denyCheck denyMap view.flowHash = false ∧ counters.count < maxpps
    ∧ o = some ⟨view.flowHash, UInt32.ofNat counters.count⟩
    ∧ counters'.count = counters.count + 1)
  := by
  cases hdeny : denyCheck denyMap view.flowHash with
  | true =>
      left
      rw [select_of_denied hdeny] at h
      obtain ⟨rfl, rfl⟩ := Prod.mk.inj h
      simp
  | false =>
      right
      rw [select_of_passed hdeny] at h
      split at h
      · rename_i hfull
        left
        obtain ⟨rfl, rfl⟩ := Prod.mk.inj h
        simp [hfull]
      · rename_i hlt
        right
        obtain ⟨rfl, rfl⟩ := Prod.mk.inj h
        rw [not_le] at hlt
        exact ⟨rfl, hlt, rfl, count_advance hlt⟩

end SgEbpf
