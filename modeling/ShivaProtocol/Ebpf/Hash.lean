import ShivaProtocol.Library.Murmur3
import ShivaProtocol.Ebpf.Filter

/-!
# The flow hash

The unrolled hash of the filter is the reference algorithm on the 13 bytes of the 5-tuple
(`murmur3_13_eq_hash`).  As every step of that algorithm is a bijection, flows that differ in one
component never share a hash (`murmur3_13_separates`).
-/

open Bytes Function

namespace SgEbpf

theorem fmix32_eq (h : UInt32) :
  fmix32 h = Murmur3.fmix32 h
  := by
  unfold fmix32 Murmur3.fmix32
  rfl

/-- The word of the two ports. -/
def portsWord (srcPort dstPort : UInt16) : UInt32 :=
  srcPort.toUInt32 ||| (dstPort.toUInt32 <<< 16)

/-- The unrolled hash, in the steps of the reference algorithm. -/
theorem murmur3_13_eq (srcIp dstIp : UInt32) (srcPort dstPort : UInt16) (proto : UInt8) :
  murmur3_13 srcIp dstIp srcPort dstPort proto
    = Murmur3.fmix32
      (Murmur3.mixBlock (Murmur3.mixBlock (Murmur3.mixBlock 0 srcIp) dstIp)
        (portsWord srcPort dstPort) ^^^ Murmur3.scramble proto.toUInt32 ^^^ 13)
  := by
  unfold murmur3_13 Murmur3.mixBlock Murmur3.spread Murmur3.scramble portsWord
  rw [fmix32_eq]
  rfl

/-! ### The bytes of the 5-tuple -/

theorem toNat_portsWord (srcPort dstPort : UInt16) :
  (portsWord srcPort dstPort).toNat = srcPort.toNat + 65536 * dstPort.toNat
  := by
  have hsrc := srcPort.toNat_lt
  have hdst := dstPort.toNat_lt
  have hshift : (dstPort.toUInt32 <<< 16).toNat = dstPort.toNat <<< 16 := by
    rw [UInt32.toNat_shiftLeft, UInt16.toNat_toUInt32]
    apply Nat.mod_eq_of_lt
    change dstPort.toNat <<< 16 < 2 ^ 32
    rw [Nat.shiftLeft_eq]
    omega
  rw [portsWord, UInt32.toNat_or, hshift, UInt16.toNat_toUInt32, Nat.or_comm,
    ← Nat.shiftLeft_add_eq_or_of_lt hsrc, Nat.shiftLeft_eq]
  omega

/-- The bytes of the word of the two ports are the bytes of the source port and of the destination
port. -/
theorem toLE_portsWord (srcPort dstPort : UInt16) :
  toLE (portsWord srcPort dstPort) = toLE srcPort ++ toLE dstPort
  := by
  have hsrc : srcPort.toNat < 256 ^ 2 := srcPort.toNat_lt
  have happend := leBytes_append hsrc 2 dstPort.toNat
  change leBytes 4 (portsWord srcPort dstPort).toNat
    = leBytes 2 srcPort.toNat ++ leBytes 2 dstPort.toNat
  rw [toNat_portsWord, happend]
  rfl

/-- The unrolled hash is the reference algorithm, with seed zero, on the bytes of the 5-tuple. -/
theorem murmur3_13_eq_hash (srcIp dstIp : UInt32) (srcPort dstPort : UInt16) (proto : UInt8) :
  murmur3_13 srcIp dstIp srcPort dstPort proto
    = Murmur3.hash 0 (toLE srcIp ++ toLE dstIp ++ toLE srcPort ++ toLE dstPort ++ [proto])
  := by
  have hbytes : toLE srcIp ++ toLE dstIp ++ toLE srcPort ++ toLE dstPort ++ [proto]
      = toLE srcIp ++ (toLE dstIp ++ (toLE (portsWord srcPort dstPort) ++ [proto])) := by
    rw [toLE_portsWord]
    simp only [List.append_assoc]
  have hlength : (toLE srcIp ++ (toLE dstIp ++ (toLE (portsWord srcPort dstPort) ++ [proto]))).length
      = 13 := by
    simp only [List.length_append, length_toLE, List.length_singleton]
    rfl
  rw [hbytes, Murmur3.hash, hlength, Murmur3.body_toLE_append, Murmur3.body_toLE_append,
    Murmur3.body_toLE_append, Murmur3.body_singleton, murmur3_13_eq]
  rfl

/-! ### Flows that differ in one component -/

/-- Different ports give different words. -/
theorem portsWord_injective {srcPort dstPort srcPort' dstPort' : UInt16}
    (h : portsWord srcPort dstPort = portsWord srcPort' dstPort') :
  srcPort = srcPort' ∧ dstPort = dstPort'
  := by
  have hnat := congrArg UInt32.toNat h
  rw [toNat_portsWord, toNat_portsWord] at hnat
  have hsrc := srcPort.toNat_lt
  have hsrc' := srcPort'.toNat_lt
  constructor
  · apply UInt16.toNat_inj.mp
    omega
  · apply UInt16.toNat_inj.mp
    omega

/-- Every word is the word of its two halves. -/
theorem portsWord_halves (ports : UInt32) :
  portsWord ports.toUInt16 (ports >>> 16).toUInt16 = ports
  := by
  have hlt := ports.toNat_lt
  have hshift : (ports >>> 16).toNat = ports.toNat / 65536 := by
    rw [UInt32.toNat_shiftRight]
    exact Nat.shiftRight_eq_div_pow _ _
  apply UInt32.toNat_inj.mp
  rw [toNat_portsWord, UInt32.toNat_toUInt16, UInt32.toNat_toUInt16, hshift]
  omega

/-- Two flows differ in exactly one of the source address, the destination address, the pair of
ports, and the protocol. -/
inductive DifferInOne (v w : ProtoView) : Prop where
  | srcIp : v.srcIp ≠ w.srcIp → v.dstIp = w.dstIp → v.srcPort = w.srcPort →
      v.dstPort = w.dstPort → v.proto = w.proto → DifferInOne v w
  | dstIp : v.srcIp = w.srcIp → v.dstIp ≠ w.dstIp → v.srcPort = w.srcPort →
      v.dstPort = w.dstPort → v.proto = w.proto → DifferInOne v w
  | ports : v.srcIp = w.srcIp → v.dstIp = w.dstIp →
      (v.srcPort, v.dstPort) ≠ (w.srcPort, w.dstPort) → v.proto = w.proto → DifferInOne v w
  | proto : v.srcIp = w.srcIp → v.dstIp = w.dstIp → v.srcPort = w.srcPort →
      v.dstPort = w.dstPort → v.proto ≠ w.proto → DifferInOne v w

/-- What the hash does after the three blocks. -/
theorem finish_bijective (proto : UInt8) :
  Bijective fun h => Murmur3.fmix32 (h ^^^ Murmur3.scramble proto.toUInt32 ^^^ 13)
  := by
  apply Murmur3.fmix32_bijective.comp
  apply (Murmur3.xor_bijective 13).comp (Murmur3.xor_bijective _)

theorem murmur3_13_bijective_srcIp (dstIp : UInt32) (srcPort dstPort : UInt16) (proto : UInt8) :
  Bijective fun srcIp => murmur3_13 srcIp dstIp srcPort dstPort proto
  := by
  simp only [murmur3_13_eq]
  apply (finish_bijective proto).comp
  apply (Murmur3.mixBlock_bijective_state (portsWord srcPort dstPort)).comp
  apply (Murmur3.mixBlock_bijective_state dstIp).comp (Murmur3.mixBlock_bijective_word 0)

theorem murmur3_13_bijective_dstIp (srcIp : UInt32) (srcPort dstPort : UInt16) (proto : UInt8) :
  Bijective fun dstIp => murmur3_13 srcIp dstIp srcPort dstPort proto
  := by
  simp only [murmur3_13_eq]
  apply (finish_bijective proto).comp
  apply (Murmur3.mixBlock_bijective_state (portsWord srcPort dstPort)).comp
  apply Murmur3.mixBlock_bijective_word

theorem murmur3_13_bijective_ports (srcIp dstIp : UInt32) (proto : UInt8) :
  Bijective fun ports : UInt32 =>
    murmur3_13 srcIp dstIp ports.toUInt16 (ports >>> 16).toUInt16 proto
  := by
  simp only [murmur3_13_eq, portsWord_halves]
  apply (finish_bijective proto).comp
  apply Murmur3.mixBlock_bijective_word

theorem murmur3_13_injective_proto (srcIp dstIp : UInt32) (srcPort dstPort : UInt16) :
  Injective fun proto => murmur3_13 srcIp dstIp srcPort dstPort proto
  := by
  intro proto proto' h
  simp only [murmur3_13_eq] at h
  have hxor := (Murmur3.xor_bijective 13).injective (Murmur3.fmix32_bijective.injective h)
  have hword := Murmur3.scramble_bijective.injective
    ((Murmur3.xor_left_bijective _).injective hxor)
  apply UInt8.toNat_inj.mp
  apply congrArg UInt32.toNat hword

/-- Flows that differ in exactly one component have different hashes. -/
theorem flowHash_ne {v w : ProtoView} (h : DifferInOne v w) :
  v.flowHash ≠ w.flowHash
  := by
  intro heq
  have hhash : murmur3_13 v.srcIp v.dstIp v.srcPort v.dstPort v.proto
      = murmur3_13 w.srcIp w.dstIp w.srcPort w.dstPort w.proto := by
    apply UInt32.toNat_inj.mp
    apply congrArg UInt64.toNat heq
  cases h with
  | srcIp hne hdstIp hsrcPort hdstPort hproto =>
      rw [hdstIp, hsrcPort, hdstPort, hproto] at hhash
      apply hne ((murmur3_13_bijective_srcIp _ _ _ _).injective hhash)
  | dstIp hsrcIp hne hsrcPort hdstPort hproto =>
      rw [hsrcIp, hsrcPort, hdstPort, hproto] at hhash
      apply hne ((murmur3_13_bijective_dstIp _ _ _ _).injective hhash)
  | ports hsrcIp hdstIp hne hproto =>
      rw [hsrcIp, hdstIp, hproto, murmur3_13_eq, murmur3_13_eq] at hhash
      have hword := (Murmur3.mixBlock_bijective_word _).injective
        ((finish_bijective w.proto).injective hhash)
      obtain ⟨hsrcPort, hdstPort⟩ := portsWord_injective hword
      apply hne
      rw [hsrcPort, hdstPort]
  | proto hsrcIp hdstIp hsrcPort hdstPort hne =>
      rw [hsrcIp, hdstIp, hsrcPort, hdstPort] at hhash
      apply hne (murmur3_13_injective_proto _ _ _ _ hhash)

/-- The hash separates flows that differ in one component.  With the other inputs fixed, it is a
bijection in each address and in the word of the ports, and injective in the protocol; and in a
scan, whose flows differ pairwise in one component, no two flows have the same flow hash. -/
theorem murmur3_13_separates :
  (∀ dstIp srcPort dstPort proto,
      Bijective fun srcIp => murmur3_13 srcIp dstIp srcPort dstPort proto)
    ∧ (∀ srcIp srcPort dstPort proto,
      Bijective fun dstIp => murmur3_13 srcIp dstIp srcPort dstPort proto)
    ∧ (∀ srcIp dstIp proto, Bijective fun ports : UInt32 =>
      murmur3_13 srcIp dstIp ports.toUInt16 (ports >>> 16).toUInt16 proto)
    ∧ (∀ srcIp dstIp srcPort dstPort,
      Injective fun proto => murmur3_13 srcIp dstIp srcPort dstPort proto)
    ∧ (∀ v w : ProtoView, DifferInOne v w → v.flowHash ≠ w.flowHash)
    ∧ ∀ views : List ProtoView, views.Pairwise DifferInOne →
      (views.map ProtoView.flowHash).Nodup
  := by
  and_intros
  · apply murmur3_13_bijective_srcIp
  · apply murmur3_13_bijective_dstIp
  · apply murmur3_13_bijective_ports
  · apply murmur3_13_injective_proto
  · apply fun _ _ => flowHash_ne
  · intro views hviews
    apply List.pairwise_map.mpr
    apply hviews.imp
    apply flowHash_ne

end SgEbpf
