import ShivaProtocol.Ebpf.Hash

/-!
# IPv4 packets

What the parser returns depends on the bytes 12 to 37 of a packet of at least 54 bytes, and on
nothing else (`inspect_exact`).  The ports it returns are the bytes after an IPv4 header of 20
bytes, whatever the header says about its length (`portsAt_iff`) and about fragmentation
(`oneFlow_iff`).
-/

open Bytes

namespace SgEbpf

/-! ### Exactness of the parser -/

/-- The view of a packet, in terms of the bytes of the packet. -/
structure ReadFrom (pkt : List UInt8) (view : ProtoView) : Prop where
  srcIp : view.srcIp = ofBE UInt32 (slice pkt 26 4)
  dstIp : view.dstIp = ofBE UInt32 (slice pkt 30 4)
  srcPort : view.srcPort = ofBE UInt16 (slice pkt 34 2)
  dstPort : view.dstPort = ofBE UInt16 (slice pkt 36 2)
  proto : pkt[23]? = some view.proto
  l3Hdr : view.l3Hdr.toList = slice pkt 14 20

theorem readFrom_viewOf {pkt : List UInt8} (h : 54 ≤ pkt.length) :
  ReadFrom pkt (viewOf pkt h)
  := by
  constructor
  case proto => apply List.getElem?_eq_getElem
  all_goals rfl

theorem inspect_some_iff {pkt : List UInt8} {view : ProtoView} :
  inspect pkt = .ok (some view) ↔ ∃ h : Accepted pkt, viewOf pkt h.1 = view
  := by
  rw [inspect_eq, Except.ok.injEq, Option.dite_none_right_eq_some]
  simp only [Option.some.injEq]

/-- The parser accepts a packet and returns the view of its bytes. -/
theorem accepted_of_inspect {pkt : List UInt8} {view : ProtoView}
    (h : inspect pkt = .ok (some view)) :
  Accepted pkt ∧ ReadFrom pkt view
  := by
  obtain ⟨hacc, rfl⟩ := inspect_some_iff.mp h
  exact ⟨hacc, readFrom_viewOf hacc.1⟩

theorem inspect_of_accepted {pkt : List UInt8} (h : Accepted pkt) :
  inspect pkt = .ok (some (viewOf pkt h.1))
  := inspect_some_iff.mpr ⟨h, rfl⟩

/-- Packets that agree on a range of bytes agree on every part of the range. -/
theorem slice_congr {p q : List UInt8} {i n : ℕ} (h : slice p i n = slice q i n) {j m : ℕ}
    (hj : i ≤ j) (hm : j + m ≤ i + n) :
  slice p j m = slice q j m
  := by
  obtain ⟨k, rfl⟩ := Nat.exists_eq_add_of_le hj
  rw [← slice_slice p (i := i) (n := n) (by omega), h, slice_slice q (by omega)]

theorem getElem?_congr {p q : List UInt8} {i n : ℕ} (h : slice p i n = slice q i n) {j : ℕ}
    (hj : i ≤ j) (hlt : j < i + n) :
  p[j]? = q[j]?
  := by
  obtain ⟨k, rfl⟩ := Nat.exists_eq_add_of_le hj
  rw [← getElem?_slice p (n := n) (by omega), h, getElem?_slice q (by omega)]

/-- Whether a long packet is accepted is decided by its bytes 12 to 23. -/
theorem accepted_congr {p q : List UInt8} (hp : Accepted p) (hq : 54 ≤ q.length)
    (h : slice p 12 12 = slice q 12 12) :
  Accepted q
  := by
  obtain ⟨-, htype, hproto⟩ := hp
  refine ⟨hq, ?_, ?_⟩
  · rw [← htype, slice_congr h (by decide) (by decide)]
  · rw [← getElem?_congr h (by decide) (by decide)]
    apply hproto

/-- The view of a packet is determined by its bytes 12 to 37. -/
theorem ReadFrom.congr {p q : List UInt8} {v w : ProtoView} (hv : ReadFrom p v)
    (hw : ReadFrom q w) (h : slice p 12 26 = slice q 12 26) :
  v = w
  := by
  have hsrcIp : v.srcIp = w.srcIp := by
    rw [hv.srcIp, hw.srcIp, slice_congr h (by decide) (by decide)]
  have hdstIp : v.dstIp = w.dstIp := by
    rw [hv.dstIp, hw.dstIp, slice_congr h (by decide) (by decide)]
  have hsrcPort : v.srcPort = w.srcPort := by
    rw [hv.srcPort, hw.srcPort, slice_congr h (by decide) (by decide)]
  have hdstPort : v.dstPort = w.dstPort := by
    rw [hv.dstPort, hw.dstPort, slice_congr h (by decide) (by decide)]
  have hproto : v.proto = w.proto := by
    have hbyte := hv.proto
    rw [getElem?_congr h (by decide) (by decide), hw.proto] at hbyte
    apply (Option.some.inj hbyte).symm
  have hl3Hdr : v.l3Hdr = w.l3Hdr := by
    apply Vector.toList_inj.mp
    rw [hv.l3Hdr, hw.l3Hdr, slice_congr h (by decide) (by decide)]
  cases v
  cases w
  simp_all

/-- The parser reads in bounds on every packet; it returns a view exactly for the packets of at
least 54 bytes whose EtherType is IPv4 and whose protocol is TCP or UDP; the view consists of the
bytes of the packet at fixed places; and it depends on no byte after those. -/
theorem inspect_exact :
  (∀ pkt, ∃ o, inspect pkt = .ok o)
    ∧ (∀ pkt, (∃ view, inspect pkt = .ok (some view))
      ↔ 54 ≤ pkt.length ∧ slice pkt 12 2 = [0x08, 0x00]
        ∧ (pkt[23]? = some 6 ∨ pkt[23]? = some 17))
    ∧ (∀ pkt view, inspect pkt = .ok (some view) → ReadFrom pkt view)
    ∧ ∀ p q, 54 ≤ p.length → 54 ≤ q.length → slice p 12 26 = slice q 12 26 →
      inspect p = inspect q
  := by
  and_intros
  · intro pkt
    exact ⟨_, inspect_eq pkt⟩
  · intro pkt
    constructor
    · rintro ⟨view, h⟩
      apply (accepted_of_inspect h).1
    · intro h
      exact ⟨_, inspect_of_accepted h⟩
  · intro pkt view h
    apply (accepted_of_inspect h).2
  · intro p q hp hq h
    have hhead : slice p 12 12 = slice q 12 12 := slice_congr h (by decide) (by decide)
    by_cases hacc : Accepted p
    · have hacc' : Accepted q := accepted_congr hacc hq hhead
      have hview : viewOf p hp = viewOf q hq := (readFrom_viewOf hp).congr (readFrom_viewOf hq) h
      rw [inspect_of_accepted hacc, inspect_of_accepted hacc', hview]
    · have hacc' : ¬ Accepted q := fun hacc' => hacc (accepted_congr hacc' hp hhead.symm)
      rw [inspect_eq, inspect_eq, dif_neg hacc, dif_neg hacc']

/-! ### The ports of a packet with options -/

/-- The fragment offset of an IPv4 header, in units of eight bytes. -/
def fragmentOffset (pkt : List UInt8) : UInt16 :=
  ofBE UInt16 (slice pkt 20 2) &&& 0x1FFF

/-- An unfragmented IPv4 packet whose header is `n` words long, with the two ports in bounds. -/
structure HasTransport (pkt : List UInt8) (n : ℕ) : Prop where
  version : pkt[14]?.map (fun b : UInt8 => b >>> 4) = some 4
  headerLength : pkt[14]?.map (fun b : UInt8 => (b &&& 0x0F).toNat) = some n
  legal : 5 ≤ n ∧ n ≤ 15
  unfragmented : fragmentOffset pkt = 0
  inBounds : 14 + 4 * n + 4 ≤ pkt.length

/-- The ports of the view are those of a transport header after an IPv4 header of `n` words. -/
def PortsAt (pkt : List UInt8) (n : ℕ) (view : ProtoView) : Prop :=
  view.srcPort = ofBE UInt16 (slice pkt (14 + 4 * n) 2)
    ∧ view.dstPort = ofBE UInt16 (slice pkt (14 + 4 * n + 2) 2)

instance (pkt : List UInt8) (n : ℕ) (view : ProtoView) : Decidable (PortsAt pkt n view) :=
  inferInstanceAs (Decidable (_ ∧ _))

theorem length_port {pkt : List UInt8} {i : ℕ} (h : i + 2 ≤ pkt.length) :
  (slice pkt i 2).length = FixedWidth.width UInt16
  := length_slice h

/-- Two pairs of ports are equal exactly if the four bytes are. -/
theorem ports_eq_iff {p q : List UInt8} {i j : ℕ} (hi : i + 4 ≤ p.length)
    (hj : j + 4 ≤ q.length) :
  (ofBE UInt16 (slice p i 2) = ofBE UInt16 (slice q j 2)
      ∧ ofBE UInt16 (slice p (i + 2) 2) = ofBE UInt16 (slice q (j + 2) 2))
    ↔ slice p i 4 = slice q j 4
  := by
  rw [ofBE_inj (length_port (by omega)) (length_port (by omega)),
    ofBE_inj (length_port (by omega)) (length_port (by omega)),
    ← slice_append_slice p i 2 2, ← slice_append_slice q j 2 2]
  constructor
  · rintro ⟨hsrc, hdst⟩
    rw [hsrc, hdst]
  · intro h
    apply List.append_inj h
    rw [length_slice (by omega), length_slice (by omega)]

/-- The parser returns the ports of the transport header exactly for a header without options, and
for a header whose options happen to begin with the four bytes of the ports. -/
theorem portsAt_iff {pkt : List UInt8} {view : ProtoView} {n : ℕ}
    (h : inspect pkt = .ok (some view)) (ht : HasTransport pkt n) :
  PortsAt pkt n view ↔ n = 5 ∨ slice pkt 34 4 = slice pkt (14 + 4 * n) 4
  := by
  obtain ⟨hacc, hread⟩ := accepted_of_inspect h
  have h34 : 34 + 4 ≤ pkt.length := by
    have h54 := hacc.1
    omega
  rw [PortsAt, hread.srcPort, hread.dstPort, ports_eq_iff h34 ht.inBounds]
  constructor
  · apply Or.inr
  · rintro (rfl | heq)
    · rfl
    · apply heq

theorem portsAt_samplePacket :
  inspect samplePacket = .ok (some (viewOf samplePacket le_length_samplePacket))
    ∧ HasTransport samplePacket 5
    ∧ PortsAt samplePacket 5 (viewOf samplePacket le_length_samplePacket)
  := by
  have hinspect := inspect_of_accepted accepted_samplePacket
  have ht : HasTransport samplePacket 5 := by constructor <;> decide
  exact ⟨hinspect, ht, (portsAt_iff hinspect ht).mpr (.inl rfl)⟩

/-- The sample packet with four bytes of options. -/
def optionPacket : List UInt8 :=
  slice samplePacket 0 14 ++ [0x46, 0, 0, 44] ++ slice samplePacket 18 16 ++ [1, 1, 1, 0]
    ++ slice samplePacket 34 20

theorem accepted_optionPacket :
  Accepted optionPacket
  := by decide

/-- The parser returns the options of a packet as its ports. -/
theorem portsAt_optionPacket :
  ∃ pkt view n, inspect pkt = .ok (some view) ∧ HasTransport pkt n ∧ ¬ PortsAt pkt n view
  := by
  use optionPacket, viewOf optionPacket accepted_optionPacket.1, 6
  refine ⟨inspect_of_accepted accepted_optionPacket, ?_, by decide⟩
  constructor <;> decide

/-! ### The ports of a fragment -/

/-- Two packets are fragments of one datagram, without options. -/
structure SameDatagram (p q : List UInt8) : Prop where
  left : p[14]? = some 0x45
  right : q[14]? = some 0x45
  identification : slice p 18 2 = slice q 18 2
  proto : p[23]? = q[23]?
  srcIp : slice p 26 4 = slice q 26 4
  dstIp : slice p 30 4 = slice q 30 4

/-- If the packet is a fragment other than the first, then its ports do not depend on the bytes
after its header. -/
def PayloadBlind (pkt : List UInt8) (view : ProtoView) : Prop :=
  fragmentOffset pkt ≠ 0 →
    ∀ pkt' view', inspect pkt' = .ok (some view') → slice pkt' 0 34 = slice pkt 0 34 →
      view'.srcPort = view.srcPort ∧ view'.dstPort = view.dstPort

/-- Two packets belong to one flow, and neither takes its ports from the middle of a datagram. -/
structure OneFlow (p q : List UInt8) (v w : ProtoView) : Prop where
  flowHash : v.flowHash = w.flowHash
  left : PayloadBlind p v
  right : PayloadBlind q w

/-- The ports of every fragment other than the first are bytes of its payload. -/
theorem payloadBlind_iff {pkt : List UInt8} {view : ProtoView}
    (h : inspect pkt = .ok (some view)) :
  PayloadBlind pkt view ↔ fragmentOffset pkt = 0
  := by
  obtain ⟨hacc, hread⟩ := accepted_of_inspect h
  constructor
  · intro hblind
    by_contra hoffset
    have h54 := hacc.1
    -- the packet with another first byte of payload
    let pkt' := pkt.set 34 (pkt[34] + 1)
    have hlen : 54 ≤ pkt'.length := by
      rw [List.length_set]
      apply h54
    have hhead : slice pkt' 0 34 = slice pkt 0 34 := by
      apply List.take_set_of_le
      apply le_refl
    have hacc' : Accepted pkt' :=
      accepted_congr hacc hlen (slice_congr hhead.symm (by decide) (by decide))
    have hsrc := (hblind hoffset pkt' _ (inspect_of_accepted hacc') hhead).1
    rw [(readFrom_viewOf hacc'.1).srcPort, hread.srcPort,
      ofBE_inj (length_port (by omega)) (length_port (by omega))] at hsrc
    have hbyte := getElem?_congr hsrc (le_refl 34) (by decide)
    rw [List.getElem?_set_self (by omega), List.getElem?_eq_getElem (by omega),
      Option.some_inj] at hbyte
    have hnat := congrArg UInt8.toNat hbyte
    rw [UInt8.toNat_add] at hnat
    have hone : (1 : UInt8).toNat = 1 := rfl
    omega
  · intro hoffset hne
    contradiction

/-- Two fragments of a datagram belong to one flow exactly if both are first fragments and carry the
same ports. -/
theorem oneFlow_iff {p q : List UInt8} {v w : ProtoView} (hp : inspect p = .ok (some v))
    (hq : inspect q = .ok (some w)) (h : SameDatagram p q) :
  OneFlow p q v w
    ↔ fragmentOffset p = 0 ∧ fragmentOffset q = 0 ∧ slice p 34 4 = slice q 34 4
  := by
  obtain ⟨haccp, hreadp⟩ := accepted_of_inspect hp
  obtain ⟨haccq, hreadq⟩ := accepted_of_inspect hq
  have hports := ports_eq_iff (p := p) (q := q) (i := 34) (j := 34)
    (Nat.le_trans (by decide) haccp.1) (Nat.le_trans (by decide) haccq.1)
  rw [← hreadp.srcPort, ← hreadp.dstPort, ← hreadq.srcPort, ← hreadq.dstPort] at hports
  have hsrcIp : v.srcIp = w.srcIp := by rw [hreadp.srcIp, hreadq.srcIp, h.srcIp]
  have hdstIp : v.dstIp = w.dstIp := by rw [hreadp.dstIp, hreadq.dstIp, h.dstIp]
  have hproto : v.proto = w.proto := by
    have hbyte := h.proto
    rw [hreadp.proto, hreadq.proto] at hbyte
    apply Option.some.inj hbyte
  constructor
  · rintro ⟨hhash, hblindp, hblindq⟩
    refine ⟨(payloadBlind_iff hp).mp hblindp, (payloadBlind_iff hq).mp hblindq, ?_⟩
    apply hports.mp
    by_contra hne
    apply flowHash_ne (.ports hsrcIp hdstIp _ hproto) hhash
    rwa [ne_eq, Prod.mk.injEq]
  · rintro ⟨hoffsetp, hoffsetq, hbytes⟩
    obtain ⟨hsrcPort, hdstPort⟩ := hports.mpr hbytes
    refine ⟨?_, (payloadBlind_iff hp).mpr hoffsetp, (payloadBlind_iff hq).mpr hoffsetq⟩
    rw [ProtoView.flowHash, ProtoView.flowHash, hsrcIp, hdstIp, hsrcPort, hdstPort, hproto]

theorem oneFlow_samplePacket :
  SameDatagram samplePacket samplePacket
    ∧ OneFlow samplePacket samplePacket (viewOf samplePacket le_length_samplePacket)
      (viewOf samplePacket le_length_samplePacket)
  := by
  have hinspect := inspect_of_accepted accepted_samplePacket
  have hsame : SameDatagram samplePacket samplePacket := by constructor <;> decide
  exact ⟨hsame, (oneFlow_iff hinspect hinspect hsame).mpr (by decide)⟩

/-- The first 24 bytes of a segment of 44 bytes, from port 40000 to port 443. -/
def firstFragment : List UInt8 :=
  slice samplePacket 0 14 ++ [0x45, 0, 0, 44, 0, 1, 0x20, 0] ++ slice samplePacket 22 32
    ++ [1, 2, 3, 4]

/-- The other 20 bytes of the segment. -/
def secondFragment : List UInt8 :=
  slice samplePacket 0 14 ++ [0x45, 0, 0, 40, 0, 1, 0x00, 3] ++ slice samplePacket 22 12
    ++ List.replicate 20 7

theorem accepted_firstFragment :
  Accepted firstFragment
  := by decide

theorem accepted_secondFragment :
  Accepted secondFragment
  := by decide

/-- Two fragments of a datagram with different flow hashes. -/
theorem oneFlow_fragments :
  ∃ p q v w, inspect p = .ok (some v) ∧ inspect q = .ok (some w) ∧ SameDatagram p q
    ∧ v.flowHash ≠ w.flowHash
  := by
  use firstFragment, secondFragment, viewOf firstFragment accepted_firstFragment.1,
    viewOf secondFragment accepted_secondFragment.1
  refine ⟨inspect_of_accepted accepted_firstFragment,
    inspect_of_accepted accepted_secondFragment, ?_, by decide +kernel⟩
  constructor <;> decide

end SgEbpf
