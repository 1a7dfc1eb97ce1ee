import Mathlib.Logic.Equiv.Prod
import Mathlib.SetTheory.Cardinal.Finite
import ShivaProtocol.Ebpf.Hash

/-!
# The grain of the deny list

The deny list has a slot for the lower half of a flow hash.  As the hash is a bijection in each
address and in the pair of ports, every slot stands for 65536 values of each of them: with the other
components fixed, a deny map denies exactly 65536 source addresses for every slot it sets, and as
many destination addresses and pairs of ports (`deny_grain`).  The list cannot name a single flow.
-/

open Function

namespace SgEbpf

/-- A word as its lower and its upper half. -/
def halves : UInt32 ≃ Fin 65536 × Fin 65536 where
  toFun x := (⟨x.toNat % 65536, Nat.mod_lt _ (by decide)⟩,
    ⟨x.toNat / 65536, Nat.div_lt_of_lt_mul x.toNat_lt⟩)
  invFun p := UInt32.ofNat (p.1 + 65536 * p.2)
  left_inv x := by
    change UInt32.ofNat (x.toNat % 65536 + 65536 * (x.toNat / 65536)) = x
    rw [Nat.mod_add_div, UInt32.ofNat_toNat]
  right_inv p := by
    obtain ⟨i, j⟩ := p
    have hnat : (UInt32.ofNat (i + 65536 * j)).toNat = i + 65536 * j := by
      apply UInt32.toNat_ofNat_of_lt
      rw [UInt32.size]
      omega
    simp only [hnat, Prod.mk.injEq, Fin.ext_iff]
    omega

/-- The deny check looks at the lower half of the hash. -/
theorem denyCheck_toUInt64 (denyMap : DenyMap) (hash : UInt32) :
  denyCheck denyMap hash.toUInt64 = true ↔ denyMap.slot (halves hash).1 ≠ 0
  := by
  rw [denyCheck_eq, bne_iff_ne]
  have hindex : (hash.toUInt64.toUInt32 &&& 0xFFFF).toNat = hash.toNat % 65536 := by
    rw [UInt32.toUInt32_toUInt64, UInt32.toNat_and]
    apply Nat.and_two_pow_sub_one_eq_mod _ 16
  simp only [hindex]
  rfl

/-- The number of slots a deny map sets. -/
noncomputable def DenyMap.occupied (denyMap : DenyMap) : ℕ :=
  Nat.card {i // denyMap.slot i ≠ 0}

/-- Of all values of a component of the flow in which the hash is a bijection, every slot of the
deny map stands for 65536. -/
theorem card_denied (denyMap : DenyMap) {hash : UInt32 → UInt32} (h : Bijective hash) :
  Nat.card {x // denyCheck denyMap (hash x).toUInt64 = true} = 65536 * denyMap.occupied
  := by
  have hhalves : {x // denyCheck denyMap (hash x).toUInt64 = true}
      ≃ {p : Fin 65536 × Fin 65536 // denyMap.slot p.1 ≠ 0} := by
    apply ((Equiv.ofBijective hash h).trans halves).subtypeEquiv
    intro x
    apply denyCheck_toUInt64
  have hslots : {p : Fin 65536 × Fin 65536 // denyMap.slot p.1 ≠ 0}
      ≃ {i // denyMap.slot i ≠ 0} × Fin 65536 :=
    Equiv.prodSubtypeFstEquivSubtypeProd (p := fun i => denyMap.slot i ≠ 0)
  rw [Nat.card_congr (hhalves.trans hslots), Nat.card_prod, Nat.card_fin, Nat.mul_comm]
  rfl

/-- A deny map denies 65536 values of a component for every slot it sets, whatever the other
components are. -/
structure DeniesPerSlot (denyMap : DenyMap) : Prop where
  srcIp : ∀ view : ProtoView, Nat.card {srcIp //
    denyCheck denyMap { view with srcIp := srcIp }.flowHash = true} = 65536 * denyMap.occupied
  dstIp : ∀ view : ProtoView, Nat.card {dstIp //
    denyCheck denyMap { view with dstIp := dstIp }.flowHash = true} = 65536 * denyMap.occupied
  ports : ∀ view : ProtoView, Nat.card {ports : UInt32 //
    denyCheck denyMap { view with
      srcPort := ports.toUInt16, dstPort := (ports >>> 16).toUInt16 }.flowHash = true}
    = 65536 * denyMap.occupied

theorem deniesPerSlot (denyMap : DenyMap) :
  DeniesPerSlot denyMap
  := by
  constructor
  · intro view
    apply card_denied denyMap (murmur3_13_bijective_srcIp _ _ _ _)
  · intro view
    apply card_denied denyMap (murmur3_13_bijective_dstIp _ _ _ _)
  · intro view
    apply card_denied denyMap (murmur3_13_bijective_ports _ _ _)

/-! ### Denying a flow -/

/-- The deny map after userspace has set the slot of a flow. -/
def DenyMap.deny (denyMap : DenyMap) (flowHash : UInt64) : DenyMap :=
  denyMap.set (flowHash.toUInt32 &&& 0xFFFF) 1

/-- The slots set are those set before, and that of the flow. -/
theorem slot_deny_ne_zero (denyMap : DenyMap) (view : ProtoView) (i : Fin denyMapEntries) :
  (denyMap.deny view.flowHash).slot i ≠ 0
    ↔ denyMap.slot i ≠ 0 ∨ i.val = (view.flowHash.toUInt32 &&& 0xFFFF).toNat
  := by
  change (if i.val = (view.flowHash.toUInt32 &&& 0xFFFF).toNat then 1 else denyMap.slot i) ≠ 0 ↔ _
  split
  · rename_i hi
    exact iff_of_true (by decide) (.inr hi)
  · rename_i hi
    exact (or_iff_left hi).symm

/-- To deny a flow on a list that has been empty sets one slot. -/
theorem occupied_deny_allowAll (view : ProtoView) :
  (DenyMap.allowAll.deny view.flowHash).occupied = 1
  := by
  rw [DenyMap.occupied, Nat.card_eq_one_iff_exists]
  use ⟨⟨_, denyIndex_lt view.flowHash⟩, (slot_deny_ne_zero _ view _).mpr (.inr rfl)⟩
  rintro ⟨i, hi⟩
  apply Subtype.ext
  apply Fin.ext
  rcases (slot_deny_ne_zero _ view i).mp hi with hset | hi
  · cases hset rfl
  · apply hi

/-- Denying a flow denies the flow, and all flows denied before. -/
theorem denyCheck_deny (denyMap : DenyMap) (view other : ProtoView) :
  denyCheck (denyMap.deny view.flowHash) view.flowHash = true
    ∧ (denyCheck denyMap other.flowHash = true →
      denyCheck (denyMap.deny view.flowHash) other.flowHash = true)
  := by
  constructor
  · rw [denyCheck_eq, bne_iff_ne, slot_deny_ne_zero]
    exact .inr rfl
  · rw [denyCheck_eq, denyCheck_eq, bne_iff_ne, bne_iff_ne, slot_deny_ne_zero]
    apply Or.inl

/-- Every deny map denies 65536 source addresses for every slot it sets, and as many destination
addresses and pairs of ports, whatever the other components of the flow are.  To deny a flow denies
that flow and all flows denied before, but on a list that has been empty it denies 65535 other
source addresses with it. -/
theorem deny_grain :
  (∀ denyMap : DenyMap, DeniesPerSlot denyMap)
    ∧ (∀ (denyMap : DenyMap) (view other : ProtoView),
      denyCheck (denyMap.deny view.flowHash) view.flowHash = true
        ∧ (denyCheck denyMap other.flowHash = true →
          denyCheck (denyMap.deny view.flowHash) other.flowHash = true))
    ∧ ∀ view : ProtoView, Nat.card {srcIp // denyCheck (DenyMap.allowAll.deny view.flowHash)
      { view with srcIp := srcIp }.flowHash = true} = 65536
  := by
  refine ⟨deniesPerSlot, denyCheck_deny, ?_⟩
  intro view
  rw [(deniesPerSlot _).srcIp, occupied_deny_allowAll]

end SgEbpf
