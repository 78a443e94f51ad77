import MicroKernel.Object.ObjectType

/-!
# The tag of a capability in the generic view

Every specific view has the tag in the lowest bits of the second word.  `struct _Cap` has 48 bits
of address in front of it, so that the generic checks read five bits of the address instead.

* `SpecificCap.capType_toCap` : the bits that the generic view takes for the tag;
* `viewsAgree_iff` : the views agree on the tag, and the generic checks accept exactly what they
  name, if and only if these bits of the address happen to be the tag;
* `capType_of_kernel` : for an object of the kernel they are all set.
-/

namespace MicroKernel

/-! ### The generic checks -/

/-- The result of `lookup_slot_for_cnode_op` for a root that it takes for something else than a
CNode. -/
def invalidRootResult (isSource : Bool) (s : KState) : KState × Except U64 Ptr :=
  let s := failedLookup isSource s
  ({ s with currentLookupFault := { s.currentLookupFault with lufType := invalidRoot } },
    .error exceptionSyscallError)

/-- `lookup_slot_for_cnode_op` refuses the capability as a root, whatever is looked up. -/
def RefusedAsRoot (root : Cap) : Prop := ∀ u isSource capptr depth s,
  lookupSlotForCnodeOp u isSource root capptr depth s = invalidRootResult isSource s

/-- `resolve_address_bits` refuses the capability as a node: it uses no bit of any address. -/
def RefusedAsNode (nodeCap : Cap) : Prop := ∀ u capPtr nBits,
  (resolveAddressBits u nodeCap capPtr nBits).bitsRemaining = nBits

/-- The lookups of `get_receive_slots` end at `slot`. -/
def ReceiveSlotAt (u : Undef) (thread buffer slot : Ptr) (s s' : KState) : Prop :=
  let ct := loadCapTransfer buffer s
  buffer ≠ NULL ∧ slot ≠ NULL ∧
    ∃ cnode, lookupCap (u.lookupSlotStatus osMsgMaxExtraCaps) thread ct.ctReceiveRoot s =
        .ok cnode ∧
      lookupTargetSlot u cnode ct.ctReceiveIndex ct.ctReceiveDepth s = (s', .ok slot)

/-- The generic view of the capability `c` gives the tag `t`, and the generic checks accept `c`
exactly if `t` is the tag they name. -/
structure ViewsAgree (c : Cap) (t : U64) : Prop where
  /-- The tag. -/
  capType : c.capType = t
  /-- The check of `lookup_slot_for_cnode_op`. -/
  root : RefusedAsRoot c ↔ t ≠ capCnodeCap
  /-- The check of `resolve_address_bits`. -/
  node : RefusedAsNode c ↔ t ≠ capCnodeCap
  /-- The check of `get_receive_slots` for an empty slot. -/
  receive : ∀ u thread buffer slot s s', ReceiveSlotAt u thread buffer slot s s' →
    (s'.ctes slot).cap = c → ((getReceiveSlots u thread buffer s).2 = slot ↔ t = capNullCap)

section Checks

variable {c : Cap}

theorem refusedAsRoot_iff : RefusedAsRoot c ↔ c.capType ≠ capCnodeCap := by
  constructor
  · intro h hc
    -- a lookup without any bits is answered with a range error
    have hrange : (lookupSlotForCnodeOp Undef.benign false c 0 0
        KState.zero).1.currentSyscallError.type = osRangeError := by
      simp [lookupSlotForCnodeOp, hc]
    rw [h] at hrange
    exact absurd hrange (by decide)
  · intro h u isSource capptr depth s
    rw [lookupSlotForCnodeOp, if_pos h, invalidRootResult]

theorem refusedAsNode_iff : RefusedAsNode c ↔ c.capType ≠ capCnodeCap := by
  constructor
  · intro h hc
    have hmax : ¬BitVec.allOnes 64 < c.cnodeCap.capCNodeRadix + c.cnodeCap.capCNodeGuardSize := by
      have := (c.cnodeCap.capCNodeRadix + c.cnodeCap.capCNodeGuardSize).isLt
      rw [BitVec.lt_def, BitVec.toNat_allOnes]
      omega
    have hbits := h Undef.benign 0 (BitVec.allOnes 64)
    rw [resolveAddressBits, if_neg (not_not.2 hc)] at hbits
    simp only [hmax, if_false] at hbits
    exact absurd hbits (by decide)
  · intro h u capPtr nBits
    rw [resolveAddressBits, if_pos h]

theorem getReceiveSlots_eq_iff {u : Undef} {thread buffer slot : Ptr} {s s' : KState}
    (h : ReceiveSlotAt u thread buffer slot s s') :
    (getReceiveSlots u thread buffer s).2 = slot ↔ (s'.ctes slot).cap.capType = capNullCap := by
  obtain ⟨hbuffer, hslot, cnode, hcap, htarget⟩ := h
  simp only [getReceiveSlots, if_neg hbuffer, hcap, htarget]
  by_cases hnull : (s'.ctes slot).cap.capType = capNullCap
  · simp [hnull]
  · simp [hnull, Ne.symm hslot]

/-- The checks follow the tag that the generic view reads. -/
theorem viewsAgree_of_capType {t : U64} (h : c.capType = t) : ViewsAgree c t := by
  refine ⟨h, ?_, ?_, fun u thread buffer slot s s' hat hc => ?_⟩
  · rw [refusedAsRoot_iff, h]
  · rw [refusedAsNode_iff, h]
  · rw [getReceiveSlots_eq_iff hat, hc, h]

end Checks

/-! ### The bits that are read -/

/-- The five bits of the address field that lie at the bits 48 to 52 of the second word. -/
def SpecificCap.tagBits : SpecificCap → U64
  | endpoint c _ => bits c.capEPPtr 32 5
  | notification c _ => bits c.capNtfnPtr 32 5
  | cnode c => bits c.capCNodePtr 31 5
  | untyped c _ _ => bits c.capPtr 32 5
  | thread c _ => bits c.capTCBPtr 32 5

theorem extractLsb'_setWidth_of_le {w n start len : ℕ} (x : BitVec w) (h : start + len ≤ n) :
    (x.setWidth n).extractLsb' start len = x.extractLsb' start len := by
  refine BitVec.eq_of_getLsbD_eq fun i hi => ?_
  simp only [BitVec.getLsbD_extractLsb', BitVec.getLsbD_setWidth]
  have hlt : start + i < n := by omega
  simp [hlt]

/-- The generic view reads bits of the address. -/
theorem SpecificCap.capType_toCap (c : SpecificCap) (w2 : U64) :
    (c.toCap w2).capType = c.tagBits := by
  cases c with
  | endpoint c pad =>
    simp only [toCap, Cap.capType, EndpointCap.toCap, bits, tagBits]
    simp (disch := omega) only [BitVec.extractLsb'_append_eq_of_le]
    rw [extractLsb'_setWidth_of_le _ (by omega)]
  | notification c pad =>
    simp only [toCap, Cap.capType, NotificationCap.toCap, bits, tagBits]
    simp (disch := omega) only [BitVec.extractLsb'_append_eq_of_le]
    rw [extractLsb'_setWidth_of_le _ (by omega)]
  | cnode c =>
    simp only [toCap, Cap.capType, CNodeCap.toCap, bits, tagBits]
    simp (disch := omega) only [BitVec.extractLsb'_append_eq_of_le]
    rw [extractLsb'_setWidth_of_le _ (by omega)]
  | untyped c pad₀ pad₁ =>
    simp only [toCap, Cap.capType, UntypedCap.toCap, bits, tagBits]
    simp (disch := omega) only [BitVec.extractLsb'_append_eq_of_le]
    rw [extractLsb'_setWidth_of_le _ (by omega)]
  | thread c pad =>
    simp only [toCap, Cap.capType, ThreadCap.toCap, bits, tagBits]
    simp (disch := omega) only [BitVec.extractLsb'_append_eq_of_le]
    rw [extractLsb'_setWidth_of_le _ (by omega)]

/-- The generic view of a capability agrees with the view it was written through if and only if
the bits 32 to 36 of the address (31 to 35 of `capCNodePtr`) are the tag. -/
theorem viewsAgree_iff (c : SpecificCap) (w2 : U64) :
    ViewsAgree (c.toCap w2) c.tag ↔ c.tagBits = c.tag := by
  constructor
  · intro h
    rw [← h.capType, c.capType_toCap w2]
  · intro h
    exact viewsAgree_of_capType ((c.capType_toCap w2).trans h)

/-- The capability that `create_object` makes for an endpoint of the kernel is taken for one of
kind 31. -/
theorem not_viewsAgree :
    ¬∀ (c : SpecificCap) (w2 : U64), ViewsAgree (c.toCap w2) c.tag := by
  intro h
  have := (h (.endpoint
    ⟨0, capEndpointCap, true, true, true, true, 0xFFFFFFFF9FEC0000⟩ 0) 0).capType
  exact absurd this (by decide)

/-- Whatever `create_object` makes for an object of the kernel, the generic view reads 31, which is
no tag. -/
theorem capType_of_kernel (g : Cap) (objectType : ObjectType) {regionBase : U64} (userSize : U64)
    (deviceMemory : Bool) (h : kernBase ≤ regionBase) :
    (createObject g objectType regionBase userSize deviceMemory).capType = 31 := by
  have hones : ∀ start ∈ [31, 32], regionBase.extractLsb' start 5 = BitVec.allOnes 5 := by
    intro start hstart
    have hbounds : 31 ≤ start ∧ start ≤ 32 := by
      rcases List.mem_pair.1 hstart with rfl | rfl <;> decide
    refine BitVec.eq_of_getLsbD_eq fun i hi => ?_
    rw [BitVec.getLsbD_extractLsb', BitVec.getLsbD_allOnes,
      getLsbD_of_kernBase_le h (by omega) (by omega)]
    simp
  have h31 := hones 31 (by simp)
  have h32 := hones 32 (by simp)
  cases objectType with
  | tcb | endpoint =>
    refine (SpecificCap.capType_toCap (.endpoint _ _) _).trans ?_
    simp only [SpecificCap.tagBits, bits, h32]
    decide
  | notification =>
    refine (SpecificCap.capType_toCap (.notification _ _) _).trans ?_
    simp only [SpecificCap.tagBits, bits, h32]
    decide
  | capTable =>
    refine (SpecificCap.capType_toCap (.cnode _) _).trans ?_
    simp only [SpecificCap.tagBits, bits, h31]
    decide
  | untyped =>
    refine (SpecificCap.capType_toCap (.untyped _ _ _) _).trans ?_
    simp only [SpecificCap.tagBits, bits, h32]
    decide

end MicroKernel
